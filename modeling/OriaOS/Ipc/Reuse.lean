import OriaOS.Fs.Vfs
import OriaOS.Ipc.Mailbox
import OriaOS.Sched.Cpu

/-!
# What a slot keeps for its next task

A slot of the task table, its descriptors in `vfs.c` and its mailbox in `mq.c` are given
up and filled again. `task_init_common` resets part of the slot, each `task_create_*` a
part of its own, and `task_exit_code`, the exit of the owner and `task_kill` clear a
part each. What none of them touches is the residue of the slot.

A call is made by `current_task`, also by a task that was killed on the processor. The
frame of the TLS page is an argument of the creation, which takes it from the allocator.
-/

namespace OriaOS.Ipc.Reuse

open OriaOS.Lib

/-! ## Descriptors -/

/-- The type of a descriptor with the fields that the functions on that type read. -/
inductive Handle where
  | stdin
  | stdout
  | file (name : CString) (offset : UInt32)
  | pipe (pipeId : Int) (writeEnd : Bool)
  | net (conn : Int)
  | tty (ttyId : Int)
  | proc (name : CString) (offset : UInt32)
  | dev (sub : UInt32)

structure Descriptor where
  handle : Handle
  flags : UInt8

/-- The descriptors of a task. A free one is `none`. -/
abbrev FdTable := Fd → Option Descriptor

/-- A store to `offset`; a device keeps its subtype there, the others do not read it. -/
def Handle.moveTo (offset : UInt32) : Handle → Handle
  | file name _ => file name offset
  | proc name _ => proc name offset
  | dev _ => dev offset
  | h => h

/-- The free descriptors behind the standard ones. -/
def spareFds (fds : FdTable) : List Fd :=
  (List.finRange vfsMaxFd).filter fun j => 3 ≤ (j : Nat) && (fds j).isNone

/-- `vfs_init_task`. -/
def vfsInitTask : FdTable := fun j =>
  if j = 0 then some ⟨.stdin, Fs.oRdonly⟩
  else if (j : Nat) ≤ 2 then some ⟨.stdout, Fs.oWronly⟩
  else none

/-- What the functions of `vfs.c` store in the table of a task: `vfs_open`,
`vfs_net_open` and `vfs_tty_open` a descriptor of their own, `vfs_read`, `vfs_write` and
`vfs_seek` an offset. -/
inductive FdCall where
  | opened (d : Descriptor)
  | pipe (pipeId : Int)
  | redirectOut (d : Descriptor)
  | redirectIn (d : Descriptor)
  | redirectOutPipe (pipeId : Int)
  | move (j : Fd) (offset : UInt32)
  | close (j : Fd)

def FdCall.run (fds : FdTable) : FdCall → FdTable
  | .opened d =>
      match spareFds fds with
      | [] => fds
      | j :: _ => Function.update fds j (some d)
  | .pipe id =>
      match spareFds fds with
      | r :: w :: _ =>
          Function.update (Function.update fds r (some ⟨.pipe id false, Fs.oRdonly⟩)) w
            (some ⟨.pipe id true, Fs.oWronly⟩)
      | _ => fds
  | .redirectOut d => Function.update (Function.update fds 1 (some d)) 2 (some d)
  | .redirectIn d => Function.update fds 0 (some d)
  | .redirectOutPipe id => Function.update fds 1 (some ⟨.pipe id true, Fs.oWronly⟩)
  | .move j offset =>
      Function.update fds j ((fds j).map fun d => { d with handle := d.handle.moveTo offset })
  | .close j => if 3 ≤ (j : Nat) then Function.update fds j none else fds

/-! ## Steps on the task table -/

open OriaOS.Sched

/-- A store to the slot of `current_task`. -/
def onCurrent (s : CpuSys) (f : Task → Task) : CpuSys :=
  match (s.core .bsp).current with
  | none => s
  | some t => { s with tasks := modify s.tasks t f }

/-- The store of `task_wait` before it blocks. -/
def taskWait (s : CpuSys) (id : Tid) : CpuSys :=
  if id = 0 ∨ (s.tasks id).used = false then s
  else
    CpuSys.block { s with
      tasks := modify s.tasks id fun t => { t with waiter := (s.core .bsp).current } }

/-- The turn of `task_check_sleepers` on a slot whose time has come. -/
def wakeSleeper (t : Task) : Task :=
  if t.used = true ∧ t.status = .sleeping then { t with status := .running } else t

def taskSetPriority (prio : Int) (t : Task) : Task :=
  if t.used = false ∨ prio < 1 ∨ 3 < prio then t
  else { t with priority := prio.toNat, ticks := prio.toNat }

def taskSetNice (nice : Int) (t : Task) : Task :=
  if t.used = false then t else { t with nice := min (max nice (-20)) 19 }

/-- Steps that neither fill nor give up a slot. -/
inductive TaskOp where
  | tick
  | tickAp
  | land (c : Cpu)
  | setHasAp (v : Bool)
  | block
  | unblock (id : Tid)
  | sleep
  | wake (id : Tid)
  | yield
  | wait (id : Tid)
  | waited (id : Tid)
  | signal (id : Tid) (sig : Nat)
  | setSignalMask (id : Tid) (mask : UInt32)
  | setItimer (id : Tid) (ms : UInt32)
  | itimerTick
  | setPriority (id : Tid) (prio : Int)
  | setNice (id : Tid) (nice : Int)

def TaskOp.run (s : CpuSys) : TaskOp → CpuSys
  | .tick => cpuStep s .tick
  | .tickAp => cpuStep s .tickAp
  | .land c => s.land c
  | .setHasAp v => { s with hasAp := v }
  | .block => s.block
  | .unblock id => { s with tasks := taskUnblock s.tasks id }
  | .sleep => onCurrent s fun t => { t with status := .sleeping }
  | .wake id => { s with tasks := modify s.tasks id wakeSleeper }
  | .yield => onCurrent s fun t => if t.status = .running then { t with ticks := 1 } else t
  | .wait id => taskWait s id
  | .waited id => { s with tasks := modify s.tasks id fun t => { t with waiter := none } }
  | .signal id sig => { s with tasks := taskSendSignal s.tasks id sig }
  | .setSignalMask id mask => { s with tasks := taskSetSignalMask s.tasks id mask }
  | .setItimer id ms => { s with tasks := taskSetItimer s.tasks id ms }
  | .itimerTick => { s with tasks := taskItimerTick s.tasks }
  | .setPriority id prio => { s with tasks := modify s.tasks id (taskSetPriority prio) }
  | .setNice id nice => { s with tasks := modify s.tasks id (taskSetNice nice) }

/-! ## The system -/

/-- The task table with the fields of a slot that scheduling does not read, the
descriptors and the mailboxes. A `tls_frame` of 0 is none. -/
structure TableSys where
  cpu : CpuSys
  uid : Tid → Int
  tlsFrame : Tid → Nat
  fpuValid : Tid → Bool
  fds : Tid → FdTable
  boxes : Tid → Mailbox

namespace TableSys

def current (s : TableSys) : Option Tid := (s.cpu.core .bsp).current

end TableSys

/-- The calls of `task_create`, `task_create_user` and `task_create_thread`. -/
inductive Filling where
  | kernel (dir : Nat)
  | user (dir frame : Nat)
  | thread (parent : Tid) (frame : Nat)

namespace Filling

def creation (s : TableSys) : Filling → Creation
  | kernel dir => .kernel s.cpu.hasAp dir
  | user dir _ => .user dir
  | thread parent _ => .thread parent

/-- The slot that the call fills. -/
def slot (s : TableSys) (f : Filling) : Option Tid := (f.creation s).slot s.cpu.tasks

/-- `tls_frame` behind the call; `task_create` does not store it. -/
def tls (old : Nat) : Filling → Nat
  | kernel _ => old
  | user _ frame | thread _ frame => frame

/-- The descriptors behind the call; `task_create` leaves the table of the slot. -/
def fds (s : TableSys) (old : FdTable) : Filling → FdTable
  | kernel _ => old
  | user .. => vfsInitTask
  | thread parent _ => s.fds parent

end Filling

namespace TableSys

def fill (s : TableSys) (f : Filling) : TableSys :=
  let s' := { s with cpu := s.cpu.create (f.creation s) }
  match f.slot s with
  | none => s'
  | some i =>
      { s' with
        tlsFrame := Function.update s.tlsFrame i (f.tls (s.tlsFrame i))
        fpuValid := Function.update s.fpuValid i false
        fds := Function.update s.fds i (f.fds s (s.fds i)) }

/-- `task_create_fork`, with `task_set_page_dir`. -/
def fork (s : TableSys) (parent : Tid) (dir : Nat) : TableSys :=
  let s' := { s with cpu := s.cpu.create (.fork parent dir) }
  match freeSlot s.cpu.tasks with
  | none => s'
  | some i =>
      { s' with
        uid := Function.update s.uid i (s.uid parent)
        tlsFrame := Function.update s.tlsFrame i 0
        fpuValid := Function.update s.fpuValid i (s.fpuValid parent)
        fds := Function.update s.fds i (s.fds parent) }

/-- `task_exit_code`: a process closes its descriptors, a thread leaves them. It does
not ask whether the slot is used: a task that was killed while it runs clears a free
one. -/
def exit (s : TableSys) : TableSys :=
  match s.current with
  | none => s
  | some t =>
      { s with
        cpu := s.cpu.exit
        tlsFrame := Function.update s.tlsFrame t 0
        fds := if (s.cpu.tasks t).isThread then s.fds
          else Function.update s.fds t fun _ => none }

/-- A store to a field that stands beside the task table, for `current_task`. -/
def commit (s : TableSys) (c : Cpu) : TableSys :=
  -- the switch saves the registers of the task it leaves; on the second processor only
  -- if the slot is still used
  let saves t := c = .bsp ∨ (s.cpu.tasks t).used = true
  { s with
    cpu := s.cpu.commit c
    fpuValid :=
      match (s.cpu.core c).phase, (s.cpu.core c).current with
      | .claimed _, some t => if saves t then Function.update s.fpuValid t true else s.fpuValid
      | _, _ => s.fpuValid }

end TableSys

inductive TableOp where
  | task (op : TaskOp)
  | commit (c : Cpu)
  | fill (f : Filling)
  | fork (parent : Tid) (dir : Nat)
  | exit
  | kill (id : Tid)
  | exec (dir : Nat)
  | setUid (uid : Int)
  | fd (t : Tid) (call : FdCall)
  | send (dst : Int) (data : Nat → UInt8) (len fromPid : Int)
  | recv (dst maxLen : Int)

def tableStep (s : TableSys) : TableOp → TableSys
  | .task op => { s with cpu := op.run s.cpu }
  | .commit c => s.commit c
  | .fill f => s.fill f
  | .fork parent dir => s.fork parent dir
  | .exit => s.exit
  | .kill id => { s with cpu := s.cpu.kill id }
  | .exec dir =>
      { s with cpu := onCurrent s.cpu fun t => { t with pageDir := some dir }
               fds := match s.current with
                 | none => s.fds
                 | some t => Function.update s.fds t vfsInitTask }
  | .setUid uid =>
      match s.current with
      | none => s
      | some t => { s with uid := Function.update s.uid t uid }
  | .fd t call => { s with fds := Function.update s.fds t (call.run (s.fds t)) }
  | .send dst data len fromPid =>
      { s with
        boxes := (mqSend (fun t => (s.cpu.tasks t).used) s.boxes dst data len fromPid).1 }
  | .recv dst maxLen => { s with boxes := (mqRecv s.boxes dst maxLen).boxes }

/-- The slot of the shell behind `task_set_main`. -/
def shellTask : Task :=
  { Task.empty with
    used := true
    priority := 3
    ticks := 3
    isUser := true
    pageDir := some 0 }

/-- The tables in zeroed memory behind `task_set_main` and `vfs_init_task(0)`. -/
def booted : TableSys where
  cpu := ⟨fun t => if t = 0 then shellTask else Task.empty, 1, false,
    fun c => ⟨if c = .bsp then some 0 else none, .running⟩, false⟩
  uid _ := 0
  tlsFrame _ := 0
  fpuValid _ := false
  fds t := if t = 0 then vfsInitTask else fun _ => none
  boxes _ _ := ⟨false, 0, 0, fun _ => 0⟩

/-- The state behind a history. -/
def after (history : List TableOp) : TableSys := history.foldl tableStep booted

/-! ## What a new task shows -/

/-- The state of a task that it or others can read. -/
structure Observed where
  pendingSignals : UInt32
  signalMask : UInt32
  uid : Int
  nice : Int
  ageTicks : UInt32
  itimerInterval : UInt32
  itimerRemaining : UInt32
  waiter : Option Tid
  tlsFrame : Nat
  fpuValid : Bool
  fds : FdTable
  mail : List (Int × List UInt8)

def observe (s : TableSys) (i : Tid) : Observed where
  pendingSignals := (s.cpu.tasks i).pendingSignals
  signalMask := (s.cpu.tasks i).signalMask
  uid := s.uid i
  nice := (s.cpu.tasks i).nice
  ageTicks := (s.cpu.tasks i).ageTicks
  itimerInterval := (s.cpu.tasks i).itimerInterval
  itimerRemaining := (s.cpu.tasks i).itimerRemaining
  waiter := (s.cpu.tasks i).waiter
  tlsFrame := s.tlsFrame i
  fpuValid := s.fpuValid i
  fds := s.fds i
  mail := waiting (s.boxes i)

/-- What lies in a slot and is not reset by every creation. -/
structure Residue where
  pendingSignals : UInt32
  uid : Int
  nice : Int
  ageTicks : UInt32
  tlsFrame : Nat
  fds : FdTable
  mail : List (Int × List UInt8)

def residue (s : TableSys) (i : Tid) : Residue where
  pendingSignals := (s.cpu.tasks i).pendingSignals
  uid := s.uid i
  nice := (s.cpu.tasks i).nice
  ageTicks := (s.cpu.tasks i).ageTicks
  tlsFrame := s.tlsFrame i
  fds := s.fds i
  mail := waiting (s.boxes i)

/-- The part of the residue that the call leaves: it overwrites the rest. -/
def Filling.leaves (r : Residue) : Filling → Residue
  | kernel _ => r
  | user .. | thread .. => { r with tlsFrame := 0, fds := fun _ => none }

/-- The descriptors that a thread takes over from its parent. -/
def Filling.inherits (s : TableSys) : Filling → FdTable
  | thread parent _ => s.fds parent
  | _ => fun _ => none

/-- The step gives the slot up. -/
def Ends (s : TableSys) (op : TableOp) (i : Tid) : Prop :=
  (s.cpu.tasks i).used = true ∧ ((tableStep s op).cpu.tasks i).used = false

/-- What the ending of its task leaves in the slot: an exiting task clears its signals
and its `tls_frame`, and a process closes its descriptors; a thread that goes down with
its owner and a task that is killed leave everything. -/
def leftBy (s : TableSys) (op : TableOp) (i : Tid) : Residue :=
  let r := residue s i
  match op with
  | .exit =>
      if s.current = some i then
        { r with
          pendingSignals := 0
          tlsFrame := 0
          fds := if (s.cpu.tasks i).isThread then r.fds else fun _ => none }
      else r
  | _ => r

/-- The step works on the signals, the descriptors, the user or the mailbox of the slot. -/
def WorksOn (s : TableSys) (i : Tid) : TableOp → Prop
  | .exit | .exec _ | .setUid _ => s.current = some i
  | .fd t _ => t = i
  | .recv dst _ => taskAt dst = some i
  | _ => False

/-- The slot stays free, and nothing works on it. -/
def StaysFree (i : Tid) : TableSys → List TableOp → Prop
  | s, [] => (s.cpu.tasks i).used = false
  | s, op :: ops =>
      (s.cpu.tasks i).used = false ∧ ¬ WorksOn s i op ∧ StaysFree i (tableStep s op) ops

/-! ## Slots that nobody uses -/

/-- The used slots stay the same, and so does what lies in the others. -/
structure Rests (ts ts' : Tasks) : Prop where
  used : ∀ u, (ts' u).used = (ts u).used
  pending : ∀ u, (ts u).used = false → (ts' u).pendingSignals = (ts u).pendingSignals
  nice : ∀ u, (ts u).used = false → (ts' u).nice = (ts u).nice
  age : ∀ u, (ts u).used = false → (ts' u).ageTicks = (ts u).ageTicks

section Resting
variable {ts ts' ts'' : Tasks}

theorem Rests.refl (ts : Tasks) : Rests ts ts :=
  ⟨fun _ => rfl, fun _ _ => rfl, fun _ _ => rfl, fun _ _ => rfl⟩

theorem Rests.trans (h : Rests ts ts') (h' : Rests ts' ts'') : Rests ts ts'' := by
  have hfree : ∀ u, (ts u).used = false → (ts' u).used = false := by
    intro u hu
    rw [h.used, hu]
  constructor
  case used => exact fun u => (h'.used u).trans (h.used u)
  case pending => exact fun u hu => (h'.pending u (hfree u hu)).trans (h.pending u hu)
  case nice => exact fun u hu => (h'.nice u (hfree u hu)).trans (h.nice u hu)
  case age => exact fun u hu => (h'.age u (hfree u hu)).trans (h.age u hu)

/-- A change slot by slot that leaves a free slot as it is. -/
theorem rests_of_slot (hused : ∀ u, (ts' u).used = (ts u).used)
    (hfree : ∀ u, (ts u).used = false → ts' u = ts u) : Rests ts ts' where
  used := hused
  pending := fun u hu => by rw [hfree u hu]
  nice := fun u hu => by rw [hfree u hu]
  age := fun u hu => by rw [hfree u hu]

/-- A change of one slot. -/
theorem rests_modify {f : Task → Task} {t : Tid} (hused : (f (ts t)).used = (ts t).used)
    (hfree : (ts t).used = false → (f (ts t)).pendingSignals = (ts t).pendingSignals ∧
      (f (ts t)).nice = (ts t).nice ∧ (f (ts t)).ageTicks = (ts t).ageTicks) :
    Rests ts (modify ts t f) := by
  have hslot (u : Tid) : modify ts t f u = ts u ∨ u = t ∧ modify ts t f u = f (ts t) := by
    rw [modify_apply]
    split
    · next hu => exact Or.inr ⟨hu, rfl⟩
    · exact Or.inl rfl
  constructor
  case used =>
    intro u
    obtain hsame | ⟨rfl, hf⟩ := hslot u
    · rw [hsame]
    · rw [hf, hused]
  case pending =>
    intro u hu
    obtain hsame | ⟨rfl, hf⟩ := hslot u
    · rw [hsame]
    · rw [hf, (hfree hu).1]
  case nice =>
    intro u hu
    obtain hsame | ⟨rfl, hf⟩ := hslot u
    · rw [hsame]
    · rw [hf, (hfree hu).2.1]
  case age =>
    intro u hu
    obtain hsame | ⟨rfl, hf⟩ := hslot u
    · rw [hsame]
    · rw [hf, (hfree hu).2.2]

/-- A change of one slot in other fields. -/
theorem rests_keeping (ts : Tasks) (t : Tid) (f : Task → Task)
    (h : ∀ x, (f x).used = x.used ∧ (f x).pendingSignals = x.pendingSignals ∧
      (f x).nice = x.nice ∧ (f x).ageTicks = x.ageTicks) : Rests ts (modify ts t f) :=
  rests_modify (h _).1 fun _ => (h _).2

theorem rests_unblock (ts : Tasks) (id : Tid) : Rests ts (taskUnblock ts id) := by
  apply rests_modify
  · exact unblockSlot_field Task.used (fun _ _ => rfl) _
  · intro _
    exact ⟨unblockSlot_field Task.pendingSignals (fun _ _ => rfl) _,
      unblockSlot_field Task.nice (fun _ _ => rfl) _,
      unblockSlot_field Task.ageTicks (fun _ _ => rfl) _⟩

theorem rests_signal (ts : Tasks) (id : Tid) (sig : Nat) : Rests ts (taskSendSignal ts id sig) := by
  unfold taskSendSignal
  split
  · exact Rests.refl ts
  · apply rests_modify
    · exact signalSlot_field Task.used (fun _ _ => rfl) (fun _ _ => rfl) sig _
    · intro hfree
      rw [signalSlot, if_pos (Or.inl hfree)]
      exact ⟨rfl, rfl, rfl⟩

theorem rests_itimerTick (ts : Tasks) : Rests ts (taskItimerTick ts) := by
  apply rests_of_slot
  · exact taskItimerTick_field Task.used (fun _ _ => rfl) (fun _ _ => rfl) (fun _ _ => rfl) ts
  · intro u hu
    rw [taskItimerTick, itimerSlot, if_pos (Or.inl hu)]

theorem rests_setCpu (ts : Tasks) (x : Option Tid) (v : Option Cpu) : Rests ts (setCpu ts x v) := by
  cases x with
  | none => exact Rests.refl ts
  | some x =>
      rw [setCpu]
      apply rests_keeping
      exact fun _ => ⟨rfl, rfl, rfl, rfl⟩

theorem rests_claim (ts : Tasks) (c : Cpu) (old : Option Tid) (next : Tid) :
    Rests ts (claim ts c old next) :=
  (rests_setCpu ts old none).trans (rests_setCpu _ _ _)

theorem rests_resetTicks (ts : Tasks) (t : Tid) : Rests ts (modify ts t resetTicks) := by
  apply rests_modify
  · exact resetTicks_field Task.used (fun _ _ => rfl) _
  · intro _
    exact ⟨resetTicks_field Task.pendingSignals (fun _ _ => rfl) _,
      resetTicks_field Task.nice (fun _ _ => rfl) _,
      resetTicks_field Task.ageTicks (fun _ _ => rfl) _⟩

/-- Only tasks grow older. -/
theorem rests_ageOthers (ts : Tasks) (current : Tid) (best : Option Tid) :
    Rests ts (ageOthers ts current best) := by
  apply rests_of_slot
  · exact ageOthers_field Task.used (fun _ _ => rfl) ts current best
  · intro u hu
    rw [ageOthers, if_neg]
    rintro ⟨hwaits, -, -⟩
    rw [hwaits.1] at hu
    cases hu

/-- The scheduler of the boot processor chooses a task that is used. -/
theorem rests_taskSwitch (s : CpuSys) : Rests s.tasks s.taskSwitch.tasks := by
  unfold CpuSys.taskSwitch
  split
  · exact Rests.refl _
  · next current _ =>
    split
    · exact Rests.refl _
    · split
      · dsimp only
        apply rests_keeping
        exact fun _ => ⟨rfl, rfl, rfl, rfl⟩
      · have haged := (rests_resetTicks s.tasks current).trans
          (rests_ageOthers (modify s.tasks current resetTicks) current
            (pickBest (modify s.tasks current resetTicks) s.hasAp current))
        dsimp only
        split
        · exact haged
        · next next _ =>
          split
          · next hwaits =>
            have hclaim := haged.trans (rests_claim _ .bsp (some current) next)
            apply hclaim.trans
            rw [CpuSys.setCore_tasks]
            dsimp only
            apply rests_modify
            · rfl
            · intro hfree
              rw [(rests_claim _ .bsp (some current) next).used, hwaits.1] at hfree
              cases hfree
          · exact haged

theorem rests_taskSwitchAp (s : CpuSys) : Rests s.tasks s.taskSwitchAp.tasks := by
  have hreset : Rests s.tasks (match (s.core .ap).current with
      | none => s.tasks
      | some c => modify s.tasks c resetTicks) := by
    split
    · exact Rests.refl _
    · exact rests_resetTicks _ _
  unfold CpuSys.taskSwitchAp
  dsimp only
  split
  · exact Rests.refl _
  · split
    · split
      · exact Rests.refl _
      · dsimp only
        apply rests_keeping
        exact fun _ => ⟨rfl, rfl, rfl, rfl⟩
    · split
      · exact hreset.trans (rests_setCpu _ _ _)
      · split
        · exact hreset.trans (rests_setCpu _ _ _)
        · exact hreset.trans (rests_claim _ _ _ _)

theorem rests_onCurrent (s : CpuSys) {f : Task → Task}
    (h : ∀ x, (f x).used = x.used ∧ (f x).pendingSignals = x.pendingSignals ∧
      (f x).nice = x.nice ∧ (f x).ageTicks = x.ageTicks) :
    Rests s.tasks (onCurrent s f).tasks := by
  unfold onCurrent
  split
  · exact Rests.refl _
  · exact rests_keeping s.tasks _ f h

theorem rests_block (s : CpuSys) : Rests s.tasks s.block.tasks := by
  unfold CpuSys.block taskBlock
  split
  · exact Rests.refl _
  · dsimp only
    apply rests_keeping
    exact fun _ => ⟨rfl, rfl, rfl, rfl⟩

theorem rests_taskWait (s : CpuSys) (id : Tid) : Rests s.tasks (taskWait s id).tasks := by
  unfold taskWait
  split
  · exact Rests.refl _
  · refine Rests.trans ?_ (rests_block _)
    dsimp only
    apply rests_keeping
    exact fun _ => ⟨rfl, rfl, rfl, rfl⟩

theorem rests_run (s : CpuSys) (op : TaskOp) : Rests s.tasks (op.run s).tasks := by
  cases op with
  | tick =>
      simp only [TaskOp.run, cpuStep]
      split
      · exact rests_taskSwitch s
      · exact Rests.refl _
  | tickAp =>
      simp only [TaskOp.run, cpuStep]
      split
      · exact rests_taskSwitchAp s
      · exact Rests.refl _
  | land c =>
      simp only [TaskOp.run, CpuSys.land]
      split <;> exact Rests.refl _
  | setHasAp v => exact Rests.refl _
  | block => exact rests_block s
  | unblock id => exact rests_unblock s.tasks id
  | sleep =>
      apply rests_onCurrent
      exact fun _ => ⟨rfl, rfl, rfl, rfl⟩
  | wake id =>
      apply rests_keeping
      intro x
      unfold wakeSleeper
      split <;> exact ⟨rfl, rfl, rfl, rfl⟩
  | yield =>
      apply rests_onCurrent
      intro x
      split <;> exact ⟨rfl, rfl, rfl, rfl⟩
  | wait id => exact rests_taskWait s id
  | waited id =>
      simp only [TaskOp.run]
      apply rests_keeping
      exact fun _ => ⟨rfl, rfl, rfl, rfl⟩
  | signal id sig => exact rests_signal s.tasks id sig
  | setSignalMask id mask =>
      simp only [TaskOp.run, taskSetSignalMask]
      split
      · apply rests_keeping
        exact fun _ => ⟨rfl, rfl, rfl, rfl⟩
      · exact Rests.refl _
  | setItimer id ms =>
      simp only [TaskOp.run, taskSetItimer]
      split
      · apply rests_keeping
        exact fun _ => ⟨rfl, rfl, rfl, rfl⟩
      · exact Rests.refl _
  | itimerTick => exact rests_itimerTick s.tasks
  | setPriority id prio =>
      apply rests_keeping
      intro x
      unfold taskSetPriority
      split <;> exact ⟨rfl, rfl, rfl, rfl⟩
  | setNice id nice =>
      apply rests_modify
      · unfold taskSetNice
        split <;> rfl
      · intro hfree
        rw [taskSetNice, if_pos hfree]
        exact ⟨rfl, rfl, rfl⟩

end Resting

/-! ## One step on a free slot -/

theorem commit_tasks (s : CpuSys) (c : Cpu) : (s.commit c).tasks = s.tasks := by
  unfold CpuSys.commit
  split <;> rfl

/-- A message goes to a used slot only. -/
theorem mqSend_of_free {used : Tid → Bool} {boxes : Tid → Mailbox} {i : Tid}
    (h : used i = false) (dst : Int) (data : Nat → UInt8) (len fromPid : Int) :
    (mqSend used boxes dst data len fromPid).1 i = boxes i := by
  unfold mqSend
  split
  · rfl
  · next t _ =>
    split
    · next hused =>
      split
      · rfl
      · have hit : i ≠ t := by
          rintro rfl
          rw [h] at hused
          cases hused
        exact Function.update_of_ne hit _ _
    · rfl

theorem mqRecv_of_ne {boxes : Tid → Mailbox} {dst maxLen : Int} {i : Tid}
    (h : taskAt dst ≠ some i) : (mqRecv boxes dst maxLen).boxes i = boxes i := by
  unfold mqRecv
  split
  · rfl
  · next t ht =>
    split
    · rfl
    · have hit : i ≠ t := by
        rintro rfl
        exact h ht
      exact Function.update_of_ne hit _ _

section Steps
variable {s : TableSys} {i t : Tid} {op : TableOp}

/-- The parts of the residue one by one. -/
theorem residue_ext {s' : TableSys}
    (hpending : (s'.cpu.tasks i).pendingSignals = (s.cpu.tasks i).pendingSignals)
    (hnice : (s'.cpu.tasks i).nice = (s.cpu.tasks i).nice)
    (hage : (s'.cpu.tasks i).ageTicks = (s.cpu.tasks i).ageTicks)
    (huid : s'.uid i = s.uid i) (htls : s'.tlsFrame i = s.tlsFrame i)
    (hfds : s'.fds i = s.fds i) (hbox : s'.boxes i = s.boxes i) : residue s' i = residue s i := by
  simp only [residue, hpending, hnice, hage, huid, htls, hfds, hbox]

/-- A change of the task table at rest, with nothing else of the slot changed. -/
theorem residue_of_rests {s' : TableSys} (hfree : (s.cpu.tasks i).used = false)
    (htasks : Rests s.cpu.tasks s'.cpu.tasks) (huid : s'.uid i = s.uid i)
    (htls : s'.tlsFrame i = s.tlsFrame i) (hfds : s'.fds i = s.fds i)
    (hbox : s'.boxes i = s.boxes i) : residue s' i = residue s i :=
  residue_ext (htasks.pending i hfree) (htasks.nice i hfree) (htasks.age i hfree) huid htls hfds
    hbox

/-- A creation fills one slot and leaves the others. -/
theorem create_tasks (s : CpuSys) (c : Creation) (u : Tid) :
    (s.create c).tasks u =
      if c.slot s.tasks = some u then c.init s.tasks (s.tasks u) else s.tasks u := by
  have hslot : ∀ {n}, c.slot { s with count := n }.tasks = c.slot s.tasks := rfl
  unfold CpuSys.create
  cases hf : freeSlot s.tasks with
  | none =>
      have hnone : c.slot s.tasks = none := by
        cases c with
        | thread parent =>
            rw [Creation.slot]
            split
            · exact hf
            · rfl
        | _ => exact hf
      simp [hnone]
  | some id =>
      dsimp only
      cases hs : c.slot s.tasks with
      | none => simp
      | some j =>
          dsimp only
          rw [modify_apply]
          by_cases hu : u = j
          · rw [if_pos hu, if_pos (congrArg some hu.symm), hu]
          · rw [if_neg hu, if_neg fun h => hu (Option.some.inj h).symm]

theorem fill_cpu (s : TableSys) (f : Filling) :
    (s.fill f).cpu = s.cpu.create (f.creation s) ∧ (s.fill f).uid = s.uid ∧
      (s.fill f).boxes = s.boxes := by
  unfold TableSys.fill
  split <;> exact ⟨rfl, rfl, rfl⟩

theorem fork_cpu (s : TableSys) (parent : Tid) (dir : Nat) :
    (s.fork parent dir).cpu = s.cpu.create (.fork parent dir) ∧
      (s.fork parent dir).boxes = s.boxes := by
  unfold TableSys.fork
  split <;> exact ⟨rfl, rfl⟩

/-- The slot that a creation fills is used behind it, the others are as before. -/
theorem create_used (s : CpuSys) (c : Creation) (u : Tid) :
    ((s.create c).tasks u).used = true ↔ c.slot s.tasks = some u ∨ (s.tasks u).used = true := by
  rw [create_tasks]
  split
  · next h => simp [h]
  · next h => simp [h]

/-- What a filling leaves of a slot that it does not fill. -/
theorem residue_fill_of_ne {f : Filling} (h : f.slot s ≠ some i) :
    residue (s.fill f) i = residue s i := by
  obtain ⟨hcpu, huid, hboxes⟩ := fill_cpu s f
  have htask : (s.fill f).cpu.tasks i = s.cpu.tasks i := by
    rw [hcpu, create_tasks]
    exact if_neg h
  have hbeside : (s.fill f).tlsFrame i = s.tlsFrame i ∧ (s.fill f).fds i = s.fds i := by
    unfold TableSys.fill
    split
    · exact ⟨rfl, rfl⟩
    · next j hj =>
      have hij : i ≠ j := by
        rintro rfl
        exact h hj
      exact ⟨Function.update_of_ne hij _ _, Function.update_of_ne hij _ _⟩
  apply residue_ext
  all_goals simp [htask, huid, hboxes, hbeside]

theorem residue_fork_of_ne {parent : Tid} {dir : Nat} (h : freeSlot s.cpu.tasks ≠ some i) :
    residue (s.fork parent dir) i = residue s i := by
  obtain ⟨hcpu, hboxes⟩ := fork_cpu s parent dir
  have htask : (s.fork parent dir).cpu.tasks i = s.cpu.tasks i := by
    rw [hcpu, create_tasks]
    exact if_neg h
  have hbeside : (s.fork parent dir).uid i = s.uid i ∧
      (s.fork parent dir).tlsFrame i = s.tlsFrame i ∧ (s.fork parent dir).fds i = s.fds i := by
    unfold TableSys.fork
    split
    · exact ⟨rfl, rfl, rfl⟩
    · next j hj =>
      have hij : i ≠ j := by
        rintro rfl
        exact h hj
      exact ⟨Function.update_of_ne hij _ _, Function.update_of_ne hij _ _,
        Function.update_of_ne hij _ _⟩
  apply residue_ext
  all_goals simp [htask, hboxes, hbeside]

/-- Whose slot an exit gives up, and what it leaves of the others. -/
theorem residue_exit (h : s.current = some t) :
    residue s.exit i =
      if i = t then
        { residue s i with
          pendingSignals := 0
          tlsFrame := 0
          fds := if (s.cpu.tasks i).isThread then s.fds i else fun _ => none }
      else residue s i := by
  have hexit : s.exit = { s with
      cpu := s.cpu.exit
      tlsFrame := Function.update s.tlsFrame t 0
      fds := if (s.cpu.tasks t).isThread then s.fds
        else Function.update s.fds t fun _ => none } := by
    simp only [TableSys.exit, h]
  have hcpu : s.cpu.exit.tasks = taskExitCode s.cpu.tasks t := by
    have hcur : (s.cpu.core .bsp).current = some t := h
    simp only [CpuSys.exit, hcur]
  obtain ⟨st, hst⟩ := taskExitCode_eq s.cpu.tasks t i
  have hkept : (if (s.cpu.tasks t).isThread then s.cpu.tasks i
      else reaped t i (s.cpu.tasks i)).nice = (s.cpu.tasks i).nice ∧
      (if (s.cpu.tasks t).isThread then s.cpu.tasks i
        else reaped t i (s.cpu.tasks i)).ageTicks = (s.cpu.tasks i).ageTicks ∧
      (if (s.cpu.tasks t).isThread then s.cpu.tasks i
        else reaped t i (s.cpu.tasks i)).pendingSignals = (s.cpu.tasks i).pendingSignals := by
    unfold reaped
    split
    · exact ⟨rfl, rfl, rfl⟩
    · split <;> exact ⟨rfl, rfl, rfl⟩
  rw [hexit]
  simp only [residue, hcpu, hst]
  by_cases hit : i = t
  · subst hit
    simp only [if_true, clearSlot, hkept, Function.update_self, Residue.mk.injEq, true_and]
    split
    · trivial
    · exact ⟨Function.update_self _ _ _, trivial⟩
  · simp only [if_neg hit, hkept, Function.update_of_ne hit, Residue.mk.injEq, true_and, and_true]
    split
    · rfl
    · exact Function.update_of_ne hit _ _

/-- A kill leaves what lies in the slots. -/
theorem residue_kill (s : TableSys) (id i : Tid) :
    residue (tableStep s (.kill id)) i = residue s i := by
  have hfield {α : Type} (p : Task → α) (hp : ∀ x, p (killSlot x) = p x) :
      p ((s.cpu.kill id).tasks i) = p (s.cpu.tasks i) := by
    unfold CpuSys.kill
    split
    · rfl
    · exact modify_field p hp s.cpu.tasks id i
  apply residue_ext
  case hpending => exact hfield Task.pendingSignals fun _ => rfl
  case hnice => exact hfield Task.nice fun _ => rfl
  case hage => exact hfield Task.ageTicks fun _ => rfl
  all_goals rfl

theorem exit_of_idle (h : s.current = none) : s.exit = s := by
  rw [TableSys.exit, h]

/-- A free slot that nothing works on keeps its residue while it stays free. -/
theorem residue_step (hfree : (s.cpu.tasks i).used = false)
    (hstays : ((tableStep s op).cpu.tasks i).used = false) (hworks : ¬ WorksOn s i op) :
    residue (tableStep s op) i = residue s i := by
  have hother {t : Tid} (h : s.current ≠ some i) (ht : s.current = some t) : i ≠ t := by
    rintro rfl
    exact h ht
  cases op with
  | task op => exact residue_of_rests hfree (rests_run s.cpu op) rfl rfl rfl rfl
  | commit c =>
      have hcpu := commit_tasks s.cpu c
      apply residue_of_rests hfree
      · rw [show (tableStep s (.commit c)).cpu.tasks = s.cpu.tasks from hcpu]
        exact Rests.refl _
      all_goals rfl
  | fill f =>
      apply residue_fill_of_ne
      intro hslot
      rw [tableStep, (fill_cpu s f).1] at hstays
      have := (create_used s.cpu (f.creation s) i).mpr (Or.inl hslot)
      rw [hstays] at this
      cases this
  | fork parent dir =>
      apply residue_fork_of_ne
      intro hslot
      rw [tableStep, (fork_cpu s parent dir).1] at hstays
      have := (create_used s.cpu (.fork parent dir) i).mpr (Or.inl hslot)
      rw [hstays] at this
      cases this
  | exit =>
      cases hcur : s.current with
      | none => rw [tableStep, exit_of_idle hcur]
      | some t => rw [tableStep, residue_exit hcur, if_neg (hother hworks hcur)]
  | kill id => exact residue_kill s id i
  | exec dir =>
      apply residue_of_rests hfree
      case htasks =>
        apply rests_onCurrent
        exact fun _ => ⟨rfl, rfl, rfl, rfl⟩
      case hfds =>
        cases hcur : s.current with
        | none => simp only [tableStep, hcur]
        | some t =>
            simp only [tableStep, hcur]
            exact Function.update_of_ne (hother hworks hcur) _ _
      all_goals rfl
  | setUid uid =>
      simp only [tableStep]
      split
      · rfl
      · next t ht =>
        exact residue_of_rests hfree (Rests.refl _)
          (Function.update_of_ne (hother hworks ht) _ _) rfl rfl rfl
  | fd t call =>
      have hit : i ≠ t := fun h => hworks h.symm
      exact residue_of_rests hfree (Rests.refl _) rfl rfl (Function.update_of_ne hit _ _) rfl
  | send dst data len fromPid =>
      exact residue_of_rests hfree (Rests.refl _) rfl rfl rfl
        (mqSend_of_free hfree dst data len fromPid)
  | recv dst maxLen =>
      exact residue_of_rests hfree (Rests.refl _) rfl rfl rfl (mqRecv_of_ne hworks)

/-- Only an exit and a kill give a slot up. -/
theorem ends_cases (h : Ends s op i) : (∃ id, op = .kill id) ∨
    op = .exit ∧ ∃ t, s.current = some t := by
  obtain ⟨hused, hfree⟩ := h
  have hno {ts : Tasks} (hts : (tableStep s op).cpu.tasks = ts)
      (hkeeps : (ts i).used = true) : False := by
    rw [hts, hkeeps] at hfree
    cases hfree
  cases op with
  | task op => exact (hno rfl ((rests_run s.cpu op).used i ▸ hused)).elim
  | commit c =>
      exact (hno (commit_tasks s.cpu c) hused).elim
  | fill f =>
      refine (hno (congrArg CpuSys.tasks (fill_cpu s f).1) ?_).elim
      exact (create_used s.cpu _ i).mpr (Or.inr hused)
  | fork parent dir =>
      refine (hno (congrArg CpuSys.tasks (fork_cpu s parent dir).1) ?_).elim
      exact (create_used s.cpu _ i).mpr (Or.inr hused)
  | exit =>
      refine Or.inr ⟨rfl, ?_⟩
      cases hcur : s.current with
      | none => exact (hno (congrArg (fun x => x.cpu.tasks) (exit_of_idle hcur)) hused).elim
      | some t => exact ⟨t, rfl⟩
  | kill id => exact Or.inl ⟨id, rfl⟩
  | exec dir =>
      have hrests : Rests s.cpu.tasks (tableStep s (.exec dir)).cpu.tasks := by
        apply rests_onCurrent
        exact fun _ => ⟨rfl, rfl, rfl, rfl⟩
      exact (hno rfl ((hrests.used i).trans hused)).elim
  | setUid uid =>
      refine (hno (?_ : _ = s.cpu.tasks) hused).elim
      simp only [tableStep]
      split <;> rfl
  | fd t call => exact (hno rfl hused).elim
  | send dst data len fromPid => exact (hno rfl hused).elim
  | recv dst maxLen => exact (hno rfl hused).elim

/-- What the end of a task leaves in its slot. -/
theorem residue_of_ends (h : Ends s op i) : residue (tableStep s op) i = leftBy s op i := by
  obtain ⟨id, rfl⟩ | ⟨rfl, t, ht⟩ := ends_cases h
  · exact residue_kill s id i
  · rw [tableStep, residue_exit ht]
    simp only [leftBy, ht, Option.some.injEq]
    by_cases hit : i = t
    · rw [if_pos hit, if_pos hit.symm]
      rfl
    · rw [if_neg hit, if_neg fun hti => hit hti.symm]

/-- The residue lies in the slot until the slot is filled. -/
theorem residue_of_stays {ops : List TableOp} (h : StaysFree i s ops) :
    residue (ops.foldl tableStep s) i = residue s i := by
  induction ops generalizing s with
  | nil => rfl
  | cons op ops ih =>
      obtain ⟨hfree, hworks, hrest⟩ := h
      have hnext : ((tableStep s op).cpu.tasks i).used = false := by
        cases ops with
        | nil => exact hrest
        | cons => exact hrest.1
      calc residue ((op :: ops).foldl tableStep s) i
          = residue (tableStep s op) i := ih hrest
        _ = residue s i := residue_step hfree hnext hworks

/-! ## Filling -/

/-- What the new task shows: the call's own values, what the residue leaves of its part,
and the descriptors of the parent. -/
def Filling.fresh (f : Filling) (r : Residue) (inherited : FdTable) : Observed where
  pendingSignals := r.pendingSignals
  signalMask := 0
  uid := r.uid
  nice := r.nice
  ageTicks := r.ageTicks
  itimerInterval := 0
  itimerRemaining := 0
  waiter := none
  tlsFrame := f.tls r.tlsFrame
  fpuValid := false
  fds :=
    match f with
    | kernel _ => r.fds
    | user .. => vfsInitTask
    | thread .. => inherited
  mail := r.mail

theorem observe_fill {f : Filling} (h : f.slot s = some i) :
    observe (tableStep s (.fill f)) i = f.fresh (f.leaves (residue s i)) (f.inherits s) := by
  obtain ⟨hcpu, huid, hboxes⟩ := fill_cpu s f
  have htask : (s.fill f).cpu.tasks i = (f.creation s).init s.cpu.tasks (s.cpu.tasks i) := by
    rw [hcpu, create_tasks]
    exact if_pos h
  have hfill : (s.fill f).tlsFrame i = f.tls (s.tlsFrame i) ∧ (s.fill f).fpuValid i = false ∧
      (s.fill f).fds i = f.fds s (s.fds i) := by
    simp only [TableSys.fill, h, Function.update_self, and_self]
  obtain ⟨htls, hfpu, hfds⟩ := hfill
  simp only [tableStep, observe, htask, htls, hfpu, hfds, huid, hboxes]
  cases f <;> rfl

/-- A new task tells what the call left of the residue. -/
theorem fresh_inj {f : Filling} {s' : TableSys} {r r' : Residue} :
    f.fresh (f.leaves r) (f.inherits s) = f.fresh (f.leaves r') (f.inherits s') ↔
      f.leaves r = f.leaves r' ∧ f.inherits s = f.inherits s' := by
  constructor
  · intro h
    cases f with
    | kernel dir =>
        refine ⟨?_, rfl⟩
        simp only [Filling.fresh, Filling.leaves, Filling.tls, Observed.mk.injEq] at h
        cases r
        cases r'
        simp only [Filling.leaves, Residue.mk.injEq]
        tauto
    | user dir frame =>
        refine ⟨?_, rfl⟩
        simp only [Filling.fresh, Filling.leaves, Observed.mk.injEq] at h
        simp only [Filling.leaves, Residue.mk.injEq]
        tauto
    | thread parent frame =>
        simp only [Filling.fresh, Filling.leaves, Filling.inherits, Observed.mk.injEq] at h
        simp only [Filling.leaves, Filling.inherits, Residue.mk.injEq]
        tauto
  · rintro ⟨hleaves, hinherits⟩
    rw [hleaves, hinherits]

end Steps

/-! ## Two histories -/

/-- Two histories that free a slot and fill it with the same call give tasks that show
the same if and only if they left the same residue in the slot, as far as the call does
not overwrite it, and, for a thread, the same descriptors in its parent. The residue is
what the last task of the slot had when it ended, less what that way of ending clears. -/
theorem refilled_same (h h' : List TableOp) (f : Filling) (i : Tid)
    (hs : f.slot (after h) = some i) (hs' : f.slot (after h') = some i) :
    (observe (after (h ++ [.fill f])) i = observe (after (h' ++ [.fill f])) i ↔
      f.leaves (residue (after h) i) = f.leaves (residue (after h') i) ∧
        f.inherits (after h) = f.inherits (after h')) ∧
    ∀ before op ops, h = before ++ op :: ops → Ends (after before) op i →
      StaysFree i (tableStep (after before) op) ops →
        residue (after h) i = leftBy (after before) op i := by
  have hfill (g : List TableOp) : after (g ++ [.fill f]) = tableStep (after g) (.fill f) := by
    simp [after]
  constructor
  · rw [hfill, hfill, observe_fill hs, observe_fill hs']
    exact fresh_inj
  · rintro before op ops rfl hends hstays
    have hafter :
        after (before ++ op :: ops) = ops.foldl tableStep (tableStep (after before) op) := by
      simp [after]
    calc residue (after (before ++ op :: ops)) i
        = residue (tableStep (after before) op) i := by rw [hafter, residue_of_stays hstays]
      _ = leftBy (after before) op i := residue_of_ends hends

theorem refilled_same_user :
    observe (after ([.fill (.user 1 2), .kill 1] ++ [.fill (.user 3 4)])) 1 =
      observe (after ([.fill (.thread 0 5), .kill 1] ++ [.fill (.user 3 4)])) 1 :=
  (refilled_same [.fill (.user 1 2), .kill 1] [.fill (.thread 0 5), .kill 1] (.user 3 4) 1
    (by decide) (by decide)).1.mpr ⟨rfl, rfl⟩

/-- The signal that a killed task did not take any more goes to the next task of the
slot. -/
theorem killed_signal_carried :
    Ends (after [.fill (.user 1 2)]) (.kill 1) 1 ∧
      Ends (after [.fill (.user 1 2), .task (.signal 1 sigterm)]) (.kill 1) 1 ∧
      observe (after [.fill (.user 1 2), .kill 1, .fill (.user 3 4)]) 1 ≠
        observe (after [.fill (.user 1 2), .task (.signal 1 sigterm), .kill 1,
          .fill (.user 3 4)]) 1 := by
  refine ⟨?_, ?_, fun h => ?_⟩
  · unfold Ends
    decide
  · unfold Ends
    decide
  · have hpending := congrArg Observed.pendingSignals h
    revert hpending
    decide

end OriaOS.Ipc.Reuse
