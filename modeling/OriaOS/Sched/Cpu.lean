import OriaOS.Lib.Reach
import OriaOS.Sched.Table

/-!
# Two processors on one task table

`task_switch` on the boot processor and `task_switch_ap` on the application
processor. Each runs from its own timer interrupt, with interrupts off. The section
under `task_lock` is one step: it chooses the next task, releases the old one and
claims the new one. The store to `current_task` and the change of stack in the
interrupt routine come behind it without the lock, as two more steps, so that the
other processor may act in between.

A task that ends goes on using the stack of its slot until its processor has
switched away. `handedOut` records that a creation took a slot whose stack a
processor was executing on.
-/

namespace OriaOS.Sched

open OriaOS.Lib

/-- How far a processor is in changing from one task to the next. -/
inductive Phase where
  | running
  /-- The lock is released; `current_task` is still the old one. -/
  | claimed (next : Tid)
  /-- `current_task` is the new one; the stack is still the old one. -/
  | switching (old : Option Tid)
  deriving DecidableEq

/-- `current_task` or `current_task_ap`, and the switch under way. -/
structure Core where
  current : Option Tid
  phase : Phase
  deriving DecidableEq

namespace Core

/-- The task the processor runs, from the claim on. -/
def task (c : Core) : Option Tid :=
  match c.phase with
  | .claimed next => some next
  | _ => c.current

/-- The task the processor is switching away from. -/
def leaving (c : Core) : Option Tid :=
  match c.phase with
  | .running => none
  | .claimed _ => c.current
  | .switching old => old

/-- The slot whose stack the processor executes on. -/
def stack (c : Core) : Option Tid :=
  match c.phase with
  | .switching old => old
  | _ => c.current

/-- The processor runs the task or is switching away from it. -/
def Has (c : Core) (x : Tid) : Prop := c.task = some x ∨ c.leaving = some x

instance (c : Core) (x : Tid) : Decidable (c.Has x) := inferInstanceAs (Decidable (_ ∨ _))

theorem has_of_current {c : Core} {x : Tid} (h : c.current = some x) : c.Has x := by
  unfold Has task leaving
  cases c.phase with
  | claimed next => exact Or.inr h
  | _ => exact Or.inl h

theorem has_of_stack {c : Core} {x : Tid} (h : c.stack = some x) : c.Has x := by
  unfold Has task leaving
  unfold stack at h
  cases hp : c.phase with
  | running =>
      rw [hp] at h
      exact Or.inl h
  | claimed next =>
      rw [hp] at h
      exact Or.inr h
  | switching old =>
      rw [hp] at h
      exact Or.inr h

end Core

/-- `count` is `task_count`. -/
structure CpuSys where
  tasks : Tasks
  count : Nat
  hasAp : Bool
  core : Cpu → Core
  handedOut : Bool

namespace CpuSys

def setCore (s : CpuSys) (c : Cpu) (k : Core) : CpuSys :=
  { s with core := Function.update s.core c k }

@[simp] theorem setCore_tasks (s : CpuSys) (c : Cpu) (k : Core) :
    (s.setCore c k).tasks = s.tasks := rfl

@[simp] theorem setCore_self (s : CpuSys) (c : Cpu) (k : Core) : (s.setCore c k).core c = k := by
  simp [setCore]

theorem setCore_of_ne {c d : Cpu} (h : d ≠ c) (s : CpuSys) (k : Core) :
    (s.setCore c k).core d = s.core d := by
  simp [setCore, h]

end CpuSys

/-! ## Choosing the next task -/

/-- `task_tick_countdown_or_reset` keeps the task for another tick. -/
def CountsDown (t : Task) : Prop := t.used = true ∧ t.status = .running ∧ 1 < t.ticks

instance (t : Task) : Decidable (CountsDown t) := inferInstanceAs (Decidable (_ ∧ _ ∧ _))

def resetTicks (t : Task) : Task :=
  if t.used = true ∧ t.status = .running then { t with ticks := t.priority } else t

/-- The tests of the loops of `task_switch` on a slot. -/
def Waits (ts : Tasks) (current i : Tid) : Prop :=
  (ts i).used = true ∧ (ts i).status = .running ∧ (ts i).cpuId = none ∧ i ≠ current

instance (ts : Tasks) (current i : Tid) : Decidable (Waits ts current i) :=
  inferInstanceAs (Decidable (_ ∧ _ ∧ _ ∧ _))

/-- The slot may be chosen for the boot processor. -/
def Eligible (ts : Tasks) (hasAp : Bool) (current i : Tid) : Prop :=
  Waits ts current i ∧ ¬ (hasAp = true ∧ (ts i).isUser = false)

instance (ts : Tasks) (hasAp : Bool) (current i : Tid) : Decidable (Eligible ts hasAp current i) :=
  inferInstanceAs (Decidable (_ ∧ _))

def score (t : Task) : Int := t.priority * 4 - t.nice + (t.ageTicks >>> 3).toNat

/-- One turn of the loop for the best score. -/
def bestTurn (ts : Tasks) (hasAp : Bool) (current : Tid) (best : Option Tid × Int) (i : Tid) :
    Option Tid × Int :=
  if Eligible ts hasAp current i ∧ best.2 < score (ts i) then (some i, score (ts i)) else best

def pickBest (ts : Tasks) (hasAp : Bool) (current : Tid) : Option Tid :=
  ((List.finRange maxTasks).foldl (bestTurn ts hasAp current) (none, -9999)).1

/-- The loop that ages the tasks that were not chosen. -/
def ageOthers (ts : Tasks) (current : Tid) (best : Option Tid) : Tasks := fun i =>
  if Waits ts current i ∧ some i ≠ best ∧ (ts i).ageTicks < 0xFFFFFFFF then
    { ts i with ageTicks := (ts i).ageTicks + 1 }
  else ts i

/-- The slots in the order in which `task_switch_ap` looks at them. -/
def apOrder (current : Option Tid) : List Tid :=
  (List.finRange maxTasks).map fun i =>
    i + match current with
      | none => 0
      | some c => c + 1

/-- The two passes of `task_switch_ap`: tasks assigned to the processor, then free
ones. -/
def pickAp (ts : Tasks) (current : Option Tid) : Option Tid :=
  let ready i := (ts i).used && (ts i).status == .running && !(ts i).isUser
  ((apOrder current).find? fun i => ready i && (ts i).cpuId == some .ap && some i != current).or
    ((apOrder current).find? fun i => ready i && (ts i).cpuId == none)

/-! ## Steps -/

/-- A store to `cpu_id` of a slot, if there is one. -/
def setCpu (ts : Tasks) (x : Option Tid) (v : Option Cpu) : Tasks :=
  match x with
  | none => ts
  | some x => modify ts x fun t => { t with cpuId := v }

/-- The stores under the lock: the old task is released, the next one claimed. -/
def claim (ts : Tasks) (cpu : Cpu) (old : Option Tid) (next : Tid) : Tasks :=
  setCpu (setCpu ts old none) (some next) (some cpu)

namespace CpuSys

/-- `task_switch` up to the release of the lock. -/
def taskSwitch (s : CpuSys) : CpuSys :=
  match (s.core .bsp).current with
  | none => s
  | some current =>
      if s.count < 2 then s
      else if CountsDown (s.tasks current) then
        { s with tasks := modify s.tasks current fun t => { t with ticks := t.ticks - 1 } }
      else
        let tasks := modify s.tasks current resetTicks
        let best := pickBest tasks s.hasAp current
        let aged := ageOthers tasks current best
        match best with
        | none => { s with tasks := aged }
        | some next =>
            if Waits aged current next then
              { s with
                tasks := modify (claim aged .bsp (some current) next) next fun t =>
                  { t with ageTicks := 0 } }.setCore .bsp ⟨some current, .claimed next⟩
            else { s with tasks := aged }

/-- `task_switch_ap` up to the release of the lock. -/
def taskSwitchAp (s : CpuSys) : CpuSys :=
  let current := (s.core .ap).current
  if s.count < 1 then s
  else if current.any fun c => CountsDown (s.tasks c) then
    match current with
    | none => s
    | some c => { s with tasks := modify s.tasks c fun t => { t with ticks := t.ticks - 1 } }
  else
    let tasks :=
      match current with
      | none => s.tasks
      | some c => modify s.tasks c resetTicks
    let held := current.filter fun c => (tasks c).used
    match pickAp tasks current with
    | none => { s with tasks := setCpu tasks held (some .ap) }
    | some next =>
        if some next = current then { s with tasks := setCpu tasks held (some .ap) }
        else { s with tasks := claim tasks .ap held next }.setCore .ap ⟨current, .claimed next⟩

/-- The store to `current_task`. -/
def commit (s : CpuSys) (c : Cpu) : CpuSys :=
  match (s.core c).phase with
  | .claimed next => s.setCore c ⟨some next, .switching (s.core c).current⟩
  | _ => s

/-- The interrupt routine loads the stack pointer of the new task. -/
def land (s : CpuSys) (c : Cpu) : CpuSys :=
  match (s.core c).phase with
  | .switching _ => s.setCore c ⟨(s.core c).current, .running⟩
  | _ => s

/-- A processor executes on the stack of the slot. -/
def OnStack (s : CpuSys) (x : Tid) : Prop :=
  (s.core .bsp).stack = some x ∨ (s.core .ap).stack = some x

instance (s : CpuSys) (x : Tid) : Decidable (s.OnStack x) := inferInstanceAs (Decidable (_ ∨ _))

/-- A creation; a thread whose parent is not used raises `task_count` only. -/
def create (s : CpuSys) (c : Creation) : CpuSys :=
  match freeSlot s.tasks with
  | none => s
  | some id =>
      let s := { s with count := max s.count (id + 1) }
      match c.slot s.tasks with
      | none => s
      | some id =>
          { s with
            tasks := modify s.tasks id (c.init s.tasks)
            handedOut := s.handedOut || decide (s.OnStack id) }

/-- `task_exit_code`, which ends `current_task`, also one that was killed while it runs. -/
def exit (s : CpuSys) : CpuSys :=
  match (s.core .bsp).current with
  | none => s
  | some t => { s with tasks := taskExitCode s.tasks t }

def kill (s : CpuSys) (id : Tid) : CpuSys :=
  if id = 0 ∨ (s.tasks id).used = false then s
  else
    { s with
      tasks := modify s.tasks id killSlot
      count := if (id : Nat) + 1 = s.count then s.count - 1 else s.count }

/-- `task_block`, which blocks `current_task`. -/
def block (s : CpuSys) : CpuSys :=
  match (s.core .bsp).current with
  | none => s
  | some t => { s with tasks := taskBlock s.tasks t }

end CpuSys

inductive CpuOp where
  | tick
  | tickAp
  | commit (c : Cpu)
  | land (c : Cpu)
  | setHasAp (v : Bool)
  | createKernel (dir : Nat)
  | createUser (dir : Nat)
  | createThread (parent : Tid)
  | fork (parent : Tid) (dir : Nat)
  | exit
  | kill (id : Tid)
  | block
  | unblock (id : Tid)

def cpuStep (s : CpuSys) : CpuOp → CpuSys
  | .tick => if (s.core .bsp).phase = .running then s.taskSwitch else s
  | .tickAp => if (s.core .ap).phase = .running then s.taskSwitchAp else s
  | .commit c => s.commit c
  | .land c => s.land c
  | .setHasAp v => { s with hasAp := v }
  | .createKernel dir => s.create (.kernel s.hasAp dir)
  | .createUser dir => s.create (.user dir)
  | .createThread parent => s.create (.thread parent)
  | .fork parent dir => s.create (.fork parent dir)
  | .exit => s.exit
  | .kill id => s.kill id
  | .block => s.block
  | .unblock id => { s with tasks := taskUnblock s.tasks id }

/-- The shell runs on the boot processor; the other one runs nothing yet. -/
structure CpuStart (s : CpuSys) : Prop where
  shell : (s.tasks 0).cpuId = some .bsp
  alone : ∀ t, (s.tasks t).used = true → t = 0
  user : (s.tasks 0).isUser = true
  bsp : s.core .bsp = ⟨some 0, .running⟩
  ap : s.core .ap = ⟨none, .running⟩
  handedOut : s.handedOut = false

/-! ## What the schedulers promise -/

/-- The processors are on different slots, what they run carries their number, and no
stack in use was handed out. -/
structure OneCpu (s : CpuSys) : Prop where
  distinct : ∀ x, (s.core .bsp).current = some x → (s.core .ap).current ≠ some x
  carries : ∀ c x, (s.core c).task = some x → (s.tasks x).used = true →
    (s.tasks x).cpuId = some c
  stack : s.handedOut = false

/-- The condition on the steps: no processor chooses while the other is leaving a task
that it might choose, a kill does not hit a task that is on a processor, and no slot is
filled while the boot processor is on a task that has ended. -/
def cpuGuard (s : CpuSys) : CpuOp → Prop
  | .tick => s.hasAp = true ∨ (s.core .ap).leaving = none
  | .tickAp => ∀ x, (s.core .bsp).leaving = some x → (s.tasks x).used = true →
      (s.tasks x).isUser = true
  | .createKernel _ | .createUser _ | .createThread _ | .fork .. =>
      ∀ x, (s.core .bsp).Has x → (s.tasks x).used = true
  | .kill id => id ≠ 0 → (s.tasks id).used = true → ∀ c, ¬ (s.core c).Has id
  | _ => True

/-! ## The invariant -/

structure CpuInv (s : CpuSys) : Prop where
  carries : ∀ c x, (s.core c).task = some x → (s.tasks x).used = true →
    (s.tasks x).cpuId = some c
  apart : ∀ x, (s.core .bsp).Has x → ¬ (s.core .ap).Has x
  kernel : ∀ x, (s.core .ap).Has x → (s.tasks x).used = true ∧ (s.tasks x).isUser = false
  threads : ∀ t, (s.tasks t).used = true → (s.tasks t).isThread = true → (s.tasks t).isUser = true
  handedOut : s.handedOut = false

theorem CpuInv.ok {s : CpuSys} (h : CpuInv s) : OneCpu s where
  distinct := fun x hb ha => h.apart x (Core.has_of_current hb) (Core.has_of_current ha)
  carries := h.carries
  stack := h.handedOut

theorem CpuStart.inv {s : CpuSys} (h : CpuStart s) : CpuInv s := by
  have hno : ∀ x, ¬ (s.core .ap).Has x := by
    simp [h.ap, Core.Has, Core.task, Core.leaving]
  constructor
  case carries =>
    intro c x hx _
    cases c with
    | bsp =>
        rw [h.bsp] at hx
        cases hx
        exact h.shell
    | ap => exact absurd (Or.inl hx) (hno x)
  case apart => exact fun x _ => hno x
  case kernel => exact fun x hx => absurd hx (hno x)
  case threads =>
    intro t ht _
    rw [h.alone t ht]
    exact h.user
  case handedOut => exact h.handedOut

/-- The fields the invariant reads are as they were. -/
structure Keeps (ts ts' : Tasks) : Prop where
  used : ∀ u, (ts' u).used = (ts u).used
  isUser : ∀ u, (ts' u).isUser = (ts u).isUser
  isThread : ∀ u, (ts' u).isThread = (ts u).isThread

section Fields
variable {ts ts' ts'' : Tasks}

theorem Keeps.refl (ts : Tasks) : Keeps ts ts := ⟨fun _ => rfl, fun _ => rfl, fun _ => rfl⟩

theorem Keeps.trans (h : Keeps ts ts') (h' : Keeps ts' ts'') : Keeps ts ts'' where
  used := fun u => (h'.used u).trans (h.used u)
  isUser := fun u => (h'.isUser u).trans (h.isUser u)
  isThread := fun u => (h'.isThread u).trans (h.isThread u)

theorem keeps_modify {f : Task → Task} (ts : Tasks) (t : Tid) (hu : ∀ x, (f x).used = x.used)
    (huser : ∀ x, (f x).isUser = x.isUser) (hthread : ∀ x, (f x).isThread = x.isThread) :
    Keeps ts (modify ts t f) where
  used := modify_field Task.used hu ts t
  isUser := modify_field Task.isUser huser ts t
  isThread := modify_field Task.isThread hthread ts t

theorem keeps_setCpu (ts : Tasks) (x : Option Tid) (v : Option Cpu) : Keeps ts (setCpu ts x v) := by
  cases x with
  | none => exact Keeps.refl ts
  | some x =>
      rw [setCpu]
      apply keeps_modify <;> exact fun _ => rfl

theorem setCpu_self (ts : Tasks) (x : Tid) (v : Option Cpu) :
    (setCpu ts (some x) v x).cpuId = v := by
  simp [setCpu]

theorem setCpu_of_ne {x : Option Tid} {u : Tid} (h : x ≠ some u) (ts : Tasks) (v : Option Cpu) :
    setCpu ts x v u = ts u := by
  cases x with
  | none => rfl
  | some x =>
      have hux : u ≠ x := fun hux => h (congrArg some hux.symm)
      simp [setCpu, hux]

theorem keeps_claim (ts : Tasks) (c : Cpu) (old : Option Tid) (next : Tid) :
    Keeps ts (claim ts c old next) :=
  (keeps_setCpu ts old none).trans (keeps_setCpu _ _ _)

theorem claim_of_ne {c : Cpu} {old : Option Tid} {next u : Tid} (hnext : u ≠ next)
    (hold : old ≠ some u) (ts : Tasks) : claim ts c old next u = ts u := by
  rw [claim, setCpu_of_ne, setCpu_of_ne hold]
  exact fun he => hnext (Option.some.inj he).symm

/-- Counting a tick down and filling the ticks up change `ticks` only. -/
theorem keeps_ticks (ts : Tasks) (t : Tid) :
    Keeps ts (modify ts t fun x => { x with ticks := x.ticks - 1 }) ∧
      ∀ u, (modify ts t (fun x => { x with ticks := x.ticks - 1 }) u).cpuId = (ts u).cpuId := by
  refine ⟨keeps_modify ts t (fun _ => rfl) (fun _ => rfl) (fun _ => rfl), ?_⟩
  intro u
  apply modify_field Task.cpuId
  exact fun _ => rfl

theorem resetTicks_field {α : Type*} (p : Task → α) (hp : ∀ x v, p { x with ticks := v } = p x)
    (t : Task) : p (resetTicks t) = p t := by
  unfold resetTicks
  split
  · exact hp t t.priority
  · rfl

theorem keeps_resetTicks (ts : Tasks) (t : Tid) :
    Keeps ts (modify ts t resetTicks) ∧
      ∀ u, (modify ts t resetTicks u).cpuId = (ts u).cpuId := by
  refine ⟨keeps_modify ts t ?_ ?_ ?_, modify_field Task.cpuId ?_ ts t⟩
  · exact resetTicks_field Task.used fun _ _ => rfl
  · exact resetTicks_field Task.isUser fun _ _ => rfl
  · exact resetTicks_field Task.isThread fun _ _ => rfl
  · exact resetTicks_field Task.cpuId fun _ _ => rfl

theorem ageOthers_field {α : Type*} (p : Task → α) (hp : ∀ x v, p { x with ageTicks := v } = p x)
    (ts : Tasks) (current : Tid) (best : Option Tid) (u : Tid) :
    p (ageOthers ts current best u) = p (ts u) := by
  unfold ageOthers
  split
  · exact hp (ts u) _
  · rfl

theorem keeps_ageOthers (ts : Tasks) (current : Tid) (best : Option Tid) :
    Keeps ts (ageOthers ts current best) where
  used := ageOthers_field Task.used (fun _ _ => rfl) ts current best
  isUser := ageOthers_field Task.isUser (fun _ _ => rfl) ts current best
  isThread := ageOthers_field Task.isThread (fun _ _ => rfl) ts current best

end Fields

/-- The loop for the best score chooses an eligible slot. -/
theorem pickBest_eligible {ts : Tasks} {hasAp : Bool} {current next : Tid}
    (h : pickBest ts hasAp current = some next) : Eligible ts hasAp current next := by
  have hloop : ∀ (l : List Tid) (b : Option Tid × Int),
      (∀ i, b.1 = some i → Eligible ts hasAp current i) →
      ∀ i, (l.foldl (bestTurn ts hasAp current) b).1 = some i → Eligible ts hasAp current i := by
    intro l
    induction l with
    | nil => exact fun b hb => hb
    | cons j l ih =>
        intro b hb
        apply ih
        unfold bestTurn
        split
        · next hj =>
          intro i hi
          cases hi
          exact hj.1
        · exact hb
  exact hloop _ (none, -9999) (by simp) next h

/-- The passes of `task_switch_ap` choose a used kernel task that is free or assigned to
the processor. -/
theorem pickAp_spec {ts : Tasks} {current : Option Tid} {next : Tid}
    (h : pickAp ts current = some next) : (ts next).used = true ∧ (ts next).isUser = false ∧
      ((ts next).cpuId = some .ap ∨ (ts next).cpuId = none) := by
  rcases Option.or_eq_some_iff.mp h with hfirst | ⟨-, hsecond⟩
  · have := List.find?_some hfirst
    simp only [Bool.and_eq_true, beq_iff_eq, Bool.not_eq_true'] at this
    exact ⟨this.1.1.1.1, this.1.1.2, Or.inl this.1.2⟩
  · have := List.find?_some hsecond
    simp only [Bool.and_eq_true, beq_iff_eq, Bool.not_eq_true'] at this
    exact ⟨this.1.1.1, this.1.2, Or.inr this.2⟩

section Steps
variable {s s' : CpuSys} {c : Cpu} {t : Tid}

/-- Steps that change nothing the invariant reads. -/
theorem CpuInv.frame (h : CpuInv s) (hk : Keeps s.tasks s'.tasks)
    (hcpu : ∀ c x, (s.core c).task = some x → (s.tasks x).cpuId = some c →
      (s'.tasks x).cpuId = some c)
    (hcore : s'.core = s.core) (hhanded : s'.handedOut = s.handedOut) : CpuInv s' := by
  constructor
  case carries =>
    intro d x hx hu
    rw [hk.used] at hu
    rw [hcore] at hx
    exact hcpu d x hx (h.carries d x hx hu)
  case apart => rw [hcore]; exact h.apart
  case kernel =>
    intro x hx
    rw [hcore] at hx
    rw [hk.used, hk.isUser]
    exact h.kernel x hx
  case threads =>
    intro x
    rw [hk.used, hk.isUser, hk.isThread]
    exact h.threads x
  case handedOut => rw [hhanded]; exact h.handedOut

/-- A processor claims a task that is not on the other one. -/
theorem CpuInv.claim {current : Option Tid} {next : Tid} {ts : Tasks} (h : CpuInv s)
    (hrun : s.core c = ⟨current, .running⟩) (hnext : (s.tasks next).used = true)
    (hother : ∀ d, d ≠ c → ¬ (s.core d).Has next)
    (hkernel : c = .ap → (s.tasks next).isUser = false) (hk : Keeps s.tasks ts)
    (hself : (ts next).cpuId = some c)
    (hkeep : ∀ u, u ≠ next → current ≠ some u → (ts u).cpuId = (s.tasks u).cpuId) :
    CpuInv ({ s with tasks := ts }.setCore c ⟨current, .claimed next⟩) := by
  -- the processor had its current task only, and now has the next one besides
  have hhas : ∀ d x, (({ s with tasks := ts }.setCore c ⟨current, .claimed next⟩).core d).Has x →
      d = c ∧ x = next ∨ (s.core d).Has x := by
    intro d x hx
    by_cases hdc : d = c
    · subst hdc
      rw [CpuSys.setCore_self] at hx
      rcases hx with hx | hx
      · exact Or.inl ⟨rfl, (Option.some.inj hx).symm⟩
      · exact Or.inr (Core.has_of_current (by rw [hrun]; exact hx))
    · rw [CpuSys.setCore_of_ne hdc] at hx
      exact Or.inr hx
  constructor
  case carries =>
    intro d x hx hu
    rw [CpuSys.setCore_tasks] at hu ⊢
    by_cases hdc : d = c
    · subst hdc
      rw [CpuSys.setCore_self] at hx
      cases hx
      exact hself
    · rw [CpuSys.setCore_of_ne hdc] at hx
      have hxn : x ≠ next := by
        rintro rfl
        exact hother d hdc (Or.inl hx)
      have hxc : current ≠ some x := by
        intro hxc
        have hhc : (s.core c).Has x := Core.has_of_current (by rw [hrun]; exact hxc)
        cases d <;> cases c
        · exact hdc rfl
        · exact h.apart x (Or.inl hx) hhc
        · exact h.apart x hhc (Or.inl hx)
        · exact hdc rfl
      rw [hkeep x hxn hxc]
      rw [hk.used] at hu
      exact h.carries d x hx hu
  case apart =>
    intro x hb ha
    rcases hhas _ x hb with ⟨hbc, hxn⟩ | hb' <;> rcases hhas _ x ha with ⟨hac, hxn'⟩ | ha'
    · rw [← hbc] at hac
      cases hac
    · exact hother .ap (by rw [← hbc]; simp) (hxn ▸ ha')
    · exact hother .bsp (by rw [← hac]; simp) (hxn' ▸ hb')
    · exact h.apart x hb' ha'
  case kernel =>
    intro x hx
    rw [CpuSys.setCore_tasks, hk.used, hk.isUser]
    rcases hhas _ x hx with ⟨hac, rfl⟩ | hx
    · exact ⟨hnext, hkernel hac.symm⟩
    · exact h.kernel x hx
  case threads =>
    intro x
    rw [CpuSys.setCore_tasks, hk.used, hk.isUser, hk.isThread]
    exact h.threads x
  case handedOut => exact h.handedOut

/-- A processor goes on with its switch and is on no task it was not on. -/
theorem CpuInv.move {k : Core} (h : CpuInv s) (htask : k.task = (s.core c).task)
    (hleaving : ∀ x, k.leaving = some x → (s.core c).Has x) : CpuInv (s.setCore c k) := by
  have htasks : ∀ d, ((s.setCore c k).core d).task = (s.core d).task := by
    intro d
    by_cases hdc : d = c
    · subst hdc
      rw [CpuSys.setCore_self, htask]
    · rw [CpuSys.setCore_of_ne hdc]
  have hhas : ∀ d x, ((s.setCore c k).core d).Has x → (s.core d).Has x := by
    rintro d x (hx | hx)
    · rw [htasks] at hx
      exact Or.inl hx
    · by_cases hdc : d = c
      · subst hdc
        rw [CpuSys.setCore_self] at hx
        exact hleaving x hx
      · rw [CpuSys.setCore_of_ne hdc] at hx
        exact Or.inr hx
  constructor
  case carries =>
    intro d x hx
    rw [htasks] at hx
    exact h.carries d x hx
  case apart => exact fun x hb ha => h.apart x (hhas _ x hb) (hhas _ x ha)
  case kernel => exact fun x hx => h.kernel x (hhas _ x hx)
  case threads => exact h.threads
  case handedOut => exact h.handedOut

theorem commit_inv (h : CpuInv s) : CpuInv (s.commit c) := by
  unfold CpuSys.commit
  split
  · next next hp =>
    refine h.move ?_ ?_
    · rw [Core.task, Core.task, hp]
    · exact fun x hx => Core.has_of_current hx
  · exact h

theorem land_inv (h : CpuInv s) : CpuInv (s.land c) := by
  unfold CpuSys.land
  split
  · next old hp =>
    refine h.move ?_ ?_
    · rw [Core.task, Core.task, hp]
    · rintro x hx
      cases hx
  · exact h

theorem taskSwitch_inv (h : CpuInv s) (hrun : (s.core .bsp).phase = .running)
    (hg : s.hasAp = true ∨ (s.core .ap).leaving = none) : CpuInv s.taskSwitch := by
  unfold CpuSys.taskSwitch
  split
  · exact h
  · next current hcurrent =>
    split
    · exact h
    · split
      · obtain ⟨hk, hcpu⟩ := keeps_ticks s.tasks current
        exact h.frame hk (fun _ x _ hx => (hcpu x).trans hx) rfl rfl
      · obtain ⟨hk, hcpu⟩ := keeps_resetTicks s.tasks current
        dsimp only
        have hk' := hk.trans (keeps_ageOthers (modify s.tasks current resetTicks) current
          (pickBest (modify s.tasks current resetTicks) s.hasAp current))
        have hcpu' : ∀ u, (ageOthers (modify s.tasks current resetTicks) current
            (pickBest (modify s.tasks current resetTicks) s.hasAp current) u).cpuId =
            (s.tasks u).cpuId :=
          fun u => (ageOthers_field Task.cpuId (fun _ _ => rfl) _ _ _ u).trans (hcpu u)
        split
        · exact h.frame hk' (fun _ x _ hx => (hcpu' x).trans hx) rfl rfl
        · next next hpick =>
          obtain ⟨⟨hu, -, hfree, hne⟩, hap⟩ := pickBest_eligible hpick
          split
          · refine h.claim ?_ ((hk.used next).symm.trans hu) ?_ (by simp) ?_ ?_ ?_
            · rw [← hcurrent, ← hrun]
            · rintro d hd (hx | hx)
              · -- what the other processor runs carries its number
                have := h.carries d next hx ((hk.used next).symm.trans hu)
                rw [← hcpu next, hfree] at this
                cases this
              · cases d with
                | bsp => exact hd rfl
                | ap =>
                    have huser := (h.kernel next (Or.inr hx)).2
                    rcases hg with hg | hg
                    · exact hap ⟨hg, (hk.isUser next).trans huser⟩
                    · rw [hg] at hx
                      cases hx
            · refine (hk'.trans (keeps_claim _ _ _ _)).trans (keeps_modify _ _ ?_ ?_ ?_) <;>
                exact fun _ => rfl
            · rw [modify_self]
              exact setCpu_self _ next _
            · intro u hun huc
              rw [modify_of_ne hun, claim_of_ne hun huc]
              exact hcpu' u
          · exact h.frame hk' (fun _ x _ hx => (hcpu' x).trans hx) rfl rfl

theorem taskSwitchAp_inv (h : CpuInv s) (hrun : (s.core .ap).phase = .running)
    (hg : ∀ x, (s.core .bsp).leaving = some x → (s.tasks x).used = true →
      (s.tasks x).isUser = true) : CpuInv s.taskSwitchAp := by
  have hcore : s.core .ap = ⟨(s.core .ap).current, .running⟩ := by rw [← hrun]
  unfold CpuSys.taskSwitchAp
  dsimp only
  split
  · exact h
  · split
    · split
      · exact h
      · next current hcurrent =>
        obtain ⟨hk, hcpu⟩ := keeps_ticks s.tasks current
        exact h.frame hk (fun _ x _ hx => (hcpu x).trans hx) rfl rfl
    · generalize hts : (match (s.core .ap).current with
        | none => s.tasks
        | some c => modify s.tasks c resetTicks) = ts
      have hkeeps : Keeps s.tasks ts ∧ ∀ u, (ts u).cpuId = (s.tasks u).cpuId := by
        rw [← hts]
        split
        · exact ⟨Keeps.refl _, fun _ => rfl⟩
        · next current hcurrent => exact keeps_resetTicks s.tasks current
      obtain ⟨hk, hcpu⟩ := hkeeps
      generalize hheld : ((s.core .ap).current.filter fun c => (ts c).used) = held
      have hof : ∀ x, held = some x → (s.core .ap).current = some x := by
        intro x hx
        rw [← hheld, Option.filter_eq_some_iff] at hx
        exact hx.1
      have hreclaim : CpuInv { s with tasks := setCpu ts held (some .ap) } := by
        refine h.frame (hk.trans (keeps_setCpu ts held _)) ?_ rfl rfl
        intro c x hx hc
        change (setCpu ts held (some .ap) x).cpuId = some c
        by_cases hxh : held = some x
        · -- a task the processor has is on no other one
          cases c with
          | ap => rw [hxh, setCpu_self]
          | bsp => exact absurd (Core.has_of_current (hof x hxh)) (h.apart x (Or.inl hx))
        · rw [setCpu_of_ne hxh, hcpu x, hc]
      split
      · exact hreclaim
      · next next hpick =>
        split
        · exact hreclaim
        · obtain ⟨hu, huser, hfree⟩ := pickAp_spec hpick
          rw [hk.used] at hu
          rw [hk.isUser] at huser
          refine h.claim hcore hu ?_ (fun _ => huser) (hk.trans (keeps_claim _ _ _ _)) ?_ ?_
          · rintro d hd (hx | hx)
            · cases d with
              | ap => exact hd rfl
              | bsp =>
                  have hc := h.carries .bsp next hx hu
                  rw [hcpu next, hc] at hfree
                  simp at hfree
            · cases d with
              | ap => exact hd rfl
              | bsp =>
                  have := hg next hx hu
                  rw [huser] at this
                  cases this
          · exact setCpu_self _ next _
          · intro u hun huc
            rw [claim_of_ne hun fun hh => huc (hof u hh)]
            exact hcpu u

/-- A slot that is on no processor is filled. -/
theorem create_inv (h : CpuInv s) (k : Creation)
    (hg : ∀ x, (s.core .bsp).Has x → (s.tasks x).used = true) : CpuInv (s.create k) := by
  have hcount : ∀ n, CpuInv { s with count := n } := by
    intro n
    exact h.frame (Keeps.refl _) (fun _ _ _ hx => hx) rfl rfl
  unfold CpuSys.create
  split
  · exact h
  · dsimp only
    split
    · exact hcount _
    · next id hslot =>
      obtain ⟨-, hfree⟩ := Creation.slot_spec hslot
      have hnot : ∀ c, ¬ (s.core c).Has id := by
        intro c hc
        have hu : (s.tasks id).used = true := by
          cases c with
          | bsp => exact hg id hc
          | ap => exact (h.kernel id hc).1
        rw [hfree] at hu
        cases hu
      have hne : ∀ {c x}, (s.core c).Has x → x ≠ id := by
        rintro c x hx rfl
        exact hnot c hx
      constructor
      case carries =>
        intro c x hx hu
        change (modify s.tasks id _ x).cpuId = _
        change (modify s.tasks id _ x).used = _ at hu
        rw [modify_of_ne (hne (Or.inl hx))] at hu ⊢
        exact h.carries c x hx hu
      case apart => exact h.apart
      case kernel =>
        intro x hx
        change (modify s.tasks id _ x).used = _ ∧ (modify s.tasks id _ x).isUser = _
        rw [modify_of_ne (hne hx)]
        exact h.kernel x hx
      case threads =>
        intro x hu hthread
        change (modify s.tasks id _ x).isThread = _ at hthread
        change (modify s.tasks id _ x).used = _ at hu
        change (modify s.tasks id _ x).isUser = _
        by_cases hx : x = id
        · subst hx
          rw [modify_self] at hthread ⊢
          cases k with
          | thread parent => rfl
          | kernel => cases hthread
          | user => cases hthread
          | fork => cases hthread
        · rw [modify_of_ne hx] at hu hthread ⊢
          exact h.threads x hu hthread
      case handedOut =>
        have hoff : ∀ n, ¬ CpuSys.OnStack { s with count := n } id := by
          rintro n (hx | hx)
          · exact hnot _ (Core.has_of_stack hx)
          · exact hnot _ (Core.has_of_stack hx)
        change (s.handedOut || decide _) = false
        rw [decide_eq_false (hoff _), h.handedOut]
        rfl

/-- Tasks end that the application processor does not have. -/
theorem CpuInv.ended {ts : Tasks} {gone : Tid → Prop} {n : Nat} (h : CpuInv s)
    (hused : ∀ u, (ts u).used = true → (s.tasks u).used = true ∧ ¬ gone u)
    (hkept : ∀ u, ¬ gone u → ∃ st, ts u = { s.tasks u with status := st })
    (hap : ∀ x, (s.core .ap).Has x → ¬ gone x) :
    CpuInv { s with tasks := ts, count := n } := by
  constructor
  case carries =>
    intro c x hx hu
    obtain ⟨hu, hg⟩ := hused x hu
    obtain ⟨st, hst⟩ := hkept x hg
    change (ts x).cpuId = _
    rw [hst]
    exact h.carries c x hx hu
  case apart => exact h.apart
  case kernel =>
    intro x hx
    obtain ⟨st, hst⟩ := hkept x (hap x hx)
    change (ts x).used = _ ∧ (ts x).isUser = _
    rw [hst]
    exact h.kernel x hx
  case threads =>
    intro x hu hthread
    obtain ⟨hu, hg⟩ := hused x hu
    obtain ⟨st, hst⟩ := hkept x hg
    change (ts x).isThread = _ at hthread
    change (ts x).isUser = _
    rw [hst] at hthread ⊢
    exact h.threads x hu hthread
  case handedOut => exact h.handedOut

theorem exit_cpuInv (h : CpuInv s) : CpuInv s.exit := by
  unfold CpuSys.exit
  split
  · exact h
  · next current hcurrent =>
    apply h.ended
    · exact fun u hu => (taskExitCode_used s.tasks current u).mp hu
    · exact fun u hu => taskExitCode_of_alive hu
    · rintro x hx (hxc | ⟨-, hr⟩)
      · exact h.apart x (Core.has_of_current (hxc ▸ hcurrent)) hx
      · obtain ⟨hu, huser⟩ := h.kernel x hx
        rw [h.threads x hu hr.2.2.1] at huser
        cases huser

theorem kill_cpuInv (h : CpuInv s) {id : Tid}
    (hg : id ≠ 0 → (s.tasks id).used = true → ∀ c, ¬ (s.core c).Has id) :
    CpuInv (s.kill id) := by
  unfold CpuSys.kill
  split
  · exact h
  · next hid =>
    simp only [not_or, Bool.not_eq_false] at hid
    apply h.ended
    · intro u hu
      have hne : u ≠ id := by
        rintro rfl
        rw [modify_self] at hu
        cases hu
      rw [modify_of_ne hne] at hu
      exact ⟨hu, hne⟩
    · exact fun u hu => ⟨(s.tasks u).status, modify_of_ne hu _⟩
    · rintro x hx rfl
      exact hg hid.1 hid.2 _ hx

theorem cpuStep_inv (h : CpuInv s) {op : CpuOp} (hg : cpuGuard s op) : CpuInv (cpuStep s op) := by
  cases op with
  | tick =>
      simp only [cpuStep]
      split
      · next hrun => exact taskSwitch_inv h hrun hg
      · exact h
  | tickAp =>
      simp only [cpuStep]
      split
      · next hrun => exact taskSwitchAp_inv h hrun hg
      · exact h
  | commit c => exact commit_inv h
  | land c => exact land_inv h
  | setHasAp v => exact h.frame (Keeps.refl _) (fun _ _ _ hx => hx) rfl rfl
  | createKernel dir => exact create_inv h _ hg
  | createUser dir => exact create_inv h _ hg
  | createThread parent => exact create_inv h _ hg
  | fork parent dir => exact create_inv h _ hg
  | exit => exact exit_cpuInv h
  | kill id => exact kill_cpuInv h hg
  | block =>
      simp only [cpuStep, CpuSys.block]
      split
      · exact h
      · next current hcurrent =>
        have hfield {α : Type} (p : Task → α) (hp : ∀ x v, p { x with status := v } = p x) :=
          taskBlock_field p hp s.tasks current
        refine h.frame ⟨hfield _ ?_, hfield _ ?_, hfield _ ?_⟩ ?_ rfl rfl
        · exact fun _ _ => rfl
        · exact fun _ _ => rfl
        · exact fun _ _ => rfl
        · exact fun _ x _ hx => (hfield Task.cpuId (fun _ _ => rfl) x).trans hx
  | unblock id =>
      have hfield {α : Type} (p : Task → α) (hp : ∀ x v, p { x with status := v } = p x) :=
        taskUnblock_field p hp s.tasks id
      refine h.frame ⟨hfield _ ?_, hfield _ ?_, hfield _ ?_⟩ ?_ rfl rfl
      · exact fun _ _ => rfl
      · exact fun _ _ => rfl
      · exact fun _ _ => rfl
      · exact fun _ x _ hx => (hfield Task.cpuId (fun _ _ => rfl) x).trans hx

end Steps

/-- In every run that meets the condition, each processor has its own task. -/
theorem one_cpu {s : CpuSys} (r : Reach CpuStart cpuGuard cpuStep s) : OneCpu s := by
  apply CpuInv.ok
  exact r.invariant (fun _ h => h.inv) fun _ _ h hg => cpuStep_inv h hg

instance (s : CpuSys) (op : CpuOp) : Decidable (cpuGuard s op) :=
  match op with
  | .tick => inferInstanceAs (Decidable (s.hasAp = true ∨ (s.core .ap).leaving = none))
  | .tickAp =>
      inferInstanceAs (Decidable (∀ x, (s.core .bsp).leaving = some x →
        (s.tasks x).used = true → (s.tasks x).isUser = true))
  | .createKernel _ | .createUser _ | .createThread _ | .fork .. =>
      inferInstanceAs (Decidable (∀ x, (s.core .bsp).Has x → (s.tasks x).used = true))
  | .kill id =>
      have : Decidable (∀ c, ¬ (s.core c).Has id) :=
        decidable_of_iff (¬ (s.core .bsp).Has id ∧ ¬ (s.core .ap).Has id)
          ⟨fun h c => by cases c; exacts [h.1, h.2], fun h => ⟨h .bsp, h .ap⟩⟩
      inferInstanceAs (Decidable (id ≠ 0 → (s.tasks id).used = true → ∀ c, ¬ (s.core c).Has id))
  | .commit _ | .land _ | .setHasAp _ | .exit | .block | .unblock _ => isTrue trivial

/-- The table behind `task_set_main`. -/
def shellOnBsp : CpuSys where
  tasks := fun t =>
    if t = 0 then { Task.empty with used := true, isUser := true, priority := 3, ticks := 3 }
    else Task.empty
  count := 1
  hasAp := false
  core := fun
    | .bsp => ⟨some 0, .running⟩
    | .ap => ⟨none, .running⟩
  handedOut := false

theorem shellOnBsp_start : CpuStart shellOnBsp where
  shell := rfl
  alone := by decide
  user := rfl
  bsp := rfl
  ap := rfl
  handedOut := rfl

/-- Both processors switch, a process exits, and its slot is filled again. -/
def bothSwitch : List CpuOp :=
  [.setHasAp true, .createKernel 1, .tickAp, .commit .ap, .land .ap, .createUser 2, .tick, .tick,
    .tick, .commit .bsp, .createKernel 3, .land .bsp, .tickAp, .exit, .tick, .commit .bsp,
    .land .bsp, .createUser 4, .kill 2]

theorem one_cpu_both_switch : OneCpu (bothSwitch.foldl cpuStep shellOnBsp) :=
  one_cpu ((Reach.start shellOnBsp_start).guarded (by decide +kernel))

/-- The task of the application processor is killed and its slot filled again. -/
def killOnAp : List CpuOp :=
  [.setHasAp true, .createKernel 1, .tickAp, .commit .ap, .land .ap, .kill 1, .createUser 2]

theorem killed_task_keeps_stack : ¬ ∀ s, Reach CpuStart anyInput cpuStep s → OneCpu s := by
  intro h
  have hs := (h _ ((Reach.start shellOnBsp_start).foldl killOnAp)).stack
  revert hs
  decide +kernel

end OriaOS.Sched
