import Mathlib

/-!
# The task table

The slots of `task.c` with the fields that scheduling, blocking, signals and
termination read and write, and the functions on one slot that the later modules
take as steps. A slot number of `-1` is `none`; so is the null `page_dir`. Address
spaces are named by the order of their creation, so that a name is never reused.
-/

namespace OriaOS.Sched

/-- `MAX_TASKS`. -/
abbrev maxTasks : Nat := 32

scoped instance : NeZero maxTasks := ⟨by decide⟩

abbrev Tid := Fin maxTasks

inductive Status where
  | running
  | blocked
  | sleeping
  deriving DecidableEq, Repr

/-- The boot processor and the one application processor. -/
inductive Cpu where
  | bsp
  | ap
  deriving DecidableEq, Repr

structure Task where
  used : Bool
  status : Status
  pageDir : Option Nat
  priority : Nat
  ticks : Nat
  cpuId : Option Cpu
  isUser : Bool
  isThread : Bool
  parentTid : Option Tid
  waiter : Option Tid
  pendingSignals : UInt32
  signalMask : UInt32
  nice : Int
  ageTicks : UInt32
  itimerInterval : UInt32
  itimerRemaining : UInt32
  deriving DecidableEq

abbrev Tasks := Tid → Task

/-- A slot as it lies in zeroed memory before `task_init`. -/
def Task.empty : Task where
  used := false
  status := .running
  pageDir := none
  priority := 0
  ticks := 0
  cpuId := some .bsp
  isUser := false
  isThread := false
  parentTid := some 0
  waiter := some 0
  pendingSignals := 0
  signalMask := 0
  nice := 0
  ageTicks := 0
  itimerInterval := 0
  itimerRemaining := 0

/-- Apply a change to one slot. -/
def modify (ts : Tasks) (t : Tid) (f : Task → Task) : Tasks :=
  Function.update ts t (f (ts t))

@[simp] theorem modify_self (ts : Tasks) (t : Tid) (f : Task → Task) :
    modify ts t f t = f (ts t) := by
  simp [modify]

@[simp] theorem modify_of_ne {ts : Tasks} {t u : Tid} (h : u ≠ t) (f : Task → Task) :
    modify ts t f u = ts u := by
  simp [modify, h]

theorem modify_apply (ts : Tasks) (t u : Tid) (f : Task → Task) :
    modify ts t f u = if u = t then f (ts t) else ts u := by
  by_cases h : u = t
  · subst h
    simp
  · simp [h]

/-- A change that keeps a field of the slot keeps it in the whole table. -/
theorem modify_field {α : Type*} (p : Task → α) {f : Task → Task} (hf : ∀ x, p (f x) = p x)
    (ts : Tasks) (t u : Tid) : p (modify ts t f u) = p (ts u) := by
  rw [modify_apply]
  split
  · next h => rw [hf, h]
  · rfl

/-! ## Blocking and waking -/

/-- The store of `task_block`; the task then loops until its status changes. -/
def taskBlock (ts : Tasks) (current : Tid) : Tasks :=
  modify ts current fun t => { t with status := .blocked }

/-- The test and store of `task_unblock`. -/
def unblockSlot (t : Task) : Task :=
  if t.used = true ∧ t.status = .blocked then { t with status := .running } else t

def taskUnblock (ts : Tasks) (id : Tid) : Tasks := modify ts id unblockSlot

/-- The task is used and not blocked or asleep: the scheduler may run it. -/
def Runnable (ts : Tasks) (t : Tid) : Prop := (ts t).used = true ∧ (ts t).status = .running

instance (ts : Tasks) (t : Tid) : Decidable (Runnable ts t) :=
  inferInstanceAs (Decidable (_ ∧ _))

/-- Blocking changes the status only. -/
theorem taskBlock_field {α : Type*} (p : Task → α) (hp : ∀ x v, p { x with status := v } = p x)
    (ts : Tasks) (c u : Tid) : p (taskBlock ts c u) = p (ts u) :=
  modify_field p (fun x => hp x .blocked) ts c u

@[simp] theorem taskBlock_used (ts : Tasks) (c u : Tid) :
    (taskBlock ts c u).used = (ts u).used := taskBlock_field Task.used (fun _ _ => rfl) ts c u

theorem taskBlock_status (ts : Tasks) (c u : Tid) :
    (taskBlock ts c u).status = if u = c then .blocked else (ts u).status := by
  rw [taskBlock, modify_apply]
  split <;> rfl

/-- Waking changes the status only. -/
theorem unblockSlot_field {α : Type*} (p : Task → α) (hp : ∀ x v, p { x with status := v } = p x)
    (t : Task) : p (unblockSlot t) = p t := by
  unfold unblockSlot
  split
  · exact hp t .running
  · rfl

theorem taskUnblock_field {α : Type*} (p : Task → α) (hp : ∀ x v, p { x with status := v } = p x)
    (ts : Tasks) (id u : Tid) : p (taskUnblock ts id u) = p (ts u) :=
  modify_field p (unblockSlot_field p hp) ts id u

@[simp] theorem taskUnblock_used (ts : Tasks) (id u : Tid) :
    (taskUnblock ts id u).used = (ts u).used := taskUnblock_field Task.used (fun _ _ => rfl) ts id u

theorem taskUnblock_of_ne {ts : Tasks} {id u : Tid} (h : u ≠ id) :
    taskUnblock ts id u = ts u := modify_of_ne h _

/-- A used task that was blocked runs again; no task is blocked by waking another. -/
theorem taskUnblock_status (ts : Tasks) (id u : Tid) :
    (taskUnblock ts id u).status =
      if u = id ∧ (ts id).used = true ∧ (ts id).status = .blocked then .running
      else (ts u).status := by
  by_cases hu : u = id
  · subst hu
    rw [taskUnblock, modify_self, unblockSlot]
    split <;> simp_all
  · rw [taskUnblock_of_ne hu, if_neg (fun h => hu h.1)]

/-! ## Signals and interval timers -/

def sigint : Nat := 2
def sigkill : Nat := 9
def sigalrm : Nat := 14
def sigterm : Nat := 15

def sigBit (sig : Nat) : UInt32 := 1 <<< UInt32.ofNat sig

/-- The stores of `task_send_signal` for a slot other than the shell's. -/
def signalSlot (sig : Nat) (t : Task) : Task :=
  if t.used = false ∨ sig = 0 ∨ 32 ≤ sig then t
  else
    let t := { t with pendingSignals := t.pendingSignals ||| sigBit sig }
    if t.status ≠ .running then unblockSlot t else t

def taskSendSignal (ts : Tasks) (tid : Tid) (sig : Nat) : Tasks :=
  if tid = 0 then ts else modify ts tid (signalSlot sig)

/-- The signals `task_check_signals` acts on: those that terminate and are not
masked, and `SIGKILL` in any case. -/
def deliverable (t : Task) : UInt32 :=
  let sigs := t.pendingSignals &&& (sigBit sigint ||| sigBit sigkill ||| sigBit sigterm)
  (sigs &&& ~~~ t.signalMask) ||| (sigs &&& sigBit sigkill)

/-- `task_check_signals` ends the task. -/
def Terminating (t : Task) : Prop := t.isUser = true ∧ deliverable t ≠ 0

instance (t : Task) : Decidable (Terminating t) := inferInstanceAs (Decidable (_ ∧ _))

/-- One slot's turn in `task_itimer_tick`. -/
def itimerSlot (i : Tid) (t : Task) : Task :=
  if t.used = false ∨ t.isUser = false ∨ t.itimerInterval = 0 then t
  else if t.itimerRemaining = 0 then t
  else
    let t := { t with itimerRemaining := t.itimerRemaining - 1 }
    if t.itimerRemaining = 0 then
      let t := if i = 0 then t else signalSlot sigalrm t
      { t with itimerRemaining := t.itimerInterval }
    else t

/-- Each turn of the loop touches its own slot only. -/
def taskItimerTick (ts : Tasks) : Tasks := fun i => itimerSlot i (ts i)

/-- The timer of the slot runs out at the next tick. -/
def TimerDue (t : Task) : Prop :=
  t.used = true ∧ t.isUser = true ∧ t.itimerInterval ≠ 0 ∧ t.itimerRemaining = 1

instance (t : Task) : Decidable (TimerDue t) := inferInstanceAs (Decidable (_ ∧ _ ∧ _ ∧ _))

def taskSetItimer (ts : Tasks) (tid : Tid) (ms : UInt32) : Tasks :=
  if (ts tid).used then
    modify ts tid fun t => { t with itimerInterval := ms, itimerRemaining := ms }
  else ts

theorem taskSetItimer_field {α : Type*} (p : Task → α)
    (hp : ∀ x v w, p { x with itimerInterval := v, itimerRemaining := w } = p x) (ts : Tasks)
    (tid : Tid) (ms : UInt32) (u : Tid) : p (taskSetItimer ts tid ms u) = p (ts u) := by
  unfold taskSetItimer
  split
  · exact modify_field p (fun x => hp x ms ms) ts tid u
  · rfl

def taskSetSignalMask (ts : Tasks) (tid : Tid) (mask : UInt32) : Tasks :=
  if (ts tid).used then
    modify ts tid fun t => { t with signalMask := mask &&& ~~~ sigBit sigkill }
  else ts

theorem taskSetSignalMask_field {α : Type*} (p : Task → α)
    (hp : ∀ x v, p { x with signalMask := v } = p x) (ts : Tasks) (tid : Tid) (mask : UInt32)
    (u : Tid) : p (taskSetSignalMask ts tid mask u) = p (ts u) := by
  unfold taskSetSignalMask
  split
  · exact modify_field p (fun x => hp x (mask &&& ~~~ sigBit sigkill)) ts tid u
  · rfl

/-- A signal changes the status and the pending signals only. -/
theorem signalSlot_field {α : Type*} (p : Task → α)
    (hpending : ∀ x v, p { x with pendingSignals := v } = p x)
    (hstatus : ∀ x v, p { x with status := v } = p x) (sig : Nat) (t : Task) :
    p (signalSlot sig t) = p t := by
  have hset := hpending t (t.pendingSignals ||| sigBit sig)
  unfold signalSlot
  split
  · rfl
  · dsimp only
    split
    · rw [unblockSlot_field p hstatus, hset]
    · exact hset

theorem signalSlot_status {sig : Nat} {t : Task} (h : t.status ≠ .blocked) :
    (signalSlot sig t).status = t.status := by
  unfold signalSlot unblockSlot
  split
  · rfl
  · dsimp only
    split
    · rw [if_neg fun hb => h hb.2]
    · rfl

theorem taskSendSignal_of_ne {ts : Tasks} {tid u : Tid} (h : u ≠ tid) (sig : Nat) :
    taskSendSignal ts tid sig u = ts u := by
  unfold taskSendSignal
  split
  · rfl
  · exact modify_of_ne h _

theorem taskSendSignal_field {α : Type*} (p : Task → α)
    (hpending : ∀ x v, p { x with pendingSignals := v } = p x)
    (hstatus : ∀ x v, p { x with status := v } = p x) (ts : Tasks) (tid : Tid) (sig : Nat)
    (u : Tid) : p (taskSendSignal ts tid sig u) = p (ts u) := by
  unfold taskSendSignal
  split
  · rfl
  · exact modify_field p (signalSlot_field p hpending hstatus sig) ts tid u

@[simp] theorem taskSendSignal_used (ts : Tasks) (tid : Tid) (sig : Nat) (u : Tid) :
    (taskSendSignal ts tid sig u).used = (ts u).used :=
  taskSendSignal_field Task.used (fun _ _ => rfl) (fun _ _ => rfl) ts tid sig u

/-- A signal leaves the status of a task that is not blocked. -/
theorem taskSendSignal_status {ts : Tasks} {tid u : Tid} {sig : Nat}
    (h : (ts tid).status ≠ .blocked ∨ u ≠ tid) :
    (taskSendSignal ts tid sig u).status = (ts u).status := by
  by_cases hu : u = tid
  · subst hu
    unfold taskSendSignal
    split
    · rfl
    · rw [modify_self]
      exact signalSlot_status (h.resolve_right fun hne => hne rfl)
  · rw [taskSendSignal_of_ne hu]

/-- A tick changes the status, the pending signals and the timer only. -/
theorem taskItimerTick_field {α : Type*} (p : Task → α)
    (hpending : ∀ x v, p { x with pendingSignals := v } = p x)
    (hstatus : ∀ x v, p { x with status := v } = p x)
    (htimer : ∀ x v, p { x with itimerRemaining := v } = p x) (ts : Tasks) (u : Tid) :
    p (taskItimerTick ts u) = p (ts u) := by
  have hset := htimer (ts u) ((ts u).itimerRemaining - 1)
  unfold taskItimerTick itimerSlot
  split
  · rfl
  · split
    · rfl
    · dsimp only
      split
      · split
        · rw [htimer, hset]
        · rw [htimer, signalSlot_field p hpending hstatus, hset]
      · exact hset

/-- A tick leaves the status of a task that is not blocked or whose timer does not
run out. -/
theorem taskItimerTick_status {ts : Tasks} {u : Tid}
    (h : (ts u).status ≠ .blocked ∨ ¬ TimerDue (ts u)) :
    (taskItimerTick ts u).status = (ts u).status := by
  unfold taskItimerTick itimerSlot
  split
  · rfl
  · next hon =>
    split
    · rfl
    · dsimp only
      split
      · next hzero =>
        split
        · rfl
        · change (signalSlot sigalrm _).status = _
          rw [signalSlot_status]
          rcases h with h | h
          · exact h
          · refine absurd ⟨?_, ?_, ?_, ?_⟩ h
            · by_contra hu
              exact hon (Or.inl (by simpa using hu))
            · by_contra hu
              exact hon (Or.inr (Or.inl (by simpa using hu)))
            · exact fun hi => hon (Or.inr (Or.inr hi))
            · have := sub_eq_zero.mp hzero
              exact this
      · rfl

/-! ## Creating and ending -/

/-- The scan of `task_create_*` for a free slot behind the shell's. -/
def freeSlot (ts : Tasks) : Option Tid :=
  (List.finRange maxTasks).find? fun t => t ≠ 0 && !(ts t).used

theorem freeSlot_spec {ts : Tasks} {id : Tid} (h : freeSlot ts = some id) :
    id ≠ 0 ∧ (ts id).used = false := by
  have := List.find?_some h
  simpa using this

def taskInitCommon (t : Task) : Task :=
  { t with
    used := true
    status := .running
    waiter := none
    itimerInterval := 0
    itimerRemaining := 0
    signalMask := 0 }

/-- The slot `task_create` fills; kernel tasks go to the application processor
once there is one. -/
def initKernel (hasAp : Bool) (dir : Nat) (t : Task) : Task :=
  { taskInitCommon t with
    priority := 1
    ticks := 1
    cpuId := if hasAp then some .ap else none
    isUser := false
    isThread := false
    parentTid := none
    pageDir := some dir }

/-- The slot `task_create_user` fills. -/
def initUser (dir : Nat) (t : Task) : Task :=
  { taskInitCommon t with
    pageDir := some dir
    priority := 2
    ticks := 2
    cpuId := none
    isUser := true
    isThread := false
    parentTid := none }

/-- The slot `task_create_thread` fills. -/
def initThread (ts : Tasks) (parent : Tid) (t : Task) : Task :=
  { taskInitCommon t with
    pageDir := (ts parent).pageDir
    priority := 2
    ticks := 2
    cpuId := none
    isUser := true
    isThread := true
    parentTid := some parent }

/-- The slot `task_create_fork` fills, with the address space set behind it. -/
def initFork (ts : Tasks) (parent : Tid) (dir : Nat) (_ : Task) : Task :=
  { ts parent with
    used := true
    status := .running
    cpuId := none
    waiter := none
    isThread := false
    parentTid := none
    pageDir := some dir }

/-- The stores with which `task_exit_code` gives its slot up. -/
def clearSlot (t : Task) : Task :=
  { t with
    used := false
    cpuId := none
    pageDir := none
    waiter := none
    isThread := false
    pendingSignals := 0 }

/-- The stores with which an exiting process takes a thread down. -/
def reapSlot (t : Task) : Task := { t with used := false, cpuId := none }

/-- The stores of `task_kill`. -/
def killSlot (t : Task) : Task := { t with used := false, pageDir := none }

def wakeWaiter (ts : Tasks) : Option Tid → Tasks
  | none => ts
  | some w => taskUnblock ts w

/-- The slot is a thread that an exiting process takes down. -/
def Reaps (tid i : Tid) (t : Task) : Prop :=
  i ≠ 0 ∧ t.used = true ∧ t.isThread = true ∧ t.parentTid = some tid

instance (tid i : Tid) (t : Task) : Decidable (Reaps tid i t) :=
  inferInstanceAs (Decidable (_ ∧ _ ∧ _ ∧ _))

/-- One turn of the loop over the threads of an exiting process. -/
def reapTurn (tid : Tid) (ts : Tasks) (i : Tid) : Tasks :=
  if Reaps tid i (ts i) then wakeWaiter (modify ts i reapSlot) (ts i).waiter else ts

/-- `task_exit_code` as a whole: the threads of a process, the own slot, the waiter. -/
def taskExitCode (ts : Tasks) (tid : Tid) : Tasks :=
  let ended :=
    if (ts tid).isThread then ts else (List.finRange maxTasks).foldl (reapTurn tid) ts
  wakeWaiter (modify ended tid clearSlot) (ts tid).waiter

/-- The task ends when the first one exits. -/
def EndsWith (ts : Tasks) (tid u : Tid) : Prop :=
  u = tid ∨ (ts tid).isThread = false ∧ Reaps tid u (ts u)

instance (ts : Tasks) (tid u : Tid) : Decidable (EndsWith ts tid u) :=
  inferInstanceAs (Decidable (_ ∨ _ ∧ _))

/-- Waking a waiter changes statuses only. -/
theorem wakeWaiter_eq (ts : Tasks) (w : Option Tid) (u : Tid) :
    ∃ st, wakeWaiter ts w u = { ts u with status := st } := by
  cases w with
  | none => exact ⟨(ts u).status, rfl⟩
  | some w =>
      by_cases hu : u = w
      · rw [wakeWaiter, taskUnblock, hu, modify_self, unblockSlot]
        split
        · exact ⟨.running, rfl⟩
        · exact ⟨(ts w).status, rfl⟩
      · exact ⟨(ts u).status, by rw [wakeWaiter, taskUnblock_of_ne hu]⟩

/-- The slot behind the loop over the threads, up to its status. -/
def reaped (tid u : Tid) (t : Task) : Task := if Reaps tid u t then reapSlot t else t

theorem reapTurn_eq (tid : Tid) (ts : Tasks) (i u : Tid) :
    ∃ st, reapTurn tid ts i u = { (if u = i then reaped tid u (ts u) else ts u) with status := st } := by
  unfold reapTurn reaped
  by_cases hr : Reaps tid i (ts i)
  · obtain ⟨st, hst⟩ := wakeWaiter_eq (modify ts i reapSlot) (ts i).waiter u
    refine ⟨st, ?_⟩
    rw [if_pos hr, hst, modify_apply]
    by_cases hu : u = i
    · subst hu
      simp [hr]
    · simp [hu]
  · refine ⟨(ts u).status, ?_⟩
    rw [if_neg hr]
    by_cases hu : u = i
    · subst hu
      simp [hr]
    · simp [hu]

/-- The loop takes down the threads of the process and wakes their waiters. -/
theorem foldl_reapTurn (tid : Tid) {l : List Tid} (hl : l.Nodup) (ts : Tasks) (u : Tid) :
    ∃ st, l.foldl (reapTurn tid) ts u =
      { (if u ∈ l then reaped tid u (ts u) else ts u) with status := st } := by
  induction l generalizing ts with
  | nil => exact ⟨(ts u).status, by simp⟩
  | cons i l ih =>
      obtain ⟨hi, hl⟩ := List.nodup_cons.mp hl
      obtain ⟨st, hst⟩ := ih hl (reapTurn tid ts i)
      obtain ⟨st', hst'⟩ := reapTurn_eq tid ts i u
      refine ⟨st, ?_⟩
      rw [List.foldl_cons, hst, hst']
      by_cases hu : u = i
      · subst hu
        simp [hi]
      · simp only [List.mem_cons, hu, false_or, if_false]
        -- whether a slot is a thread of the process does not depend on its status
        have hreaped : ∀ x : Task, { reaped tid u { x with status := st' } with status := st } =
            ({ reaped tid u x with status := st } : Task) := by
          intro x
          unfold reaped
          by_cases hr : Reaps tid u x
          · rw [if_pos hr, if_pos (show Reaps tid u { x with status := st' } from hr)]
            rfl
          · rw [if_neg hr, if_neg (show ¬ Reaps tid u { x with status := st' } from hr)]
        split
        · exact hreaped (ts u)
        · rfl

/-- An exit ends the task and the threads it takes down; beyond that it changes
statuses only. -/
theorem taskExitCode_eq (ts : Tasks) (tid u : Tid) :
    let ended := if (ts tid).isThread then ts u else reaped tid u (ts u)
    ∃ st, taskExitCode ts tid u =
      { (if u = tid then clearSlot ended else ended) with status := st } := by
  obtain ⟨st, hst⟩ := wakeWaiter_eq (modify (if (ts tid).isThread then ts
    else (List.finRange maxTasks).foldl (reapTurn tid) ts) tid clearSlot) (ts tid).waiter u
  refine ⟨st, hst.trans ?_⟩
  rw [modify_apply]
  cases hthread : (ts tid).isThread with
  | true =>
      by_cases hu : u = tid
      · subst hu
        simp
      · simp [hu]
  | false =>
      obtain ⟨st', hst'⟩ := foldl_reapTurn tid (List.nodup_finRange maxTasks) ts u
      simp only [List.mem_finRange, if_true] at hst'
      by_cases hu : u = tid
      · subst hu
        simp only [if_true, Bool.false_eq_true, if_false, hst']
        rfl
      · simp only [if_neg hu, Bool.false_eq_true, if_false, hst']

theorem taskExitCode_used (ts : Tasks) (tid u : Tid) :
    (taskExitCode ts tid u).used = true ↔ (ts u).used = true ∧ ¬ EndsWith ts tid u := by
  obtain ⟨st, hst⟩ := taskExitCode_eq ts tid u
  rw [hst]
  by_cases hu : u = tid
  · simp [hu, clearSlot, EndsWith]
  · cases hthread : (ts tid).isThread with
    | true => simp [hu, EndsWith, hthread]
    | false =>
        by_cases hr : Reaps tid u (ts u)
        · simp [hu, reaped, reapSlot, EndsWith, hthread, hr]
        · simp [hu, reaped, EndsWith, hthread, hr]

/-- What an exit leaves of a task that goes on. -/
theorem taskExitCode_of_alive {ts : Tasks} {tid u : Tid} (h : ¬ EndsWith ts tid u) :
    ∃ st, taskExitCode ts tid u = { ts u with status := st } := by
  obtain ⟨st, hst⟩ := taskExitCode_eq ts tid u
  refine ⟨st, hst.trans ?_⟩
  have hu : u ≠ tid := fun he => h (Or.inl he)
  cases hthread : (ts tid).isThread with
  | true => simp [hu]
  | false =>
      have hr : ¬ Reaps tid u (ts u) := fun hr => h (Or.inr ⟨hthread, hr⟩)
      simp [hu, reaped, hr]

/-- Waking a waiter blocks nobody. -/
theorem wakeWaiter_blocked {ts : Tasks} {w : Option Tid} {u : Tid}
    (h : (wakeWaiter ts w u).status = .blocked) : (ts u).status = .blocked := by
  cases w with
  | none => exact h
  | some w =>
      rw [wakeWaiter, taskUnblock_status] at h
      split at h
      · cases h
      · exact h

theorem foldl_reapTurn_blocked {tid u : Tid} {l : List Tid} {ts : Tasks}
    (h : (l.foldl (reapTurn tid) ts u).status = .blocked) : (ts u).status = .blocked := by
  induction l generalizing ts with
  | nil => exact h
  | cons i l ih =>
      have hturn := ih h
      unfold reapTurn at hturn
      split at hturn
      · have hreap := wakeWaiter_blocked hturn
        exact (modify_field Task.status (f := reapSlot) (fun _ => rfl) ts i u).symm.trans hreap
      · exact hturn

/-- An exit blocks nobody. -/
theorem taskExitCode_blocked {ts : Tasks} {tid u : Tid}
    (h : (taskExitCode ts tid u).status = .blocked) : (ts u).status = .blocked := by
  have hclear := wakeWaiter_blocked h
  have hended :=
    (modify_field Task.status (f := clearSlot) (fun _ => rfl) _ tid u).symm.trans hclear
  split at hended
  · exact hended
  · exact foldl_reapTurn_blocked hended

/-- The four ways a slot is filled. -/
inductive Creation where
  | kernel (hasAp : Bool) (dir : Nat)
  | user (dir : Nat)
  | thread (parent : Tid)
  | fork (parent : Tid) (dir : Nat)

def Creation.init (ts : Tasks) : Creation → Task → Task
  | .kernel hasAp dir => initKernel hasAp dir
  | .user dir => initUser dir
  | .thread parent => initThread ts parent
  | .fork parent dir => initFork ts parent dir

/-- The slot a creation takes, if it succeeds. -/
def Creation.slot (ts : Tasks) : Creation → Option Tid
  | .thread parent => if (ts parent).used then freeSlot ts else none
  | _ => freeSlot ts

theorem Creation.slot_spec {ts : Tasks} {c : Creation} {id : Tid} (h : c.slot ts = some id) :
    id ≠ 0 ∧ (ts id).used = false := by
  apply freeSlot_spec
  cases c with
  | thread parent =>
      rw [Creation.slot] at h
      split at h
      · exact h
      · cases h
  | kernel => exact h
  | user => exact h
  | fork => exact h

@[simp] theorem Creation.init_used (ts : Tasks) (c : Creation) (t : Task) :
    (c.init ts t).used = true := by
  cases c <;> rfl

@[simp] theorem Creation.init_waiter (ts : Tasks) (c : Creation) (t : Task) :
    (c.init ts t).waiter = none := by
  cases c <;> rfl

/-- The three ways a slot is given up. -/
inductive Ending where
  | exited
  | reaped
  | killed

def Ending.slot : Ending → Task → Task
  | .exited => clearSlot
  | .reaped => reapSlot
  | .killed => killSlot

@[simp] theorem Ending.slot_used (e : Ending) (t : Task) : (e.slot t).used = false := by
  cases e <;> rfl

end OriaOS.Sched
