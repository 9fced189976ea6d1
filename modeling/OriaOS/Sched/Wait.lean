import OriaOS.Lib.Reach
import OriaOS.Sched.Table

/-!
# Waiting for a task to end

`task_wait` against the three ways a task ends: `task_exit_code`, the exit of its
process, and `task_kill`. A task has room for one waiter. System calls run with
interrupts on, so the test, the entry and the store of `task_block` in `task_wait`
are separate steps, and so are the read of the waiter in `task_exit_code`, each look
at a thread of the process, each thread taken down, and the last stores with the
wake-up behind them.

A task that has cleared its own `used` is never scheduled again. An interrupt right
behind that store is the step `cutOff`: the wake-up does not happen.

A slot is filled many times. `filled` counts how often, and a wait remembers which
filling it was called for.
-/

namespace OriaOS.Sched

open OriaOS.Lib

/-- Where a task is in `task_wait` or `task_exit_code`. -/
inductive WaitPc where
  | out
  /-- The target was used; before the entry as its waiter. -/
  | checked (target : Tid) (n : Nat)
  /-- Before the store of `task_block`. -/
  | registered (target : Tid) (n : Nat)
  /-- In the loop of `task_block`. -/
  | waiting (target : Tid) (n : Nat)
  /-- The waiter is read; `rest` are the slots the loop still looks at. -/
  | exiting (waiter : Option Tid) (rest : List Tid)
  /-- The loop found a thread and has read its waiter. -/
  | reaping (waiter : Option Tid) (thread : Tid) (joiner : Option Tid) (rest : List Tid)
  deriving DecidableEq

namespace WaitPc

/-- The target of a task between its entry as a waiter and its return. -/
def inside : WaitPc → Option Tid
  | registered i _ | waiting i _ => some i
  | _ => none

/-- The target of a task in the loop of `task_block`. -/
def sleepsOn : WaitPc → Option Tid
  | waiting i _ => some i
  | _ => none

/-- The waiter an exiting task has read. -/
def saved : WaitPc → Option (Option Tid)
  | exiting w _ | reaping w _ _ _ => some w
  | _ => none

/-- The thread the loop is about to take down. -/
def takesDown : WaitPc → Option Tid
  | reaping _ i _ _ => some i
  | _ => none

/-- The task is behind its loop, before its last stores. -/
def atEnd : WaitPc → Bool
  | exiting _ [] => true
  | _ => false

/-- The task is in the loop over its threads. -/
def looping : WaitPc → Bool
  | exiting _ (_ :: _) | reaping _ _ _ _ => true
  | _ => false

end WaitPc

/-- `early` records that a wait returned while its target was running. -/
structure WaitSys where
  tasks : Tasks
  pc : Tid → WaitPc
  filled : Tid → Nat
  early : Bool

namespace WaitSys

def goto (s : WaitSys) (t : Tid) (p : WaitPc) : WaitSys :=
  { s with pc := Function.update s.pc t p }

@[simp] theorem goto_tasks (s : WaitSys) (t : Tid) (p : WaitPc) :
    (s.goto t p).tasks = s.tasks := rfl

@[simp] theorem goto_self (s : WaitSys) (t : Tid) (p : WaitPc) : (s.goto t p).pc t = p := by
  simp [goto]

theorem goto_of_ne {t u : Tid} (h : u ≠ t) (s : WaitSys) (p : WaitPc) :
    (s.goto t p).pc u = s.pc u := by
  simp [goto, h]

/-- The slot is used by the filling the wait was called for. -/
def Current (s : WaitSys) (i : Tid) (n : Nat) : Prop :=
  (s.tasks i).used = true ∧ s.filled i = n

instance (s : WaitSys) (i : Tid) (n : Nat) : Decidable (s.Current i n) :=
  inferInstanceAs (Decidable (_ ∧ _))

def setWaiter (s : WaitSys) (i : Tid) (w : Option Tid) : WaitSys :=
  { s with tasks := modify s.tasks i fun t => { t with waiter := w } }

/-- An entry changes the waiter of one slot only. -/
theorem setWaiter_slot (s : WaitSys) (i : Tid) (w : Option Tid) (u : Tid) :
    (s.setWaiter i w).tasks u =
      { s.tasks u with waiter := if u = i then w else (s.tasks u).waiter } := by
  by_cases hui : u = i
  · simp [setWaiter, hui]
  · simp [setWaiter, hui]

/-- A task ends: its slot is given up and its waiter is woken. -/
def finish (s : WaitSys) (e : Ending) (t : Tid) (w : Option Tid) : WaitSys :=
  { s with tasks := wakeWaiter (modify s.tasks t e.slot) w }.goto t .out

/-- An ending gives the slot up and wakes the waiter; it touches nobody else. -/
theorem finish_slot (s : WaitSys) (e : Ending) (t : Tid) (w : Option Tid) (u : Tid) :
    ((s.finish e t w).tasks t).used = false ∧
      (u ≠ t → ∃ st, (s.finish e t w).tasks u = { s.tasks u with status := st }) ∧
      (u ≠ t → w ≠ some u → (s.finish e t w).tasks u = s.tasks u) ∧
      (u ≠ t → w = some u → (s.tasks u).used = true →
        ((s.finish e t w).tasks u).status ≠ .blocked) := by
  refine ⟨?_, ?_, ?_, ?_⟩
  · obtain ⟨st, hst⟩ := wakeWaiter_eq (modify s.tasks t e.slot) w t
    change (wakeWaiter (modify s.tasks t e.slot) w t).used = false
    rw [hst]
    simp
  · intro hut
    obtain ⟨st, hst⟩ := wakeWaiter_eq (modify s.tasks t e.slot) w u
    rw [modify_of_ne hut] at hst
    exact ⟨st, hst⟩
  · intro hut hw
    cases w with
    | none => exact modify_of_ne hut _
    | some x =>
        have hux : u ≠ x := fun hux => hw (congrArg some hux.symm)
        exact (taskUnblock_of_ne hux).trans (modify_of_ne hut _)
  · rintro hut rfl hu
    change (taskUnblock (modify s.tasks t e.slot) u u).status ≠ .blocked
    rw [taskUnblock_status, modify_of_ne hut]
    split
    · simp
    · next hb => exact fun hs => hb ⟨rfl, hu, hs⟩

/-- The first part of `task_exit_code`. A thread has no loop to run. -/
def exit (s : WaitSys) (t : Tid) : WaitSys :=
  s.goto t (.exiting (s.tasks t).waiter
    (if (s.tasks t).isThread then [] else List.finRange maxTasks))

end WaitSys

/-- The next step of a task in `task_wait` or `task_exit_code`. -/
def waitRun (s : WaitSys) (t : Tid) : WaitPc → WaitSys
  | .out => s
  | .checked i n => (s.setWaiter i (some t)).goto t (.registered i n)
  | .registered i n => { s with tasks := taskBlock s.tasks t }.goto t (.waiting i n)
  | .waiting i n =>
      { s.setWaiter i none with early := s.early || decide (s.Current i n) }.goto t .out
  | .exiting w (i :: rest) =>
      if Reaps t i (s.tasks i) then s.goto t (.reaping w i (s.tasks i).waiter rest)
      else s.goto t (.exiting w rest)
  | .reaping w i tw rest => (s.goto t (.exiting w rest)).finish .reaped i tw
  | .exiting w [] => s.finish .exited t w

inductive WaitOp where
  /-- `SYS_WAITPID` or `SYS_THREAD_JOIN`. -/
  | wait (t target : Tid)
  | run (t : Tid)
  | cutOff (t : Tid)
  | exit (t : Tid)
  | checkSignals (t : Tid)
  | signal (t : Tid) (sig : Nat)
  | kill (id : Tid)
  | create (c : Creation)
  /-- A `task_block` and a `task_unblock` of other parts of the kernel. -/
  | block (t : Tid)
  | unblock (t : Tid)

def waitStep (s : WaitSys) : WaitOp → WaitSys
  | .wait t i =>
      if Runnable s.tasks t ∧ s.pc t = .out ∧ i ≠ 0 ∧ (s.tasks i).used = true then
        s.goto t (.checked i (s.filled i))
      else s
  | .run t => if Runnable s.tasks t then waitRun s t (s.pc t) else s
  | .cutOff t =>
      if Runnable s.tasks t ∧ (s.pc t).atEnd = true then s.finish .exited t none else s
  | .exit t => if Runnable s.tasks t ∧ s.pc t = .out then s.exit t else s
  | .checkSignals t =>
      if Runnable s.tasks t ∧ s.pc t = .out ∧ Terminating (s.tasks t) then s.exit t else s
  | .signal t sig => { s with tasks := taskSendSignal s.tasks t sig }
  | .kill id =>
      if id = 0 ∨ (s.tasks id).used = false then s else s.finish .killed id none
  | .create c =>
      match c.slot s.tasks with
      | none => s
      | some id =>
          { s with
            tasks := modify s.tasks id (c.init s.tasks)
            filled := Function.update s.filled id (s.filled id + 1) }
  | .block t =>
      if Runnable s.tasks t ∧ s.pc t = .out then { s with tasks := taskBlock s.tasks t } else s
  | .unblock t => { s with tasks := taskUnblock s.tasks t }

/-- Nobody waits and nobody exits. -/
structure WaitStart (s : WaitSys) : Prop where
  out : ∀ t, s.pc t = .out
  noWaiter : ∀ t, (s.tasks t).used = true → (s.tasks t).waiter = none
  early : s.early = false

/-! ## What a wait promises -/

/-- Who sleeps in `task_wait` has a target that still runs, and no wait returned
before its target had ended. -/
structure WaitsOk (s : WaitSys) : Prop where
  woken : ∀ t i n, s.pc t = .waiting i n → (s.tasks t).status = .blocked → s.Current i n
  early : s.early = false

/-- The task sleeps in `task_wait` on the target. -/
def SleepsOn (s : WaitSys) (t i : Tid) : Prop :=
  (s.pc t).sleepsOn = some i ∧ (s.tasks t).status = .blocked

instance (s : WaitSys) (t i : Tid) : Decidable (SleepsOn s t i) :=
  inferInstanceAs (Decidable (_ ∧ _))

/-- The task may end: it does not wait itself, no exiting process is about to take
it down, and the waiter that is woken sleeps already. -/
def EndsWell (s : WaitSys) (t : Tid) (w : Option Tid) : Prop :=
  (s.pc t).inside = none ∧ (∀ u, (s.pc u).takesDown ≠ some t) ∧ ∀ x ∈ w, SleepsOn s x t

instance (s : WaitSys) (t : Tid) (w : Option Tid) : Decidable (EndsWell s t w) :=
  inferInstanceAs (Decidable (_ ∧ _ ∧ _))

/-- The target of a wait is still the one that was tested, nobody else waits on its
slot, and neither its own exit nor that of its process has read its waiter yet. -/
def Enters (s : WaitSys) (i : Tid) (n : Nat) : Prop :=
  s.Current i n ∧ (∀ u, (s.pc u).inside ≠ some i) ∧ (s.pc i).saved = none ∧
    ∀ u, (s.pc u).takesDown ≠ some i

instance (s : WaitSys) (i : Tid) (n : Nat) : Decidable (Enters s i n) :=
  inferInstanceAs (Decidable (_ ∧ _ ∧ _ ∧ _))

/-- The next step of the task does no harm. -/
def RunsWell (s : WaitSys) (t : Tid) : WaitPc → Prop
  | .checked i n => Enters s i n
  | .reaping _ i tw _ => (s.pc i).inside = none ∧ ∀ x ∈ tw, SleepsOn s x i
  | .exiting w [] => EndsWell s t w
  | _ => True

instance (s : WaitSys) (t : Tid) (p : WaitPc) : Decidable (RunsWell s t p) :=
  match p with
  | .checked i n => inferInstanceAs (Decidable (Enters s i n))
  | .reaping _ i tw _ => inferInstanceAs (Decidable ((s.pc i).inside = none ∧ ∀ x ∈ tw, SleepsOn s x i))
  | .exiting w [] => inferInstanceAs (Decidable (EndsWell s t w))
  | .out | .registered .. | .waiting .. | .exiting _ (_ :: _) => isTrue trivial

/-- The condition on the steps: an entry as waiter finds the target as it was and
nobody else waiting, a task with a waiter ends when its waiter sleeps and is not
interrupted or killed, and who sleeps in `task_wait` gets no signal and no other
wake-up. -/
def waitGuard (s : WaitSys) : WaitOp → Prop
  | .run t => Runnable s.tasks t → RunsWell s t (s.pc t)
  | .cutOff t => (s.pc t).atEnd = true → (s.tasks t).waiter = none ∧ EndsWell s t none
  | .kill id =>
      id ≠ 0 → (s.tasks id).used = true → (s.tasks id).waiter = none ∧ EndsWell s id none
  | .signal t _ | .unblock t => ∀ i, ¬ SleepsOn s t i
  | _ => True

/-! ## The invariant -/

/-- The task is entered as the waiter of the target and sleeps or is about to. -/
def Holds (s : WaitSys) (t i : Tid) (n : Nat) : Prop :=
  s.pc t = .registered i n ∨ s.pc t = .waiting i n ∧ (s.tasks t).status = .blocked

/-- The filling of the slot has ended. -/
def Over (s : WaitSys) (i : Tid) (n : Nat) : Prop :=
  n < s.filled i ∨ n = s.filled i ∧ (s.tasks i).used = false

/-- Who exits has read its own waiter and that of the thread it takes down. -/
structure ExitInv (s : WaitSys) : Prop where
  alive : ∀ t, s.pc t ≠ .out → (s.tasks t).used = true
  saved : ∀ t w, (s.pc t).saved = some w → w = (s.tasks t).waiter
  process : ∀ t, (s.pc t).looping = true → (s.tasks t).isThread = false
  reaping : ∀ t w i tw rest, s.pc t = .reaping w i tw rest →
    Reaps t i (s.tasks i) ∧ tw = (s.tasks i).waiter

/-- The waiters of the used slots are the tasks that sleep on them or are about to. -/
structure EntryInv (s : WaitSys) : Prop where
  listed : ∀ t i n, Holds s t i n → s.Current i n ∧ (s.tasks i).waiter = some t
  known : ∀ t i, (s.tasks i).used = true → (s.tasks i).waiter = some t → Holds s t i (s.filled i)
  ended : ∀ t i n, s.pc t = .waiting i n → (s.tasks t).status ≠ .blocked → Over s i n
  single : ∀ t u i, (s.pc t).inside = some i → (s.pc u).inside = some i → t = u
  early : s.early = false

structure WaitInv (s : WaitSys) : Prop where
  exits : ExitInv s
  entries : EntryInv s

theorem WaitInv.ok {s : WaitSys} (h : WaitInv s) : WaitsOk s where
  woken := fun t i n hp hb => (h.entries.listed t i n (Or.inr ⟨hp, hb⟩)).1
  early := h.entries.early

theorem WaitStart.inv {s : WaitSys} (h : WaitStart s) : WaitInv s := by
  constructor
  · constructor
    · exact fun t hp => absurd (h.out t) hp
    · simp [h.out, WaitPc.saved]
    · simp [h.out, WaitPc.looping]
    · simp [h.out]
  · constructor
    · simp [Holds, h.out]
    · intro t i hu hw
      rw [h.noWaiter i hu] at hw
      cases hw
    · simp [h.out]
    · simp [h.out, WaitPc.inside]
    · exact h.early

theorem Holds.inside {s : WaitSys} {t i : Tid} {n : Nat} (h : Holds s t i n) :
    (s.pc t).inside = some i := by
  rcases h with h | h
  · rw [h]
    rfl
  · rw [h.1]
    rfl

/-- A task holds one slot at most. -/
theorem Holds.unique {s : WaitSys} {t i j : Tid} {n m : Nat} (h : Holds s t i n)
    (h' : Holds s t j m) : i = j :=
  Option.some.inj (h.inside.symm.trans h'.inside)

theorem WaitPc.looping_of_saved {p : WaitPc} (h : p.saved = none) : p.looping = false := by
  cases p <;> simp_all [WaitPc.saved, WaitPc.looping]

/-! ## Exits -/

section Exits
variable {s s' : WaitSys} {t : Tid}

/-- Who has ended is not in the middle of anything. -/
theorem ExitInv.out (h : ExitInv s) (hu : (s.tasks t).used = false) : s.pc t = .out := by
  by_contra hp
  rw [h.alive t hp] at hu
  cases hu

theorem ExitInv.not_takenDown (h : ExitInv s) (hu : (s.tasks t).used = false) (u : Tid) :
    (s.pc u).takesDown ≠ some t := by
  intro hd
  cases hp : s.pc u with
  | reaping w i tw rest =>
      rw [hp] at hd
      cases hd
      have := (h.reaping u w t tw rest hp).1.2.1
      rw [hu] at this
      cases this
  | _ =>
      rw [hp] at hd
      cases hd

/-- Steps of tasks that are not exiting: a waiter that is changed has been read by
nobody. -/
theorem ExitInv.change (h : ExitInv s)
    (hslot : ∀ u, (s'.tasks u).used = (s.tasks u).used ∧
      (s'.tasks u).isThread = (s.tasks u).isThread ∧
      (s'.tasks u).parentTid = (s.tasks u).parentTid)
    (hpc : ∀ u, s'.pc u = s.pc u ∨ (s'.pc u).saved = none ∧ (s.tasks u).used = true)
    (hwaiter : ∀ u, (s'.tasks u).waiter = (s.tasks u).waiter ∨
      (s.pc u).saved = none ∧ ∀ v, (s.pc v).takesDown ≠ some u) : ExitInv s' := by
  constructor
  case alive =>
    intro u hp
    rw [(hslot u).1]
    rcases hpc u with hpu | hpu
    · rw [hpu] at hp
      exact h.alive u hp
    · exact hpu.2
  case saved =>
    intro u w hw
    rcases hpc u with hpu | hpu
    · rw [hpu] at hw
      rcases hwaiter u with hwu | hwu
      · rw [hwu]
        exact h.saved u w hw
      · rw [hwu.1] at hw
        cases hw
    · rw [hpu.1] at hw
      cases hw
  case process =>
    intro u hl
    rw [(hslot u).2.1]
    rcases hpc u with hpu | hpu
    · rw [hpu] at hl
      exact h.process u hl
    · rw [WaitPc.looping_of_saved hpu.1] at hl
      cases hl
  case reaping =>
    intro u w i tw rest hp
    rcases hpc u with hpu | hpu
    · rw [hpu] at hp
      obtain ⟨hr, hw⟩ := h.reaping u w i tw rest hp
      rw [Reaps, (hslot i).1, (hslot i).2.1, (hslot i).2.2]
      refine ⟨hr, ?_⟩
      rcases hwaiter i with hwi | hwi
      · rw [hwi]
        exact hw
      · refine absurd ?_ (hwi.2 u)
        rw [hp]
        rfl
    · rw [hp] at hpu
      cases hpu.1

/-- A task exits or goes on with its exit. -/
theorem ExitInv.goto {p : WaitPc} (h : ExitInv s) (hu : (s.tasks t).used = true)
    (hsaved : ∀ w, p.saved = some w → w = (s.tasks t).waiter)
    (hprocess : p.looping = true → (s.tasks t).isThread = false)
    (hreaping : ∀ w i tw rest, p = .reaping w i tw rest →
      Reaps t i (s.tasks i) ∧ tw = (s.tasks i).waiter) : ExitInv (s.goto t p) := by
  constructor
  case alive =>
    intro u hp
    by_cases hut : u = t
    · exact hut ▸ hu
    · rw [WaitSys.goto_of_ne hut] at hp
      exact h.alive u hp
  case saved =>
    intro u w hw
    by_cases hut : u = t
    · subst hut
      rw [WaitSys.goto_self] at hw
      exact hsaved w hw
    · rw [WaitSys.goto_of_ne hut] at hw
      exact h.saved u w hw
  case process =>
    intro u hl
    by_cases hut : u = t
    · subst hut
      rw [WaitSys.goto_self] at hl
      exact hprocess hl
    · rw [WaitSys.goto_of_ne hut] at hl
      exact h.process u hl
  case reaping =>
    intro u w i tw rest hp
    by_cases hut : u = t
    · subst hut
      rw [WaitSys.goto_self] at hp
      exact hreaping w i tw rest hp
    · rw [WaitSys.goto_of_ne hut] at hp
      exact h.reaping u w i tw rest hp

/-- A slot is filled or given up, and nobody is about to take it down. -/
theorem ExitInv.slot (h : ExitInv s) (hout : s'.pc t = .out)
    (hfree : ∀ u, (s.pc u).takesDown ≠ some t) (hpc : ∀ u, u ≠ t → s'.pc u = s.pc u)
    (hslot : ∀ u, u ≠ t → ∃ st, s'.tasks u = { s.tasks u with status := st }) : ExitInv s' := by
  constructor
  case alive =>
    intro u hp
    have hut : u ≠ t := fun hut => hp (hut ▸ hout)
    obtain ⟨st, hst⟩ := hslot u hut
    rw [hpc u hut] at hp
    rw [hst]
    exact h.alive u hp
  case saved =>
    intro u w hw
    have hut : u ≠ t := by
      rintro rfl
      rw [hout] at hw
      cases hw
    obtain ⟨st, hst⟩ := hslot u hut
    rw [hpc u hut] at hw
    rw [hst]
    exact h.saved u w hw
  case process =>
    intro u hl
    have hut : u ≠ t := by
      rintro rfl
      rw [hout] at hl
      cases hl
    obtain ⟨st, hst⟩ := hslot u hut
    rw [hpc u hut] at hl
    rw [hst]
    exact h.process u hl
  case reaping =>
    intro u w i tw rest hp
    have hut : u ≠ t := by
      rintro rfl
      rw [hout] at hp
      cases hp
    rw [hpc u hut] at hp
    have hit : i ≠ t := by
      rintro rfl
      apply hfree u
      rw [hp]
      rfl
    obtain ⟨st, hst⟩ := hslot i hit
    rw [hst]
    exact h.reaping u w i tw rest hp

end Exits

/-! ## Waiters -/

section Entries
variable {s s' : WaitSys} {t i : Tid} {n : Nat}

/-- Steps on which nobody comes to hold a slot or lets go of one. -/
theorem EntryInv.same (h : EntryInv s)
    (hslot : ∀ u, (s'.tasks u).used = (s.tasks u).used ∧
      (s'.tasks u).waiter = (s.tasks u).waiter)
    (hfilled : s'.filled = s.filled) (hearly : s'.early = s.early)
    (hholds : ∀ u j m, Holds s' u j m ↔ Holds s u j m)
    (hinside : ∀ u, (s'.pc u).inside = (s.pc u).inside)
    (hended : ∀ u j m, s'.pc u = .waiting j m → (s'.tasks u).status ≠ .blocked →
      s.pc u = .waiting j m ∧ (s.tasks u).status ≠ .blocked) : EntryInv s' := by
  constructor
  case listed =>
    intro u j m hh
    rw [WaitSys.Current, (hslot j).1, (hslot j).2, hfilled]
    exact h.listed u j m ((hholds u j m).mp hh)
  case known =>
    intro u j hu hw
    rw [(hslot j).1] at hu
    rw [(hslot j).2] at hw
    rw [hholds, hfilled]
    exact h.known u j hu hw
  case ended =>
    intro u j m hp hb
    obtain ⟨hp, hb⟩ := hended u j m hp hb
    rw [Over, (hslot j).1, hfilled]
    exact h.ended u j m hp hb
  case single =>
    intro u v j
    rw [hinside, hinside]
    exact h.single u v j
  case early => rw [hearly]; exact h.early

/-- A task moves on outside the part of `task_wait` that others see. -/
theorem EntryInv.goto {p : WaitPc} (h : EntryInv s) (hold : (s.pc t).inside = none)
    (hnew : p.inside = none) : EntryInv (s.goto t p) := by
  have hinside : ∀ u, ((s.goto t p).pc u).inside = (s.pc u).inside := by
    intro u
    by_cases hut : u = t
    · subst hut
      rw [WaitSys.goto_self, hold, hnew]
    · rw [WaitSys.goto_of_ne hut]
  have hkeep : ∀ u j, (s.pc u).inside = some j → (s.goto t p).pc u = s.pc u := by
    intro u j hj
    apply WaitSys.goto_of_ne
    rintro rfl
    rw [hold] at hj
    cases hj
  refine h.same (fun _ => ⟨rfl, rfl⟩) rfl rfl ?_ hinside ?_
  · intro u j m
    constructor
    · intro hh
      have hk := hkeep u j ((hinside u).symm.trans hh.inside)
      rwa [Holds, hk] at hh
    · intro hh
      rw [Holds, hkeep u j hh.inside]
      exact hh
  · intro u j m hp hb
    have hj : (s.pc u).inside = some j := by
      rw [← hinside u, hp]
      rfl
    rw [hkeep u j hj] at hp
    exact ⟨hp, hb⟩

/-- The store of `task_block` turns the entered task into a sleeping one. -/
theorem EntryInv.block (h : EntryInv s) (hp : s.pc t = .registered i n) :
    EntryInv ({ s with tasks := taskBlock s.tasks t }.goto t (.waiting i n)) := by
  have hstatus : ∀ u, u ≠ t → (taskBlock s.tasks t u).status = (s.tasks u).status := by
    intro u hut
    rw [taskBlock_status, if_neg hut]
  have hself : (taskBlock s.tasks t t).status = .blocked := by
    rw [taskBlock_status, if_pos rfl]
  refine h.same ?_ rfl rfl ?_ ?_ ?_
  · intro u
    exact ⟨taskBlock_used s.tasks t u, taskBlock_field Task.waiter (fun _ _ => rfl) s.tasks t u⟩
  · intro u j m
    by_cases hut : u = t
    · subst hut
      simp [Holds, hp, hself]
    · simp only [Holds, WaitSys.goto_of_ne hut, WaitSys.goto_tasks, hstatus u hut]
  · intro u
    by_cases hut : u = t
    · subst hut
      rw [WaitSys.goto_self, hp]
      rfl
    · rw [WaitSys.goto_of_ne hut]
  · intro u j m hpu hb
    by_cases hut : u = t
    · exact absurd (hut ▸ hself) hb
    · rw [WaitSys.goto_of_ne hut] at hpu
      rw [WaitSys.goto_tasks, hstatus u hut] at hb
      exact ⟨hpu, hb⟩

/-- An entry as waiter on a target that nobody waits on. -/
theorem EntryInv.register (h : EntryInv s) (hp : (s.pc t).inside = none) (hcur : s.Current i n)
    (halone : ∀ u, (s.pc u).inside ≠ some i) :
    EntryInv ((s.setWaiter i (some t)).goto t (.registered i n)) := by
  have hholds : ∀ u j m, u ≠ t →
      (Holds ((s.setWaiter i (some t)).goto t (.registered i n)) u j m ↔ Holds s u j m) := by
    intro u j m hut
    rw [Holds, WaitSys.goto_of_ne hut, WaitSys.goto_tasks, WaitSys.setWaiter_slot]
    rfl
  constructor
  case listed =>
    intro u j m hh
    rw [WaitSys.Current, WaitSys.goto_tasks, WaitSys.setWaiter_slot]
    by_cases hut : u = t
    · subst hut
      rcases hh with hh | hh
      · rw [WaitSys.goto_self, WaitPc.registered.injEq] at hh
        obtain ⟨rfl, rfl⟩ := hh
        exact ⟨hcur, if_pos rfl⟩
      · rw [WaitSys.goto_self] at hh
        cases hh.1
    · rw [hholds u j m hut] at hh
      have hji : j ≠ i := fun hji => halone u (hji ▸ hh.inside)
      rw [if_neg hji]
      exact h.listed u j m hh
  case known =>
    intro u j hj hw
    rw [WaitSys.goto_tasks, WaitSys.setWaiter_slot] at hj hw
    by_cases hji : j = i
    · subst hji
      rw [if_pos rfl, Option.some.injEq] at hw
      subst hw
      left
      rw [WaitSys.goto_self]
      exact congrArg (WaitPc.registered j) hcur.2.symm
    · rw [if_neg hji] at hw
      have hh := h.known u j hj hw
      have hut : u ≠ t := by
        rintro rfl
        rw [hh.inside] at hp
        cases hp
      exact (hholds u j _ hut).mpr hh
  case ended =>
    intro u j m hpu hb
    have hut : u ≠ t := by
      rintro rfl
      rw [WaitSys.goto_self] at hpu
      cases hpu
    rw [WaitSys.goto_of_ne hut] at hpu
    rw [WaitSys.goto_tasks, WaitSys.setWaiter_slot] at hb
    rw [Over, WaitSys.goto_tasks, WaitSys.setWaiter_slot]
    exact h.ended u j m hpu hb
  case single =>
    -- the target had nobody inside, so the new waiter is the only one
    have hin : ∀ u j, (((s.setWaiter i (some t)).goto t (.registered i n)).pc u).inside = some j →
        u = t ∧ j = i ∨ j ≠ i ∧ (s.pc u).inside = some j := by
      intro u j hj
      by_cases hut : u = t
      · subst hut
        rw [WaitSys.goto_self] at hj
        exact Or.inl ⟨rfl, (Option.some.inj hj).symm⟩
      · rw [WaitSys.goto_of_ne hut] at hj
        exact Or.inr ⟨fun hji => halone u (hji ▸ hj), hj⟩
    intro u v j huj hvj
    rcases hin u j huj with ⟨hu', hji⟩ | ⟨hji, huj⟩ <;>
      rcases hin v j hvj with ⟨hv', hji'⟩ | ⟨hji', hvj⟩
    · exact hu'.trans hv'.symm
    · exact absurd hji hji'
    · exact absurd hji' hji
    · exact h.single u v j huj hvj
  case early => exact h.early

/-- Who was woken is the last one inside on the slot, so the slot, if it is used, has
no waiter. -/
theorem EntryInv.no_waiter (h : EntryInv s) (hp : s.pc t = .waiting i n)
    (hb : (s.tasks t).status ≠ .blocked) (hu : (s.tasks i).used = true) :
    (s.tasks i).waiter = none := by
  rw [Option.eq_none_iff_forall_ne_some]
  intro y hy
  have hh := h.known y i hu hy
  have hty : t = y := by
    apply h.single t y i _ hh.inside
    rw [hp]
    rfl
  subst hty
  rcases hh with hh | hh
  · rw [hp] at hh
    cases hh
  · exact hb hh.2

/-- A wait returns. -/
theorem EntryInv.resume (h : EntryInv s) (hp : s.pc t = .waiting i n)
    (hb : (s.tasks t).status ≠ .blocked) :
    EntryInv ({ s.setWaiter i none with early := s.early || decide (s.Current i n) }.goto t .out) := by
  have hover := h.ended t i n hp hb
  have hpi : (s.pc t).inside = some i := by
    rw [hp]
    rfl
  have hother : ∀ {u p}, p ≠ .out → (WaitSys.goto
      { s.setWaiter i none with early := s.early || decide (s.Current i n) } t .out).pc u = p →
      u ≠ t ∧ s.pc u = p := by
    intro u p hout hpu
    by_cases hut : u = t
    · subst hut
      rw [WaitSys.goto_self] at hpu
      exact absurd hpu.symm hout
    · rw [WaitSys.goto_of_ne hut] at hpu
      exact ⟨hut, hpu⟩
  constructor
  case listed =>
    intro u j m hh
    have hold : u ≠ t ∧ Holds s u j m := by
      rcases hh with hh | ⟨hpu, hbu⟩
      · obtain ⟨hut, hpu⟩ := hother (by simp) hh
        exact ⟨hut, Or.inl hpu⟩
      · obtain ⟨hut, hpu⟩ := hother (by simp) hpu
        rw [WaitSys.goto_tasks] at hbu
        rw [WaitSys.setWaiter_slot] at hbu
        exact ⟨hut, Or.inr ⟨hpu, hbu⟩⟩
    have hji : j ≠ i := by
      rintro rfl
      exact hold.1 (h.single u t j hold.2.inside hpi)
    rw [WaitSys.Current, WaitSys.goto_tasks, WaitSys.setWaiter_slot, if_neg hji]
    exact h.listed u j m hold.2
  case known =>
    intro u j hj hw
    rw [WaitSys.goto_tasks, WaitSys.setWaiter_slot] at hj hw
    by_cases hji : j = i
    · rw [if_pos hji] at hw
      cases hw
    · rw [if_neg hji] at hw
      have hh := h.known u j hj hw
      have hut : u ≠ t := by
        rintro rfl
        exact hji (Option.some.inj (hh.inside.symm.trans hpi))
      rw [Holds, WaitSys.goto_of_ne hut, WaitSys.goto_tasks, WaitSys.setWaiter_slot]
      exact hh
  case ended =>
    intro u j m hpu hbu
    obtain ⟨-, hpu⟩ := hother (by simp) hpu
    rw [WaitSys.goto_tasks, WaitSys.setWaiter_slot] at hbu
    rw [Over, WaitSys.goto_tasks, WaitSys.setWaiter_slot]
    exact h.ended u j m hpu hbu
  case single =>
    intro u v j huj hvj
    have hin : ∀ w, ((WaitSys.goto { s.setWaiter i none with
        early := s.early || decide (s.Current i n) } t .out).pc w).inside = some j →
        (s.pc w).inside = some j := by
      intro w hw
      by_cases hwt : w = t
      · subst hwt
        rw [WaitSys.goto_self] at hw
        cases hw
      · rwa [WaitSys.goto_of_ne hwt] at hw
    exact h.single u v j (hin u huj) (hin v hvj)
  case early =>
    have hnot : ¬ s.Current i n := by
      rintro ⟨hu, hn⟩
      rcases hover with hlt | ⟨-, hfree⟩
      · exact absurd hn.symm (Nat.ne_of_lt hlt)
      · rw [hu] at hfree
        cases hfree
    change (s.early || decide (s.Current i n)) = false
    rw [h.early, decide_eq_false hnot]
    rfl

/-- A task ends whose waiter, if it has one, sleeps. -/
theorem EntryInv.finish {e : Ending} {w : Option Tid} (h : EntryInv s) (hx : ExitInv s)
    (hin : (s.pc t).inside = none) (hw : w = (s.tasks t).waiter)
    (hsleep : ∀ x ∈ w, SleepsOn s x t) (hu : (s.tasks t).used = true) :
    EntryInv (s.finish e t w) := by
  have hslot := s.finish_slot e t w
  have hne : ∀ {u}, (s.pc u).inside ≠ none → u ≠ t := by
    rintro u hui rfl
    exact hui hin
  have hpc : ∀ u, u ≠ t → (s.finish e t w).pc u = s.pc u := fun u hut => WaitSys.goto_of_ne hut _ _
  have hout : (s.finish e t w).pc t = .out := WaitSys.goto_self _ _ _
  -- the woken task held this slot and no other
  have hwoken : ∀ {x}, w = some x → ∃ m, s.pc x = .waiting t m ∧ x ≠ t ∧
      ((s.finish e t w).tasks x).status ≠ .blocked ∧ Holds s x t (s.filled t) := by
    intro x hxw
    have hh := h.known x t hu (hw.symm.trans hxw)
    have hxt : x ≠ t := hne (by simp [hh.inside])
    rcases hh with hh | hh
    · have hs := (hsleep x hxw).1
      rw [hh] at hs
      cases hs
    · have hxu : (s.tasks x).used = true := hx.alive x (by simp [hh.1])
      exact ⟨_, hh.1, hxt, (hslot x).2.2.2 hxt hxw hxu, Or.inr hh⟩
  have hold : ∀ {u j m}, Holds (s.finish e t w) u j m → u ≠ t ∧ w ≠ some u ∧ Holds s u j m := by
    intro u j m hh
    have hut : u ≠ t := by
      rintro rfl
      have := hh.inside
      rw [hout] at this
      cases this
    have hwu : w ≠ some u := by
      intro hwu
      obtain ⟨k, hp, -, hb, -⟩ := hwoken hwu
      rcases hh with hh | hh
      · rw [hpc u hut, hp] at hh
        cases hh
      · exact hb hh.2
    rw [Holds, hpc u hut, (hslot u).2.2.1 hut hwu] at hh
    exact ⟨hut, hwu, hh⟩
  constructor
  case listed =>
    intro u j m hh
    obtain ⟨-, hwu, hh⟩ := hold hh
    obtain ⟨hc, hwj⟩ := h.listed u j m hh
    have hjt : j ≠ t := by
      rintro rfl
      exact hwu (hw.trans hwj)
    obtain ⟨st, hst⟩ := (hslot j).2.1 hjt
    rw [WaitSys.Current, hst]
    exact ⟨hc, hwj⟩
  case known =>
    intro u j hj hwj
    have hjt : j ≠ t := by
      rintro rfl
      rw [(hslot j).1] at hj
      cases hj
    obtain ⟨st, hst⟩ := (hslot j).2.1 hjt
    rw [hst] at hj hwj
    have hh := h.known u j hj hwj
    have hut : u ≠ t := hne (by simp [hh.inside])
    have hwu : w ≠ some u := by
      intro hwu
      obtain ⟨-, -, -, -, hheld⟩ := hwoken hwu
      exact hjt (hh.unique hheld)
    rw [Holds, hpc u hut, (hslot u).2.2.1 hut hwu]
    exact hh
  case ended =>
    intro u j m hp hb
    have hut : u ≠ t := by
      rintro rfl
      rw [hout] at hp
      cases hp
    rw [hpc u hut] at hp
    have hgone : ∀ k, Over s k m → Over (s.finish e t w) k m := by
      rintro k (hlt | ⟨heq, hfree⟩)
      · exact Or.inl hlt
      · have hkt : k ≠ t := by
          rintro rfl
          rw [hu] at hfree
          cases hfree
        obtain ⟨st, hst⟩ := (hslot k).2.1 hkt
        exact Or.inr ⟨heq, by rw [hst]; exact hfree⟩
    by_cases hwu : w = some u
    · obtain ⟨k, hp', -, -, hheld⟩ := hwoken hwu
      rw [hp, WaitPc.waiting.injEq] at hp'
      rcases hheld with hheld | hheld
      · rw [hp] at hheld
        cases hheld
      · rw [hp, WaitPc.waiting.injEq] at hheld
        rw [hp'.1]
        exact Or.inr ⟨hheld.1.2, (hslot t).1⟩
    · rw [(hslot u).2.2.1 hut hwu] at hb
      exact hgone j (h.ended u j m hp hb)
  case single =>
    intro u v j huj hvj
    have hinside : ∀ x, ((s.finish e t w).pc x).inside = some j → (s.pc x).inside = some j := by
      intro x hxj
      by_cases hxt : x = t
      · rw [hxt, hout] at hxj
        cases hxj
      · rwa [hpc x hxt] at hxj
    exact h.single u v j (hinside u huj) (hinside v hvj)
  case early => exact h.early

/-- A slot is filled again. -/
theorem EntryInv.create {x : Task} (h : EntryInv s) (hfree : (s.tasks t).used = false)
    (hout : s.pc t = .out) (hw : x.waiter = none) (hself : s'.tasks t = x)
    (hother : ∀ u, u ≠ t → s'.tasks u = s.tasks u)
    (hfilled : s'.filled = Function.update s.filled t (s.filled t + 1)) (hpc : s'.pc = s.pc)
    (hearly : s'.early = s.early) : EntryInv s' := by
  have hkeep : ∀ u, s.pc u ≠ .out → s'.tasks u = s.tasks u := by
    intro u hp
    apply hother
    rintro rfl
    exact hp hout
  have hholds : ∀ u j m, Holds s' u j m ↔ Holds s u j m := by
    intro u j m
    rw [Holds, hpc]
    apply or_congr Iff.rfl
    apply and_congr_right
    intro hp
    rw [hkeep u (by simp [hp])]
  constructor
  case listed =>
    intro u j m hh
    obtain ⟨hc, hwj⟩ := h.listed u j m ((hholds u j m).mp hh)
    have hjt : j ≠ t := by
      rintro rfl
      rw [hc.1] at hfree
      cases hfree
    rw [WaitSys.Current, hother j hjt, hfilled, Function.update_of_ne hjt]
    exact ⟨hc, hwj⟩
  case known =>
    intro u j hj hwj
    by_cases hjt : j = t
    · rw [hjt, hself, hw] at hwj
      cases hwj
    · rw [hother j hjt] at hj hwj
      rw [hholds, hfilled, Function.update_of_ne hjt]
      exact h.known u j hj hwj
  case ended =>
    intro u j m hp hb
    rw [hpc] at hp
    rw [hkeep u (by simp [hp])] at hb
    have hover := h.ended u j m hp hb
    rw [Over, hfilled]
    by_cases hjt : j = t
    · subst hjt
      left
      rw [Function.update_self]
      rcases hover with hlt | heq
      · exact Nat.lt_succ_of_lt hlt
      · rw [heq.1]
        exact Nat.lt_succ_self _
    · rw [Function.update_of_ne hjt, hother j hjt]
      exact hover
  case single => rw [hpc]; exact h.single
  case early => rw [hearly]; exact h.early

end Entries

/-! ## Runs -/

section Steps
variable {s : WaitSys} {t i : Tid} {n : Nat} {w : Option Tid} {rest : List Tid}

/-- Steps that wake and block outside `task_wait` only. -/
theorem WaitInv.frame {ts : Tasks} (h : WaitInv s)
    (hslot : ∀ u, (ts u).used = (s.tasks u).used ∧ (ts u).waiter = (s.tasks u).waiter ∧
      (ts u).isThread = (s.tasks u).isThread ∧ (ts u).parentTid = (s.tasks u).parentTid)
    (hstatus : ∀ u j m, s.pc u = .waiting j m → (ts u).status = (s.tasks u).status) :
    WaitInv { s with tasks := ts } := by
  constructor
  · refine h.exits.change ?_ (fun _ => Or.inl rfl) (fun u => Or.inl (hslot u).2.1)
    exact fun u => ⟨(hslot u).1, (hslot u).2.2⟩
  · refine h.entries.same (fun u => ⟨(hslot u).1, (hslot u).2.1⟩) rfl rfl ?_ (fun _ => rfl) ?_
    · intro u j m
      apply or_congr Iff.rfl
      apply and_congr_right
      intro hp
      rw [hstatus u j m hp]
    · intro u j m hp hb
      rw [hstatus u j m hp] at hb
      exact ⟨hp, hb⟩

/-- A wait passes its test of the target. -/
theorem WaitInv.wait (h : WaitInv s) (hu : (s.tasks t).used = true) (hp : s.pc t = .out) :
    WaitInv (s.goto t (.checked i n)) := by
  constructor
  · exact h.exits.goto hu (by simp [WaitPc.saved]) (by simp [WaitPc.looping]) (by simp)
  · exact h.entries.goto (by simp [hp, WaitPc.inside]) rfl

theorem WaitInv.register (h : WaitInv s) (hu : (s.tasks t).used = true)
    (hp : s.pc t = .checked i n) (he : Enters s i n) :
    WaitInv ((s.setWaiter i (some t)).goto t (.registered i n)) := by
  obtain ⟨hcur, halone, hsaved, hreap⟩ := he
  constructor
  · refine h.exits.change ?_ ?_ ?_
    · intro u
      rw [WaitSys.goto_tasks, WaitSys.setWaiter_slot]
      exact ⟨rfl, rfl, rfl⟩
    · intro u
      by_cases hut : u = t
      · subst hut
        exact Or.inr ⟨by rw [WaitSys.goto_self]; rfl, hu⟩
      · exact Or.inl (WaitSys.goto_of_ne hut _ _)
    · intro u
      rw [WaitSys.goto_tasks, WaitSys.setWaiter_slot]
      by_cases hui : u = i
      · subst hui
        exact Or.inr ⟨hsaved, hreap⟩
      · exact Or.inl (if_neg hui)
  · exact h.entries.register (by simp [hp, WaitPc.inside]) hcur halone

theorem WaitInv.block (h : WaitInv s) (hu : (s.tasks t).used = true)
    (hp : s.pc t = .registered i n) :
    WaitInv ({ s with tasks := taskBlock s.tasks t }.goto t (.waiting i n)) := by
  constructor
  · refine h.exits.change ?_ ?_ ?_
    · intro u
      exact ⟨taskBlock_used s.tasks t u,
        taskBlock_field Task.isThread (fun _ _ => rfl) s.tasks t u,
        taskBlock_field Task.parentTid (fun _ _ => rfl) s.tasks t u⟩
    · intro u
      by_cases hut : u = t
      · subst hut
        exact Or.inr ⟨by rw [WaitSys.goto_self]; rfl, hu⟩
      · exact Or.inl (WaitSys.goto_of_ne hut _ _)
    · exact fun u => Or.inl (taskBlock_field Task.waiter (fun _ _ => rfl) s.tasks t u)
  · exact h.entries.block hp

theorem WaitInv.resume (h : WaitInv s) (hrun : Runnable s.tasks t)
    (hp : s.pc t = .waiting i n) :
    WaitInv ({ s.setWaiter i none with early := s.early || decide (s.Current i n) }.goto t .out) := by
  have hb : (s.tasks t).status ≠ .blocked := by
    rw [hrun.2]
    simp
  constructor
  · refine h.exits.change ?_ ?_ ?_
    · intro u
      rw [WaitSys.goto_tasks, WaitSys.setWaiter_slot]
      exact ⟨rfl, rfl, rfl⟩
    · intro u
      by_cases hut : u = t
      · subst hut
        exact Or.inr ⟨by rw [WaitSys.goto_self]; rfl, hrun.1⟩
      · exact Or.inl (WaitSys.goto_of_ne hut _ _)
    · intro u
      rw [WaitSys.goto_tasks, WaitSys.setWaiter_slot]
      by_cases hui : u = i
      · subst hui
        -- a slot that is used has no waiter to lose, one that is not is read by nobody
        cases hu : (s.tasks u).used with
        | true => exact Or.inl ((if_pos rfl).trans (h.entries.no_waiter hp hb hu).symm)
        | false =>
            refine Or.inr ⟨?_, h.exits.not_takenDown hu⟩
            rw [h.exits.out hu]
            rfl
      · exact Or.inl (if_neg hui)
  · exact h.entries.resume hp hb

theorem WaitInv.exit (h : WaitInv s) (hu : (s.tasks t).used = true) (hp : s.pc t = .out) :
    WaitInv (s.exit t) := by
  constructor
  · refine h.exits.goto hu ?_ ?_ (by simp)
    · intro v hv
      exact (Option.some.inj hv).symm
    · intro hl
      by_contra hthread
      rw [Bool.not_eq_false] at hthread
      rw [if_pos hthread] at hl
      cases hl
  · exact h.entries.goto (by simp [hp, WaitPc.inside]) rfl

/-- The loop of an exiting process looks at the next slot. -/
theorem WaitInv.look (h : WaitInv s) (hu : (s.tasks t).used = true)
    (hp : s.pc t = .exiting w (i :: rest)) :
    WaitInv (waitRun s t (.exiting w (i :: rest))) := by
  have hsaved : w = (s.tasks t).waiter := h.exits.saved t w (by simp [hp, WaitPc.saved])
  have hprocess : (s.tasks t).isThread = false :=
    h.exits.process t (by simp [hp, WaitPc.looping])
  have hin : (s.pc t).inside = none := by simp [hp, WaitPc.inside]
  rw [waitRun]
  split
  · next hr =>
    constructor
    · refine h.exits.goto hu ?_ (fun _ => hprocess) ?_
      · simpa [WaitPc.saved] using hsaved
      · rintro v j tw l he
        cases he
        exact ⟨hr, rfl⟩
    · exact h.entries.goto hin rfl
  · constructor
    · refine h.exits.goto hu ?_ (fun _ => hprocess) (by simp)
      simpa [WaitPc.saved] using hsaved
    · exact h.entries.goto hin rfl

/-- A task ends whose waiter, if it has one, sleeps. -/
theorem WaitInv.finish {e : Ending} (h : WaitInv s) (hu : (s.tasks t).used = true)
    (hw : w = (s.tasks t).waiter) (he : EndsWell s t w) : WaitInv (s.finish e t w) := by
  obtain ⟨hin, hfree, hsleep⟩ := he
  constructor
  · refine h.exits.slot (t := t) ?_ hfree ?_ ?_
    · exact WaitSys.goto_self _ _ _
    · exact fun u hut => WaitSys.goto_of_ne hut _ _
    · exact fun u hut => (s.finish_slot e t w u).2.1 hut
  · exact h.entries.finish h.exits hin hw hsleep hu

/-- A thread is taken down by its process. -/
theorem WaitInv.reap {tw : Option Tid} (h : WaitInv s) (hu : (s.tasks t).used = true)
    (hp : s.pc t = .reaping w i tw rest) (hin : (s.pc i).inside = none)
    (hsleep : ∀ x ∈ tw, SleepsOn s x i) :
    WaitInv ((s.goto t (.exiting w rest)).finish .reaped i tw) := by
  obtain ⟨hr, hw⟩ := h.exits.reaping t w i tw rest hp
  have hprocess : (s.tasks t).isThread = false :=
    h.exits.process t (by simp [hp, WaitPc.looping])
  have hit : i ≠ t := by
    rintro rfl
    rw [hr.2.2.1] at hprocess
    cases hprocess
  have hmoved : WaitInv (s.goto t (.exiting w rest)) := by
    constructor
    · refine h.exits.goto hu ?_ (fun _ => hprocess) (by simp)
      have hsaved : w = (s.tasks t).waiter := h.exits.saved t w (by simp [hp, WaitPc.saved])
      simpa [WaitPc.saved] using hsaved
    · exact h.entries.goto (by simp [hp, WaitPc.inside]) rfl
  refine hmoved.finish hr.2.1 hw ⟨?_, ?_, ?_⟩
  · rw [WaitSys.goto_of_ne hit]
    exact hin
  · -- only the parent of a thread takes it down
    intro u hd
    by_cases hut : u = t
    · rw [hut, WaitSys.goto_self] at hd
      cases hd
    · rw [WaitSys.goto_of_ne hut] at hd
      cases hpu : s.pc u with
      | reaping v j tw' l =>
          rw [hpu] at hd
          cases hd
          have hr' := (h.exits.reaping u v i tw' l hpu).1
          exact hut (Option.some.inj (hr'.2.2.2.symm.trans hr.2.2.2))
      | _ =>
          rw [hpu] at hd
          cases hd
  · intro x hx
    have hs := hsleep x hx
    have hxt : x ≠ t := by
      rintro rfl
      rw [SleepsOn, hp] at hs
      cases hs.1
    rw [SleepsOn, WaitSys.goto_of_ne hxt]
    exact hs

theorem WaitInv.create (h : WaitInv s) {c : Creation} (hslot : c.slot s.tasks = some t) :
    WaitInv { s with
      tasks := modify s.tasks t (c.init s.tasks)
      filled := Function.update s.filled t (s.filled t + 1) } := by
  obtain ⟨-, hfree⟩ := Creation.slot_spec hslot
  have hout := h.exits.out hfree
  constructor
  · refine h.exits.slot (t := t) hout (h.exits.not_takenDown hfree) (fun _ _ => rfl) ?_
    intro u hut
    exact ⟨(s.tasks u).status, modify_of_ne hut _⟩
  · exact h.entries.create hfree hout (Creation.init_waiter s.tasks c (s.tasks t))
      (modify_self s.tasks t _) (fun u hut => modify_of_ne hut _) rfl rfl rfl

theorem waitRun_inv (h : WaitInv s) (hrun : Runnable s.tasks t) (hg : RunsWell s t (s.pc t)) :
    WaitInv (waitRun s t (s.pc t)) := by
  cases hp : s.pc t with
  | out => exact h
  | checked i n =>
      rw [hp] at hg
      exact h.register hrun.1 hp hg
  | registered i n => exact h.block hrun.1 hp
  | waiting i n => exact h.resume hrun hp
  | exiting w rest =>
      cases rest with
      | nil =>
          rw [hp] at hg
          exact h.finish hrun.1 (h.exits.saved t w (by simp [hp, WaitPc.saved])) hg
      | cons i rest => exact h.look hrun.1 hp
  | reaping w i tw rest =>
      rw [hp] at hg
      exact h.reap hrun.1 hp hg.1 hg.2

/-- A wake-up of a task that does not sleep in `task_wait`. -/
theorem WaitInv.wake {ts : Tasks} (h : WaitInv s)
    (hslot : ∀ u, (ts u).used = (s.tasks u).used ∧ (ts u).waiter = (s.tasks u).waiter ∧
      (ts u).isThread = (s.tasks u).isThread ∧ (ts u).parentTid = (s.tasks u).parentTid)
    (hother : ∀ u, (s.tasks t).status ≠ .blocked ∨ u ≠ t → (ts u).status = (s.tasks u).status)
    (hawake : ∀ j, ¬ SleepsOn s t j) : WaitInv { s with tasks := ts } := by
  refine h.frame hslot ?_
  intro u j m hp
  apply hother
  by_cases hut : u = t
  · subst hut
    refine Or.inl fun hb => hawake j ⟨?_, hb⟩
    rw [hp]
    rfl
  · exact Or.inr hut

theorem waitStep_inv (h : WaitInv s) {op : WaitOp} (hg : waitGuard s op) :
    WaitInv (waitStep s op) := by
  cases op with
  | wait t i =>
      simp only [waitStep]
      split
      · next hc => exact h.wait hc.1.1 hc.2.1
      · exact h
  | run t =>
      simp only [waitStep]
      split
      · next hrun => exact waitRun_inv h hrun (hg hrun)
      · exact h
  | cutOff t =>
      simp only [waitStep]
      split
      · next hc =>
        obtain ⟨hw, he⟩ := hg hc.2
        exact h.finish hc.1.1 hw.symm he
      · exact h
  | exit t =>
      simp only [waitStep]
      split
      · next hc => exact h.exit hc.1.1 hc.2
      · exact h
  | checkSignals t =>
      simp only [waitStep]
      split
      · next hc => exact h.exit hc.1.1 hc.2.1
      · exact h
  | signal t sig =>
      refine h.wake (t := t) ?_ (fun u hu => taskSendSignal_status hu) hg
      intro u
      have hfield {α : Type} (p : Task → α) (hp : ∀ x v, p { x with pendingSignals := v } = p x)
          (hs : ∀ x v, p { x with status := v } = p x) :=
        taskSendSignal_field p hp hs s.tasks t sig u
      exact ⟨hfield _ (fun _ _ => rfl) fun _ _ => rfl, hfield _ (fun _ _ => rfl) fun _ _ => rfl,
        hfield _ (fun _ _ => rfl) fun _ _ => rfl, hfield _ (fun _ _ => rfl) fun _ _ => rfl⟩
  | kill id =>
      simp only [waitStep]
      split
      · exact h
      · next hid =>
        simp only [not_or, Bool.not_eq_false] at hid
        obtain ⟨hw, he⟩ := hg hid.1 hid.2
        exact h.finish hid.2 hw.symm he
  | create c =>
      simp only [waitStep]
      split
      · exact h
      · next id hslot => exact h.create hslot
  | block t =>
      simp only [waitStep]
      split
      · next hc =>
        refine h.frame ?_ ?_
        · intro u
          have hfield {α : Type} (p : Task → α) (hp : ∀ x v, p { x with status := v } = p x) :=
            taskBlock_field p hp s.tasks t u
          exact ⟨hfield _ fun _ _ => rfl, hfield _ fun _ _ => rfl, hfield _ fun _ _ => rfl,
            hfield _ fun _ _ => rfl⟩
        · intro u j m hp
          rw [taskBlock_status, if_neg]
          rintro rfl
          rw [hc.2] at hp
          cases hp
      · exact h
  | unblock t =>
      refine h.wake (t := t) ?_ ?_ hg
      · intro u
        have hfield {α : Type} (p : Task → α) (hp : ∀ x v, p { x with status := v } = p x) :=
          taskUnblock_field p hp s.tasks t u
        exact ⟨hfield _ fun _ _ => rfl, hfield _ fun _ _ => rfl, hfield _ fun _ _ => rfl,
          hfield _ fun _ _ => rfl⟩
      · intro u hu
        rw [taskUnblock_status, if_neg]
        rintro ⟨hut, -, hb⟩
        rcases hu with hu | hu
        · exact hu hb
        · exact hu hut

end Steps

/-- In every run that meets the condition, who sleeps in `task_wait` has a target that
still runs, and no wait returns before its target has ended. -/
theorem waits_ok {s : WaitSys} (r : Reach WaitStart waitGuard waitStep s) : WaitsOk s := by
  apply WaitInv.ok
  exact r.invariant (fun _ h => h.inv) fun _ _ h hg => waitStep_inv h hg

instance (s : WaitSys) (op : WaitOp) : Decidable (waitGuard s op) :=
  match op with
  | .run t => inferInstanceAs (Decidable (Runnable s.tasks t → RunsWell s t (s.pc t)))
  | .cutOff t =>
      inferInstanceAs (Decidable ((s.pc t).atEnd = true →
        (s.tasks t).waiter = none ∧ EndsWell s t none))
  | .kill id =>
      inferInstanceAs (Decidable (id ≠ 0 → (s.tasks id).used = true →
        (s.tasks id).waiter = none ∧ EndsWell s id none))
  | .signal t _ => inferInstanceAs (Decidable (∀ i, ¬ SleepsOn s t i))
  | .unblock t => inferInstanceAs (Decidable (∀ i, ¬ SleepsOn s t i))
  | .wait .. | .exit _ | .checkSignals _ | .create _ | .block _ => isTrue trivial

/-- The shell alone. -/
def nobodyWaits : WaitSys where
  tasks := fun t => if t = 0 then { Task.empty with used := true, waiter := none } else Task.empty
  pc := fun _ => .out
  filled := fun _ => 0
  early := false

theorem nobodyWaits_start : WaitStart nobodyWaits where
  out := fun _ => rfl
  noWaiter := by decide
  early := rfl

/-- The shell starts a process, the process a thread; both are waited for, and the
process exits with its thread alive. -/
def joinThenExit : List WaitOp :=
  [.create (.user 1), .create (.thread 1), .create (.user 2), .wait 0 1, .wait 3 2, .run 0, .run 3,
    .run 0, .run 3, .exit 1] ++ List.replicate 34 (.run 1) ++ [.create (.user 3), .run 0, .run 3]

theorem waits_ok_join_then_exit : WaitsOk (joinThenExit.foldl waitStep nobodyWaits) :=
  waits_ok ((Reach.start nobodyWaits_start).guarded (by decide +kernel))

/-- The shell waits for a process that is killed. -/
def waitThenKill : List WaitOp := [.create (.user 1), .wait 0 1, .run 0, .run 0, .kill 1]

theorem killed_target_strands_waiter : ¬ ∀ s, Reach WaitStart anyInput waitStep s → WaitsOk s := by
  intro h
  have hs := (h _ ((Reach.start nobodyWaits_start).foldl waitThenKill)).woken 0 1 1
  revert hs
  decide +kernel

end OriaOS.Sched
