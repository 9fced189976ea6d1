import OriaOS.Sched.Table

/-!
# Sleeping tasks

`task_sleep`, and the timer interrupt that wakes the sleepers. The deadline is a sum of
32-bit ticks and is compared with the counter as a number, so a deadline beyond the end
of the counter lies behind the clock.

A task that sleeps makes no calls. The other tasks go on between the ticks: they sleep,
block, wake each other, send signals, set timers, come and go. The stores of `task_sleep`
up to its `sti` are one step.
-/

namespace OriaOS.Sched

/-- The task table with its `wake_tick` fields, and the tick counter. -/
structure SleepSys where
  tasks : Tasks
  wakeTick : Tid → UInt32
  tick : UInt32

namespace SleepSys

/-- The stores of `task_sleep`; the task then loops until its status changes. -/
def taskSleep (s : SleepSys) (current : Tid) (ms : UInt32) : SleepSys :=
  let waitTicks := if 0 < ms then ms else 1
  { s with
    tasks := modify s.tasks current fun t => { t with status := .sleeping }
    wakeTick := Function.update s.wakeTick current (s.tick + waitTicks) }

/-- One slot's turn in `task_check_sleepers`. -/
def wakeSlot (now wakeTick : UInt32) (t : Task) : Task :=
  if t.used = true ∧ t.status = .sleeping ∧ wakeTick ≤ now then { t with status := .running }
  else t

/-- `task_check_sleepers`. -/
def taskCheckSleepers (s : SleepSys) : SleepSys :=
  { s with tasks := fun i => wakeSlot s.tick (s.wakeTick i) (s.tasks i) }

/-- The part of `timer_handler` that concerns tasks. -/
def timerHandler (s : SleepSys) : SleepSys :=
  let s := taskCheckSleepers { s with tick := s.tick + 1 }
  { s with tasks := taskItimerTick s.tasks }

end SleepSys

inductive SleepOp where
  | tick
  | sleep (t : Tid) (ms : UInt32)
  | block (t : Tid)
  | unblock (t : Tid)
  | signal (t : Tid) (sig : Nat)
  | setItimer (t : Tid) (ms : UInt32)
  | change (t : Tid) (x : Task)

/-- The task whose own call the operation is, or whose slot is filled or given up. -/
def SleepOp.subject : SleepOp → Option Tid
  | .sleep t _ | .block t | .change t _ => some t
  | .tick | .unblock _ | .signal _ _ | .setItimer _ _ => none

def sleepStep (s : SleepSys) : SleepOp → SleepSys
  | .tick => s.timerHandler
  | .sleep t ms => s.taskSleep t ms
  | .block t => { s with tasks := taskBlock s.tasks t }
  | .unblock t => { s with tasks := taskUnblock s.tasks t }
  | .signal t sig => { s with tasks := taskSendSignal s.tasks t sig }
  | .setItimer t ms => { s with tasks := taskSetItimer s.tasks t ms }
  | .change t x => { s with tasks := modify s.tasks t fun _ => x }

/-- The number of timer interrupts among the operations. -/
def ticksOf (ops : List SleepOp) : Nat := ops.countP fun op => op matches .tick

/-- How many ticks a sleep should last. -/
def sleepTicks (ms : UInt32) : Nat := max ms.toNat 1

/-- Whatever the other tasks do, the sleeper sleeps through the ticks before its last and
runs from then on. -/
def SleepsExactly (s : SleepSys) (t : Tid) (ms : UInt32) : Prop :=
  ∀ ops : List SleepOp, (∀ op ∈ ops, op.subject ≠ some t) →
    ((ops.foldl sleepStep (s.taskSleep t ms)).tasks t).status =
      if ticksOf ops < sleepTicks ms then .sleeping else .running

/-! ## The sleeper -/

namespace SleepSys
variable {s : SleepSys} {t : Tid}

theorem wakeSlot_used (now wakeTick : UInt32) (x : Task) :
    (wakeSlot now wakeTick x).used = x.used := by
  unfold wakeSlot
  split
  · rfl
  · rfl

theorem wakeSlot_status {now wakeTick : UInt32} {x : Task} (hu : x.used = true) :
    (wakeSlot now wakeTick x).status =
      if x.status = .sleeping ∧ wakeTick ≤ now then .running else x.status := by
  unfold wakeSlot
  by_cases hwake : x.status = .sleeping ∧ wakeTick ≤ now
  · rw [if_pos ⟨hu, hwake⟩, if_pos hwake]
  · rw [if_neg fun h => hwake h.2, if_neg hwake]

end SleepSys

/-- The sleeper `k` ticks after its call at the count `start`. -/
structure Asleep (start ms : UInt32) (t : Tid) (k : Nat) (s : SleepSys) : Prop where
  used : (s.tasks t).used = true
  tick : s.tick.toNat = (start.toNat + k) % 2 ^ 32
  wake : (s.wakeTick t).toNat = (start.toNat + sleepTicks ms) % 2 ^ 32
  status : (s.tasks t).status = if k < sleepTicks ms then .sleeping else .running

/-- The deadline is not above the counter at exactly the ticks from the last on. -/
def DueAt (start ms : UInt32) (k : Nat) : Prop :=
  (start.toNat + sleepTicks ms) % 2 ^ 32 ≤ (start.toNat + k) % 2 ^ 32 ↔ sleepTicks ms ≤ k

theorem sleepTicks_lt (ms : UInt32) : sleepTicks ms < 2 ^ 32 := by
  have hlt := ms.toNat_lt
  unfold sleepTicks
  omega

section Step
variable {s : SleepSys} {t : Tid} {start ms : UInt32} {k : Nat}

theorem asleep_taskSleep (hu : (s.tasks t).used = true) (ms : UInt32) :
    Asleep s.tick ms t 0 (s.taskSleep t ms) := by
  have hwait : (if 0 < ms then ms else 1 : UInt32).toNat = sleepTicks ms := by
    unfold sleepTicks
    split
    · next h =>
      have hpos : 0 < ms.toNat := h
      omega
    · next h =>
      have hzero : ms.toNat = 0 := Nat.eq_zero_of_not_pos h
      rw [hzero]
      rfl
  constructor
  · simpa [SleepSys.taskSleep] using hu
  · exact (Nat.mod_eq_of_lt s.tick.toNat_lt).symm
  · simp only [SleepSys.taskSleep, Function.update_self, UInt32.toNat_add, hwait]
  · rw [if_pos (show 0 < sleepTicks ms by unfold sleepTicks; omega)]
    simp [SleepSys.taskSleep]

/-- A timer interrupt wakes the sleeper at its last tick. -/
theorem Asleep.timerHandler (h : Asleep start ms t k s) (hdue : k < sleepTicks ms →
    DueAt start ms (k + 1)) : Asleep start ms t (k + 1) s.timerHandler := by
  have htick : (s.tick + 1).toNat = (start.toNat + (k + 1)) % 2 ^ 32 := by
    rw [UInt32.toNat_add, h.tick, UInt32.toNat_one, Nat.mod_add_mod, Nat.add_assoc]
  have hdeadline : s.wakeTick t ≤ s.tick + 1 ↔
      (start.toNat + sleepTicks ms) % 2 ^ 32 ≤ (start.toNat + (k + 1)) % 2 ^ 32 := by
    rw [UInt32.le_iff_toNat_le, htick, h.wake]
  have hchecked : (SleepSys.wakeSlot (s.tick + 1) (s.wakeTick t) (s.tasks t)).status =
      if k + 1 < sleepTicks ms then .sleeping else .running := by
    rw [SleepSys.wakeSlot_status h.used, h.status]
    by_cases hk : k < sleepTicks ms
    · have hlast := hdeadline.trans (hdue hk)
      by_cases hk' : k + 1 < sleepTicks ms
      · rw [if_pos hk, if_pos hk', if_neg fun hw => absurd (hlast.mp hw.2) (by omega)]
      · rw [if_pos hk, if_neg hk', if_pos ⟨rfl, hlast.mpr (by omega)⟩]
    · rw [if_neg hk, if_neg (by simp), if_neg (by omega)]
  constructor
  · calc
      (taskItimerTick _ t).used = (SleepSys.wakeSlot (s.tick + 1) (s.wakeTick t) (s.tasks t)).used :=
        taskItimerTick_field Task.used (fun _ _ => rfl) (fun _ _ => rfl) (fun _ _ => rfl) _ t
      _ = true := (SleepSys.wakeSlot_used _ _ _).trans h.used
  · exact htick
  · exact h.wake
  · refine (taskItimerTick_status (Or.inl ?_)).trans hchecked
    change (SleepSys.wakeSlot (s.tick + 1) (s.wakeTick t) (s.tasks t)).status ≠ .blocked
    rw [hchecked]
    split <;> simp

/-- Any change of the table that keeps the sleeper's slot and leaves it asleep. -/
theorem Asleep.frame {s' : SleepSys} (h : Asleep start ms t k s)
    (hused : (s'.tasks t).used = (s.tasks t).used)
    (hstatus : (s'.tasks t).status = (s.tasks t).status) (htick : s'.tick = s.tick)
    (hwake : s'.wakeTick t = s.wakeTick t) : Asleep start ms t k s' where
  used := hused.trans h.used
  tick := htick ▸ h.tick
  wake := hwake ▸ h.wake
  status := hstatus.trans h.status

theorem Asleep.not_blocked (h : Asleep start ms t k s) : (s.tasks t).status ≠ .blocked := by
  rw [h.status]
  split <;> simp

/-- One operation of the others. -/
theorem Asleep.step (h : Asleep start ms t k s) {op : SleepOp} (hop : op.subject ≠ some t)
    (hdue : k < sleepTicks ms → DueAt start ms (k + 1)) :
    Asleep start ms t (k + ticksOf [op]) (sleepStep s op) := by
  have hne {u : Tid} (hu : some u ≠ some t) : t ≠ u := fun he => hu (congrArg some he.symm)
  cases op with
  | tick => exact h.timerHandler hdue
  | sleep u ms' =>
      have hu := hne hop
      change Asleep start ms t k (s.taskSleep u ms')
      apply h.frame
      · simp [SleepSys.taskSleep, hu]
      · simp [SleepSys.taskSleep, hu]
      · rfl
      · exact Function.update_of_ne hu _ _
  | block u =>
      change Asleep start ms t k { s with tasks := taskBlock s.tasks u }
      apply h.frame
      · exact taskBlock_used s.tasks u t
      · exact (taskBlock_status s.tasks u t).trans (if_neg (hne hop))
      · rfl
      · rfl
  | unblock u =>
      change Asleep start ms t k { s with tasks := taskUnblock s.tasks u }
      apply h.frame
      · exact taskUnblock_used s.tasks u t
      · refine (taskUnblock_status s.tasks u t).trans (if_neg ?_)
        rintro ⟨rfl, -, hb⟩
        exact h.not_blocked hb
      · rfl
      · rfl
  | signal u sig =>
      change Asleep start ms t k { s with tasks := taskSendSignal s.tasks u sig }
      apply h.frame
      · exact taskSendSignal_used s.tasks u sig t
      · apply taskSendSignal_status
        by_cases hu : t = u
        · exact Or.inl (hu ▸ h.not_blocked)
        · exact Or.inr hu
      · rfl
      · rfl
  | setItimer u ms' =>
      change Asleep start ms t k { s with tasks := taskSetItimer s.tasks u ms' }
      apply h.frame
      · exact taskSetItimer_field Task.used (fun _ _ _ => rfl) s.tasks u ms' t
      · exact taskSetItimer_field Task.status (fun _ _ _ => rfl) s.tasks u ms' t
      · rfl
      · rfl
  | change u x =>
      have hu := hne hop
      change Asleep start ms t k { s with tasks := modify s.tasks u fun _ => x }
      apply h.frame
      · simp [hu]
      · simp [hu]
      · rfl
      · rfl

/-- A run of the others, however many ticks it has. -/
theorem Asleep.run (h : Asleep start ms t k s) {ops : List SleepOp}
    (hops : ∀ op ∈ ops, op.subject ≠ some t)
    (hdue : ∀ k < sleepTicks ms, DueAt start ms (k + 1)) :
    Asleep start ms t (k + ticksOf ops) (ops.foldl sleepStep s) := by
  induction ops generalizing s k with
  | nil => exact h
  | cons op ops ih =>
      obtain ⟨hop, hrest⟩ := List.forall_mem_cons.mp hops
      have hcount : ticksOf (op :: ops) = ticksOf [op] + ticksOf ops :=
        @List.countP_append _ _ [op] ops
      rw [hcount, ← Nat.add_assoc]
      exact ih (h.step hop (hdue k)) hrest

end Step

/-- The deadline is never behind the clock if the sum does not wrap, or if the counter
itself wraps at the next tick. -/
theorem dueAt_of_fits {start ms : UInt32}
    (h : start.toNat + sleepTicks ms < 2 ^ 32 ∨ start.toNat + 1 = 2 ^ 32) :
    ∀ k < sleepTicks ms, DueAt start ms (k + 1) := by
  intro k hk
  have hlt := sleepTicks_lt ms
  unfold DueAt
  rcases h with h | h
  · rw [Nat.mod_eq_of_lt h, Nat.mod_eq_of_lt (by omega)]
    omega
  · -- Both sums have wrapped, so both have lost the same.
    have hwrap (n : Nat) (hn : n < 2 ^ 32) : (start.toNat + (n + 1)) % 2 ^ 32 = n := by omega
    obtain ⟨d, hd⟩ : ∃ d, sleepTicks ms = d + 1 := ⟨sleepTicks ms - 1, by omega⟩
    rw [hd, hwrap d (by omega), hwrap k (by omega)]
    omega

/-- A sleep lasts as long as it should exactly when its deadline fits the counter, or the
counter is at its last value. -/
theorem sleeps_exactly_iff {s : SleepSys} {t : Tid} (hu : (s.tasks t).used = true) (ms : UInt32) :
    SleepsExactly s t ms ↔
      s.tick.toNat + max ms.toNat 1 < 2 ^ 32 ∨ s.tick.toNat + 1 = 2 ^ 32 := by
  have hstart := asleep_taskSleep hu ms
  constructor
  · intro h
    by_contra hfits
    -- The deadline has wrapped and the counter has not: the first tick finds it behind.
    have hlong : 1 < sleepTicks ms := by
      have hlt := s.tick.toNat_lt
      unfold sleepTicks
      omega
    have hone := h [.tick] (by simp [SleepOp.subject])
    rw [if_pos (show ticksOf [.tick] < sleepTicks ms from hlong)] at hone
    have hused := hstart.used
    have hdue : (s.taskSleep t ms).wakeTick t ≤ s.tick + 1 := by
      have hlt := s.tick.toNat_lt
      have hlt' := sleepTicks_lt ms
      rw [UInt32.le_iff_toNat_le, hstart.wake, UInt32.toNat_add, UInt32.toNat_one]
      unfold sleepTicks at hlong hlt' ⊢
      omega
    have hwoken :=
      @SleepSys.wakeSlot_status (s.tick + 1) ((s.taskSleep t ms).wakeTick t) _ hused
    rw [if_pos ⟨hstart.status.trans (if_pos (by omega)), hdue⟩] at hwoken
    have hkept : ((s.taskSleep t ms).timerHandler.tasks t).status = .running := by
      refine (taskItimerTick_status (Or.inl ?_)).trans hwoken
      exact fun hb => absurd (hwoken.symm.trans hb) (by decide)
    exact absurd (hkept.symm.trans hone) (by decide)
  · intro hfits ops hops
    simpa using (hstart.run hops (dueAt_of_fits hfits)).status

/-- One task, the counter just short of its end. -/
def almostWrapped : SleepSys where
  tasks := fun _ => { Task.empty with used := true }
  wakeTick := fun _ => 0
  tick := 0xFFFFFFFA

theorem sleeps_exactly_five : SleepsExactly almostWrapped 1 5 :=
  (sleeps_exactly_iff rfl 5).mpr (Or.inl (by decide))

/-- A sleep of 100 ticks that starts six ticks before the counter wraps is over after one
tick. -/
theorem long_sleep_cut_short : ¬ ∀ (s : SleepSys) (t : Tid) (ms : UInt32),
    (s.tasks t).used = true → SleepsExactly s t ms := by
  intro h
  have hstatus := h almostWrapped 1 100 rfl [.tick] (by simp [SleepOp.subject])
  revert hstatus
  decide

end OriaOS.Sched
