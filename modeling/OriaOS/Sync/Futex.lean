import OriaOS.Lib.Reach
import OriaOS.Sched.Table

/-!
# The futex mutex

`mutex_lock` and `mutex_unlock` of `lib.h` on one word, over `SYS_FUTEX_WAIT`
and `SYS_FUTEX_WAKE` of `syscall_ipc.c`. System calls run with interrupts on, so
each is several steps: the comparison in `SYS_FUTEX_WAIT`, the search for a free
entry, the stores into that entry and the store of `task_block`; the search in
`SYS_FUTEX_WAKE`, and the stores that take the found entry out with the wake of
its task. Every system call first runs `task_check_signals`, which may end the
caller.

The table is one for all processes, is keyed by the bare address and is never
cleared. An entry is taken out by the wake that finds it only, so a waiter that a
signal wakes leaves its entry behind, and so does a thread that dies. Waiters on
other words, and those of other processes at the same address, make and lose
their entries between any two steps.
-/

namespace OriaOS.Sync

open OriaOS.Lib OriaOS.Sched

/-- `FUTEX_TABLE_SIZE`. -/
abbrev futexTableSize : Nat := 32

structure FutexEntry where
  addr : Nat
  tid : Tid
  used : Bool
  deriving DecidableEq

abbrev FutexTable := Fin futexTableSize → FutexEntry

/-- The scan of `SYS_FUTEX_WAIT` for a free entry. -/
def freeEntry (table : FutexTable) : Option (Fin futexTableSize) :=
  (List.finRange futexTableSize).find? fun i => !(table i).used

/-- The scan of `SYS_FUTEX_WAKE` for the first waiter on the address. -/
def firstEntry (table : FutexTable) (addr : Nat) : Option (Fin futexTableSize) :=
  (List.finRange futexTableSize).find? fun i => (table i).used && (table i).addr == addr

/-- Where a thread is in `mutex_lock` or `mutex_unlock`. -/
inductive FxPc where
  | out
  /-- Before the compare-and-swap. -/
  | cas
  /-- The swap failed; before the entry to `SYS_FUTEX_WAIT`. -/
  | waitCall
  /-- The word was still 1; before the search for a free entry. -/
  | search
  /-- The entry was free; before the stores into it. -/
  | register (i : Fin futexTableSize)
  /-- Before the store of `task_block`, and in its loop. -/
  | sleep
  | asleep
  /-- Between `mutex_lock` and `mutex_unlock`. -/
  | inside
  /-- The word is 0 again; before the entry to `SYS_FUTEX_WAKE`. -/
  | wakeCall
  /-- The entry was on the word and named the task; before it is taken out. -/
  | wake (i : Fin futexTableSize) (w : Tid)
  deriving DecidableEq

/-- In `mutex_lock`. -/
def FxPc.wants : FxPc → Bool
  | .cas | .waitCall | .search | .register _ | .sleep | .asleep => true
  | .out | .inside | .wakeCall | .wake .. => false

/-- Between the comparison of `SYS_FUTEX_WAIT` and the store of `task_block`. -/
def FxPc.entering : FxPc → Bool
  | .search | .register _ | .sleep => true
  | .out | .cas | .waitCall | .asleep | .inside | .wakeCall | .wake .. => false

/-- Between the store of `mutex_unlock` and its wake. -/
def FxPc.waking : FxPc → Bool
  | .wakeCall | .wake .. => true
  | .out | .cas | .waitCall | .search | .register _ | .sleep | .asleep | .inside => false

structure FxSys where
  tasks : Tasks
  table : FutexTable
  addr : Nat
  word : Int
  pc : Tid → FxPc

namespace FxSys

def goto (s : FxSys) (t : Tid) (p : FxPc) : FxSys :=
  { s with pc := Function.update s.pc t p }

/-- `task_exit_code`; who ends is at the mutex no more. -/
def exit (s : FxSys) (t : Tid) : FxSys :=
  { s with
    tasks := taskExitCode s.tasks t
    pc := fun u => if EndsWith s.tasks t u then .out else s.pc u }

/-- The stores of `SYS_FUTEX_WAIT` into the entry it found. -/
def enter (s : FxSys) (i : Fin futexTableSize) (addr : Nat) (t : Tid) : FxSys :=
  { s with table := Function.update s.table i ⟨addr, t, true⟩ }

/-- The stores of `SYS_FUTEX_WAKE` into the entry it found, and its `task_unblock`. -/
def takeOut (s : FxSys) (i : Fin futexTableSize) (w : Tid) : FxSys :=
  { s with
    table := Function.update s.table i { s.table i with used := false, addr := 0 }
    tasks := taskUnblock s.tasks w }

end FxSys

/-- The next step of a thread in `mutex_lock` or `mutex_unlock`. -/
def fxRun (s : FxSys) (t : Tid) : FxPc → FxSys
  | .cas => if s.word = 0 then { s with word := 1 }.goto t .inside else s.goto t .waitCall
  | .waitCall =>
      if Terminating (s.tasks t) then s.exit t
      else if s.word ≠ 1 then s.goto t .cas
      else s.goto t .search
  | .search =>
      match freeEntry s.table with
      | none => s.goto t .cas
      | some i => s.goto t (.register i)
  | .register i => (s.enter i s.addr t).goto t .sleep
  | .sleep => { s with tasks := taskBlock s.tasks t }.goto t .asleep
  | .asleep => s.goto t .cas
  | .wakeCall =>
      if Terminating (s.tasks t) then s.exit t
      else
        match firstEntry s.table s.addr with
        | none => s.goto t .out
        | some i => s.goto t (.wake i (s.table i).tid)
  | .wake i w => (s.takeOut i w).goto t .out
  | .out | .inside => s

inductive FxOp where
  | lock (t : Tid)
  | unlock (t : Tid)
  | run (t : Tid)
  /-- Any other system call, for its `task_check_signals`. -/
  | syscall (t : Tid)
  | signal (t : Tid) (sig : Nat)
  | tick
  | setItimer (t : Tid) (ms : UInt32)
  | setSignalMask (t : Tid) (mask : UInt32)
  | create (c : Creation)
  /-- A call that has nothing to do with the mutex blocks the thread. -/
  | block (t : Tid)
  /-- Whatever else calls `task_unblock` on the task. -/
  | unblock (t : Tid)
  /-- A `SYS_FUTEX_WAIT` on another word or in another process makes its entry. -/
  | otherWait (i : Fin futexTableSize) (addr : Nat) (t : Tid)
  /-- A `SYS_FUTEX_WAKE` on another word or in another process takes an entry out. -/
  | otherWake (i : Fin futexTableSize) (w : Tid)

def fxStep (s : FxSys) : FxOp → FxSys
  | .lock t => if Runnable s.tasks t ∧ s.pc t = .out then s.goto t .cas else s
  | .unlock t =>
      if Runnable s.tasks t ∧ s.pc t = .inside then { s with word := 0 }.goto t .wakeCall else s
  | .run t => if Runnable s.tasks t then fxRun s t (s.pc t) else s
  | .syscall t =>
      if Runnable s.tasks t ∧ (s.pc t = .out ∨ s.pc t = .inside) ∧ Terminating (s.tasks t) then
        s.exit t
      else s
  | .signal t sig => { s with tasks := taskSendSignal s.tasks t sig }
  | .tick => { s with tasks := taskItimerTick s.tasks }
  | .setItimer t ms => { s with tasks := taskSetItimer s.tasks t ms }
  | .setSignalMask t mask => { s with tasks := taskSetSignalMask s.tasks t mask }
  | .create c =>
      match c.slot s.tasks with
      | none => s
      | some id => { s with tasks := modify s.tasks id (c.init s.tasks) }
  | .block t =>
      if s.pc t = .out ∨ s.pc t = .inside then { s with tasks := taskBlock s.tasks t } else s
  | .unblock t => { s with tasks := taskUnblock s.tasks t }
  | .otherWait i addr t => s.enter i addr t
  | .otherWake i w => s.takeOut i w

/-- The word is unlocked and nobody is at the mutex. Nothing is said of the table:
it may hold entries of any kind, on the address of the word too. -/
structure FxStart (s : FxSys) : Prop where
  out : ∀ t, s.pc t = .out
  word : s.word = 0

/-! ## What the mutex promises -/

/-- At most one thread is between lock and unlock. -/
def Exclusive (s : FxSys) : Prop := ∀ t u, s.pc t = .inside → s.pc u = .inside → t = u

/-- The thread sleeps in `SYS_FUTEX_WAIT`. -/
def Asleep (s : FxSys) (t : Tid) : Prop := s.pc t = .asleep ∧ (s.tasks t).status = .blocked

/-- The word is unlocked, no unlock is between its store and its wake, and every
thread that wants the lock sleeps. -/
def Stuck (s : FxSys) : Prop :=
  s.word = 0 ∧ (∀ t, (s.pc t).waking = false) ∧ (∃ t, (s.pc t).wants = true) ∧
    ∀ t, (s.pc t).wants = true → Asleep s t

/-! ## The condition on the steps -/

/-- The thread is on its way to the compare-and-swap. -/
def Coming (s : FxSys) (u : Tid) : Prop :=
  s.pc u = .cas ∨ s.pc u = .asleep ∧ (s.tasks u).status ≠ .blocked

/-- The thread sleeps, or is about to behind its entry. -/
def Dormant (s : FxSys) (u : Tid) : Prop := s.pc u = .sleep ∨ Asleep s u

/-- The entry is on the word and names a thread that sleeps or is about to. -/
def Held (s : FxSys) (i : Fin futexTableSize) : Prop :=
  (s.table i).used = true ∧ (s.table i).addr = s.addr ∧ Dormant s (s.table i).tid

/-- A system call of the thread ends nobody who is about to wake another or is on the
way to the lock. -/
def SafeCall (s : FxSys) (t : Tid) : Prop :=
  Terminating (s.tasks t) → ∀ u, EndsWith s.tasks t u →
    (s.pc u).waking = false ∧ ¬ Coming s u

/-- No thread stays asleep, or goes to sleep, without the entry. -/
def TakesOut (s : FxSys) (i : Fin futexTableSize) (w : Tid) : Prop :=
  Held s i → (s.table i).tid = w ∧ Asleep s w

/-- The word is unlocked, and no other unlock is between its store and its wake. -/
def LastWake (s : FxSys) (t : Tid) : Prop :=
  s.word = 0 ∧ ∀ u, (s.pc u).waking = true → u = t

/-- Nobody is between its comparison and its sleep. -/
def NoneEntering (s : FxSys) : Prop := ∀ u, (s.pc u).entering = false

/-- If anybody sleeps, then the task does, or somebody is on the way to the lock. -/
def Reaches (s : FxSys) (w : Tid) : Prop :=
  (∃ u, Asleep s u) → Asleep s w ∨ ∃ u, Coming s u

/-- The condition on the next step of a thread at the mutex. -/
def runGuard (s : FxSys) (t : Tid) : FxPc → Prop
  | .waitCall => SafeCall s t
  | .register i => ¬ Held s i
  | .wakeCall => SafeCall s t ∧ (firstEntry s.table s.addr = none → LastWake s t → NoneEntering s)
  | .wake i w => TakesOut s i w ∧ (LastWake s t → NoneEntering s ∧ Reaches s w)
  | .out | .cas | .search | .sleep | .asleep | .inside => True

/-- The condition on the steps. No waiter's entry is written over, or taken out
without waking the waiter. No unlock sends its wake, as the last one, while a waiter is
between its comparison and its sleep, or to a task that does not sleep while
another does. Nobody ends by a signal on the way to the lock or to a wake. -/
def fxGuard (s : FxSys) : FxOp → Prop
  | .run t => runGuard s t (s.pc t)
  | .syscall t => SafeCall s t
  | .otherWait i _ _ => ¬ Held s i
  | .otherWake i w => TakesOut s i w
  | .lock _ | .unlock _ | .signal .. | .tick | .setItimer .. | .setSignalMask .. | .create _
  | .block _ | .unblock _ => True

/-! ## Mutual exclusion -/

/-- Nobody is inside while the word is 0, and at most one is while it is 1. -/
structure LockWord (s : FxSys) : Prop where
  locked : ∀ t, s.pc t = .inside → s.word = 1
  exclusive : Exclusive s

section Word
variable {s s' : FxSys} {t : Tid}

/-- Steps on which nobody comes inside and the word stays. -/
theorem LockWord.frame (h : LockWord s) (hword : s'.word = s.word)
    (hpc : ∀ u, s'.pc u = .inside → s.pc u = .inside) : LockWord s' where
  locked := fun u hu => hword.trans (h.locked u (hpc u hu))
  exclusive := fun u v hu hv => h.exclusive u v (hpc u hu) (hpc v hv)

theorem LockWord.goto {p : FxPc} (h : LockWord s) (hp : p ≠ .inside) :
    LockWord (s.goto t p) := by
  refine h.frame rfl ?_
  intro u hu
  simp only [FxSys.goto, Function.update_apply] at hu
  split at hu
  · exact absurd hu hp
  · exact hu

theorem LockWord.exit (h : LockWord s) : LockWord (s.exit t) := by
  refine h.frame rfl ?_
  intro u hu
  simp only [FxSys.exit] at hu
  split at hu
  · cases hu
  · exact hu

/-- Steps that concern the tasks and the table only. -/
theorem LockWord.of_tables (h : LockWord s) (ts : Tasks) (table : FutexTable) :
    LockWord { s with tasks := ts, table := table } :=
  h.frame rfl fun _ hu => hu

theorem fxRun_lockWord (h : LockWord s) : LockWord (fxRun s t (s.pc t)) := by
  cases hpc : s.pc t with
  | out => exact h
  | inside => exact h
  | cas =>
      simp only [fxRun]
      split
      · next hzero =>
        have hnone : ∀ u, s.pc u ≠ .inside := by
          intro u hu
          have := h.locked u hu
          omega
        constructor
        · exact fun _ _ => rfl
        · intro u v hu hv
          simp only [FxSys.goto, Function.update_apply] at hu hv
          split at hu <;> split at hv
          · next hut hvt => rw [hut, hvt]
          · exact absurd hv (hnone v)
          · exact absurd hu (hnone u)
          · exact absurd hu (hnone u)
      · exact h.goto (by simp)
  | waitCall =>
      simp only [fxRun]
      split
      · exact h.exit
      · split <;> exact h.goto (by simp)
  | search =>
      simp only [fxRun]
      split <;> exact h.goto (by simp)
  | register i => exact LockWord.goto (h.of_tables _ _) (by simp)
  | sleep => exact LockWord.goto (h.of_tables _ _) (by simp)
  | asleep => exact h.goto (by simp)
  | wakeCall =>
      simp only [fxRun]
      split
      · exact h.exit
      · split <;> exact h.goto (by simp)
  | wake i w => exact LockWord.goto (h.of_tables _ _) (by simp)

theorem fxStep_lockWord (h : LockWord s) (op : FxOp) : LockWord (fxStep s op) := by
  cases op with
  | lock t =>
      simp only [fxStep]
      split
      · exact h.goto (by simp)
      · exact h
  | unlock t =>
      simp only [fxStep]
      split
      · next hc =>
        -- the one who was inside has left, so nobody is
        have hout : ∀ u, u ≠ t → s.pc u ≠ .inside := fun u hut hu => hut (h.exclusive u t hu hc.2)
        constructor <;> intro u <;> simp only [FxSys.goto, Function.update_apply] <;> grind
      · exact h
  | run t =>
      simp only [fxStep]
      split
      · exact fxRun_lockWord h
      · exact h
  | syscall t =>
      simp only [fxStep]
      split
      · exact h.exit
      · exact h
  | create c =>
      simp only [fxStep]
      split
      · exact h
      · exact h.of_tables _ _
  | block t =>
      simp only [fxStep]
      split
      · exact h.of_tables _ _
      · exact h
  | signal t sig => exact h.of_tables _ _
  | tick => exact h.of_tables _ _
  | setItimer t ms => exact h.of_tables _ _
  | setSignalMask t mask => exact h.of_tables _ _
  | unblock t => exact h.of_tables _ _
  | otherWait i addr t => exact h.of_tables _ _
  | otherWake i w => exact h.of_tables _ _

theorem FxStart.lockWord (h : FxStart s) : LockWord s := by
  constructor
  · intro t ht
    rw [h.out t] at ht
    cases ht
  · intro t u ht
    rw [h.out t] at ht
    cases ht

end Word

/-! ## No lost wake-up -/

/-- The entry is on the word and names the thread. -/
def Registered (s : FxSys) (t : Tid) (i : Fin futexTableSize) : Prop :=
  (s.table i).used = true ∧ (s.table i).addr = s.addr ∧ (s.table i).tid = t

/-- The word is locked, or a wake is still to come. -/
def Pending (s : FxSys) : Prop := s.word = 1 ∨ ∃ p, (s.pc p).waking = true

/-- Who sleeps or is about to has an entry, who is about to sleep can count on a wake,
and as long as one sleeps somebody will wake it or come to take the lock. -/
structure FxInv (s : FxSys) : Prop where
  word : s.word = 0 ∨ s.word = 1
  live : ∀ t, s.pc t ≠ .out → (s.tasks t).used = true
  entry : ∀ t, Dormant s t → ∃ i, Registered s t i
  window : ∀ t, (s.pc t).entering = true → Pending s
  sleeper : ∀ t, Asleep s t → Pending s ∨ ∃ u, Coming s u

theorem FxStart.inv {s : FxSys} (h : FxStart s) : FxInv s where
  word := Or.inl h.word
  live := fun t ht => absurd (h.out t) ht
  entry := by simp [Dormant, Asleep, h.out]
  window := by simp [FxPc.entering, h.out]
  sleeper := by simp [Asleep, h.out]

theorem FxInv.not_stuck {s : FxSys} (h : FxInv s) : ¬ Stuck s := by
  rintro ⟨hzero, hnowake, ⟨t, ht⟩, hall⟩
  rcases h.sleeper t (hall t ht) with hp | ⟨u, hu⟩
  · rcases hp with hone | ⟨p, hp⟩
    · omega
    · rw [hnowake p] at hp
      cases hp
  · rcases hu with hcas | ⟨hpc, hst⟩
    · have := (hall u (by rw [hcas]; rfl)).1
      rw [hcas] at this
      cases this
    · exact hst (hall u (by rw [hpc]; rfl)).2

section Entries
variable {s : FxSys} {t u : Tid} {i j : Fin futexTableSize}

theorem firstEntry_none {table : FutexTable} {addr : Nat} (h : firstEntry table addr = none)
    (i : Fin futexTableSize) : ¬ ((table i).used = true ∧ (table i).addr = addr) := by
  have := List.find?_eq_none.mp h i (List.mem_finRange i)
  simpa using this

theorem Registered.held (h : Registered s u i) (hd : Dormant s u) : Held s i := by
  refine ⟨h.1, h.2.1, ?_⟩
  rw [h.2.2]
  exact hd

/-- A store into one entry leaves the others. -/
theorem registered_of_ne {table : FutexTable} {e : FutexEntry} {ts : Tasks} {pc : Tid → FxPc}
    (hne : j ≠ i) (h : Registered { s with table := table } u j) :
    Registered { s with table := Function.update table i e, tasks := ts, pc := pc } u j := by
  unfold Registered at h ⊢
  dsimp only at h ⊢
  rw [Function.update_of_ne hne]
  exact h

end Entries

section Steps
variable {s s' : FxSys} {t : Tid}

/-- Steps on which nobody begins to sleep: entries of sleepers and what they wait for
must be kept. -/
theorem FxInv.frame (h : FxInv s) (hword : s'.word = 0 ∨ s'.word = 1)
    (hlive : ∀ u, s'.pc u ≠ .out → (s'.tasks u).used = true)
    (hasleep : ∀ u, Asleep s' u → Asleep s u)
    (hsleep : ∀ u, s'.pc u = .sleep → s.pc u = .sleep)
    (hentry : ∀ u i, Dormant s' u → Registered s u i → Registered s' u i)
    (hentering : ∀ u, (s'.pc u).entering = true → (s.pc u).entering = true ∨ Pending s')
    (hpending : Pending s → Pending s')
    (hcoming : ∀ u, Coming s u → Pending s' ∨ ∃ v, Coming s' v) : FxInv s' := by
  constructor
  case word => exact hword
  case live => exact hlive
  case entry =>
    intro u hu
    obtain ⟨i, hi⟩ := h.entry u (hu.imp (hsleep u) (hasleep u))
    exact ⟨i, hentry u i hu hi⟩
  case window =>
    intro u hu
    rcases hentering u hu with hold | hp
    · exact hpending (h.window u hold)
    · exact hp
  case sleeper =>
    intro u hu
    rcases h.sleeper u (hasleep u hu) with hp | ⟨v, hv⟩
    · exact Or.inl (hpending hp)
    · exact hcoming v hv

/-- Steps that concern tasks and entries only: nobody falls asleep, and no sleeper loses
its entry. -/
theorem FxInv.of_tables {ts : Tasks} {table : FutexTable} (h : FxInv s)
    (hused : ∀ u, (s.tasks u).used = true → (ts u).used = true)
    (hstatus : ∀ u, s.pc u = .asleep → (ts u).status = .blocked → (s.tasks u).status = .blocked)
    (hentry : ∀ u i, Dormant { s with tasks := ts, table := table } u → Registered s u i →
      Registered { s with tasks := ts, table := table } u i) :
    FxInv { s with tasks := ts, table := table } := by
  refine h.frame h.word ?_ ?_ (fun _ hu => hu) hentry (fun _ hu => Or.inl hu) id ?_
  · exact fun u hu => hused u (h.live u hu)
  · exact fun u hu => ⟨hu.1, hstatus u hu.1 hu.2⟩
  · intro u hu
    right
    refine ⟨u, hu.imp id ?_⟩
    exact fun hb => ⟨hb.1, fun hblocked => hb.2 (hstatus u hb.1 hblocked)⟩

/-- Signals, timers, masks, other blocking and new tasks. -/
theorem FxInv.of_tasks {ts : Tasks} (h : FxInv s)
    (hused : ∀ u, (s.tasks u).used = true → (ts u).used = true)
    (hstatus : ∀ u, s.pc u = .asleep → (ts u).status = .blocked →
      (s.tasks u).status = .blocked) : FxInv { s with tasks := ts } :=
  h.of_tables hused hstatus fun _ _ _ hi => hi

theorem goto_fx (s : FxSys) (t u : Tid) (p : FxPc) :
    (s.goto t p).pc u = if u = t then p else s.pc u := by
  simp [FxSys.goto, Function.update_apply]

theorem goto_self (s : FxSys) (t : Tid) (p : FxPc) : (s.goto t p).pc t = p := by
  rw [goto_fx, if_pos rfl]

theorem goto_of_ne {u : Tid} (hut : u ≠ t) (s : FxSys) (p : FxPc) :
    (s.goto t p).pc u = s.pc u := by
  rw [goto_fx, if_neg hut]

/-- Pending wake-ups survive the move of a thread that is not about to wake. -/
theorem Pending.goto {p : FxPc} (h : Pending s) (hold : (s.pc t).waking = false) :
    Pending (s.goto t p) := by
  rcases h with hone | ⟨q, hq⟩
  · exact Or.inl hone
  · refine Or.inr ⟨q, ?_⟩
    rw [goto_of_ne]
    · exact hq
    · intro he
      rw [he, hold] at hq
      cases hq

/-- A runnable thread moves on, not to sleep. -/
theorem FxInv.move {p : FxPc} {w : Int} (h : FxInv s) (hr : Runnable s.tasks t)
    (hnew : p ≠ .sleep ∧ p ≠ .asleep) (hword : w = 0 ∨ w = 1)
    (hentering : p.entering = true → Pending ({ s with word := w }.goto t p))
    (hpending : Pending s → Pending ({ s with word := w }.goto t p))
    (hcoming : Coming s t → Pending ({ s with word := w }.goto t p) ∨ p = .cas) :
    FxInv ({ s with word := w }.goto t p) := by
  have hpc := goto_fx { s with word := w } t (p := p)
  refine h.frame hword ?_ ?_ ?_ (fun _ _ _ hi => hi) ?_ hpending ?_
  · intro u hu
    by_cases hut : u = t
    · rw [hut]
      exact hr.1
    · rw [hpc, if_neg hut] at hu
      exact h.live u hu
  · intro u hu
    rw [Asleep, hpc] at hu
    split at hu
    · exact absurd hu.1 hnew.2
    · exact hu
  · intro u hu
    rw [hpc] at hu
    split at hu
    · exact absurd hu hnew.1
    · exact hu
  · intro u hu
    rw [hpc] at hu
    split at hu
    · exact Or.inr (hentering hu)
    · exact Or.inl hu
  · intro u hu
    by_cases hut : u = t
    · rcases hcoming (hut ▸ hu) with hp | hcas
      · exact Or.inl hp
      · exact Or.inr ⟨t, Or.inl (by rw [goto_self, hcas])⟩
    · right
      refine ⟨u, ?_⟩
      rw [Coming, hpc, if_neg hut]
      exact hu

/-- A signal ends threads that nobody depends on. -/
theorem FxInv.exit (h : FxInv s)
    (hsafe : ∀ u, EndsWith s.tasks t u → (s.pc u).waking = false ∧ ¬ Coming s u) :
    FxInv (s.exit t) := by
  have hpc : ∀ u, (s.exit t).pc u = if EndsWith s.tasks t u then .out else s.pc u := fun _ => rfl
  have hasleep : ∀ u, Asleep (s.exit t) u → Asleep s u := by
    intro u hu
    rw [Asleep, hpc] at hu
    split at hu
    · cases hu.1
    · exact ⟨hu.1, taskExitCode_blocked hu.2⟩
  refine h.frame h.word ?_ hasleep ?_ (fun _ _ _ hi => hi) ?_ ?_ ?_
  · intro u hu
    change (taskExitCode s.tasks t u).used = true
    rw [taskExitCode_used]
    rw [hpc] at hu
    split at hu
    · exact absurd rfl hu
    · next hne => exact ⟨h.live u hu, hne⟩
  · intro u hu
    rw [hpc] at hu
    split at hu
    · cases hu
    · exact hu
  · intro u hu
    rw [hpc] at hu
    split at hu
    · cases hu
    · exact Or.inl hu
  · rintro (hone | ⟨p, hp⟩)
    · exact Or.inl hone
    · refine Or.inr ⟨p, ?_⟩
      rw [hpc, if_neg]
      · exact hp
      · intro he
        rw [(hsafe p he).1] at hp
        cases hp
  · intro u hu
    right
    refine ⟨u, ?_⟩
    have hne : ¬ EndsWith s.tasks t u := fun he => (hsafe u he).2 hu
    rw [Coming, hpc, if_neg hne]
    exact hu.imp id fun hb => ⟨hb.1, fun hblocked => hb.2 (taskExitCode_blocked hblocked)⟩

/-- A thread makes its entry, in place of none that a sleeper needs. -/
theorem FxInv.register {i : Fin futexTableSize} (h : FxInv s) (hr : Runnable s.tasks t)
    (hold : s.pc t = .register i) (hfree : ¬ Held s i) :
    FxInv ((s.enter i s.addr t).goto t .sleep) := by
  set s' := (s.enter i s.addr t).goto t .sleep with hs'
  have hself : s'.pc t = .sleep := goto_self _ t _
  have hother : ∀ u, u ≠ t → s'.pc u = s.pc u := fun u hut => goto_of_ne hut _ _
  have hpending : Pending s → Pending s' := fun hp =>
    Pending.goto (s := s.enter i s.addr t) hp (by change (s.pc t).waking = false; rw [hold]; rfl)
  constructor
  case word => exact h.word
  case live =>
    intro u hu
    by_cases hut : u = t
    · rw [hut]
      exact hr.1
    · rw [hother u hut] at hu
      exact h.live u hu
  case entry =>
    intro u hu
    by_cases hut : u = t
    · refine ⟨i, ?_⟩
      simp [Registered, hs', FxSys.goto, FxSys.enter, hut]
    · rw [Dormant, Asleep, hother u hut] at hu
      obtain ⟨j, hj⟩ := h.entry u hu
      have hji : j ≠ i := fun he => hfree (he ▸ hj.held hu)
      exact ⟨j, registered_of_ne hji hj⟩
  case window =>
    intro u hu
    by_cases hut : u = t
    · exact hpending (h.window t (by rw [hold]; rfl))
    · rw [hother u hut] at hu
      exact hpending (h.window u hu)
  case sleeper =>
    intro u hu
    exact Or.inl (hpending (h.window t (by rw [hold]; rfl)))

/-- A thread with an entry stores its status. The unlock that made the word 0 in the
meantime, if there was one, has not sent its wake yet. -/
theorem FxInv.block (h : FxInv s) (hr : Runnable s.tasks t) (hold : s.pc t = .sleep) :
    FxInv ({ s with tasks := taskBlock s.tasks t }.goto t .asleep) := by
  set s' := { s with tasks := taskBlock s.tasks t }.goto t .asleep with hs'
  have hother : ∀ u, u ≠ t → s'.pc u = s.pc u := fun u hut => goto_of_ne hut _ _
  have hst : ∀ u, (s'.tasks u).status = if u = t then .blocked else (s.tasks u).status :=
    taskBlock_status s.tasks t
  have hpending : Pending s' :=
    Pending.goto (s := { s with tasks := taskBlock s.tasks t })
      (h.window t (by rw [hold]; rfl)) (by change (s.pc t).waking = false; rw [hold]; rfl)
  constructor
  case word => exact h.word
  case live =>
    intro u hu
    change (taskBlock s.tasks t u).used = true
    rw [taskBlock_used]
    by_cases hut : u = t
    · rw [hut]
      exact hr.1
    · rw [hother u hut] at hu
      exact h.live u hu
  case entry =>
    intro u hu
    by_cases hut : u = t
    · rw [hut]
      exact h.entry t (Or.inl hold)
    · rw [Dormant, Asleep, hother u hut, hst, if_neg hut] at hu
      exact h.entry u hu
  case window => exact fun _ _ => hpending
  case sleeper => exact fun _ _ => Or.inl hpending

/-- A task that is woken sleeps no more, and nobody is put to sleep. -/
theorem takeOut_blocked {w u : Tid} (h : (taskUnblock s.tasks w u).status = .blocked) :
    (s.tasks u).status = .blocked ∧ (u = w → (s.tasks w).used = false) := by
  rw [taskUnblock_status] at h
  split at h
  · cases h
  · next hc =>
    refine ⟨h, ?_⟩
    intro huw
    by_contra hused
    exact hc ⟨huw, by simpa using hused, huw ▸ h⟩

/-- Taking an entry out leaves every thread that still sleeps with one. -/
theorem FxInv.takeOut_entry {i : Fin futexTableSize} {w u : Tid} {j : Fin futexTableSize}
    (h : FxInv s) (htake : TakesOut s i w) (hd : Dormant (s.takeOut i w) u)
    (hj : Registered s u j) : Registered (s.takeOut i w) u j := by
  apply registered_of_ne _ hj
  intro hji
  have hdormant : Dormant s u := hd.imp id fun ha => ⟨ha.1, (takeOut_blocked ha.2).1⟩
  obtain ⟨htid, hasleep⟩ := htake (hji ▸ hj.held hdormant)
  have huw : u = w := by rw [← htid, ← hji, hj.2.2]
  rcases hd with hs | ha
  · have hpc : s.pc w = .sleep := huw ▸ hs
    rw [hasleep.1] at hpc
    cases hpc
  · have hunused := (takeOut_blocked ha.2).2 huw
    rw [h.live w (by simp [hasleep.1])] at hunused
    cases hunused

/-- Another wake takes out an entry. -/
theorem FxInv.takeOut {i : Fin futexTableSize} {w : Tid} (h : FxInv s)
    (htake : TakesOut s i w) : FxInv (s.takeOut i w) := by
  refine h.of_tables ?_ ?_ (fun u j hd hj => h.takeOut_entry htake hd hj)
  · intro u hu
    rw [taskUnblock_used]
    exact hu
  · exact fun u _ hb => (takeOut_blocked hb).1

/-- An unlock is through with its wake. Another one is under way, or the word is
locked, or nobody is left whom it should have woken. -/
theorem FxInv.finish (h : FxInv s)
    (hlast : LastWake s t → NoneEntering s ∧ ∀ u, Asleep s u → ∃ v, v ≠ t ∧ Coming s v) :
    FxInv (s.goto t .out) := by
  have hother : ∀ u, u ≠ t → (s.goto t .out).pc u = s.pc u := fun u hut => goto_of_ne hut _ _
  have hne : ∀ u, (s.goto t .out).pc u ≠ .out → u ≠ t := by
    intro u hu hut
    rw [hut, goto_self] at hu
    exact hu rfl
  have hpending : Pending (s.goto t .out) ∨ LastWake s t := by
    by_cases hone : s.word = 1
    · exact Or.inl (Or.inl hone)
    · by_cases hmore : ∃ p, p ≠ t ∧ (s.pc p).waking = true
      · obtain ⟨p, hpt, hp⟩ := hmore
        exact Or.inl (Or.inr ⟨p, by rw [hother p hpt]; exact hp⟩)
      · right
        refine ⟨h.word.resolve_right hone, ?_⟩
        intro u hu
        by_contra hut
        exact hmore ⟨u, hut, hu⟩
  constructor
  case word => exact h.word
  case live =>
    intro u hu
    rw [hother u (hne u hu)] at hu
    exact h.live u hu
  case entry =>
    intro u hu
    have hut : u ≠ t := by
      apply hne
      rcases hu with hs | ha
      · simp [hs]
      · simp [ha.1]
    rw [Dormant, Asleep, hother u hut] at hu
    exact h.entry u hu
  case window =>
    intro u hu
    rcases hpending with hp | hl
    · exact hp
    · have hut : u ≠ t := by
        intro he
        rw [he, goto_self] at hu
        cases hu
      rw [hother u hut, (hlast hl).1 u] at hu
      cases hu
  case sleeper =>
    intro u hu
    rcases hpending with hp | hl
    · exact Or.inl hp
    · have hut : u ≠ t := hne u (by simp [hu.1])
      rw [Asleep, hother u hut] at hu
      obtain ⟨v, hvt, hv⟩ := (hlast hl).2 u hu
      right
      refine ⟨v, ?_⟩
      rw [Coming, hother v hvt]
      exact hv

/-- Who is about to wake another is not on the way to the lock. -/
theorem Coming.ne_of_waking {u : Tid} (h : Coming s u) (ht : (s.pc t).waking = true) : u ≠ t := by
  intro he
  rw [← he] at ht
  rcases h with hc | hc
  · rw [hc] at ht
    cases ht
  · rw [hc.1] at ht
    cases ht

/-- A wake takes out the entry it found: if anybody sleeps, the task it wakes comes for
the lock, or somebody else does. -/
theorem FxInv.wake {i : Fin futexTableSize} {w : Tid} (h : FxInv s)
    (hold : s.pc t = .wake i w) (hg : runGuard s t (.wake i w)) :
    FxInv ((s.takeOut i w).goto t .out) := by
  have hwaking : (s.pc t).waking = true := by
    rw [hold]
    rfl
  apply (h.takeOut hg.1).finish (t := t)
  intro hlast
  obtain ⟨hnone, hreach⟩ := hg.2 hlast
  refine ⟨hnone, ?_⟩
  intro u hu
  have hcoming : ∃ v, Coming (s.takeOut i w) v := by
    rcases hreach ⟨u, hu.1, (takeOut_blocked hu.2).1⟩ with hw | ⟨v, hv⟩
    · refine ⟨w, Or.inr ⟨hw.1, ?_⟩⟩
      intro hb
      have hunused := (takeOut_blocked hb).2 rfl
      rw [h.live w (by simp [hw.1])] at hunused
      cases hunused
    · refine ⟨v, hv.imp id ?_⟩
      exact fun hc => ⟨hc.1, fun hb => hc.2 (takeOut_blocked hb).1⟩
  obtain ⟨v, hv⟩ := hcoming
  exact ⟨v, hv.ne_of_waking (s := s.takeOut i w) hwaking, hv⟩

theorem fxRun_inv (h : FxInv s) (hr : Runnable s.tasks t) (hg : runGuard s t (s.pc t)) :
    FxInv (fxRun s t (s.pc t)) := by
  cases hpc : s.pc t with
  | out => exact h
  | inside => exact h
  | cas =>
      simp only [fxRun]
      split
      · exact h.move hr (by simp) (Or.inr rfl) (fun _ => Or.inl rfl) (fun _ => Or.inl rfl)
          (fun _ => Or.inl (Or.inl rfl))
      · next hne =>
        have hone := h.word.resolve_left hne
        exact h.move hr (by simp) h.word (fun _ => Or.inl hone) (fun _ => Or.inl hone)
          (fun _ => Or.inl (Or.inl hone))
  | waitCall =>
      rw [hpc] at hg
      have hawake : (s.pc t).waking = false := by rw [hpc]; rfl
      simp only [fxRun]
      split
      · next hterm => exact h.exit (hg hterm)
      · split
        · exact h.move hr (by simp) h.word (by simp [FxPc.entering]) (fun hp => hp.goto hawake)
            (fun _ => Or.inr rfl)
        · next hone =>
          have hpending : Pending (s.goto t .search) := Or.inl (not_not.mp hone)
          exact h.move hr (by simp) h.word (fun _ => hpending) (fun _ => hpending)
            (fun _ => Or.inl hpending)
  | search =>
      have hawake : (s.pc t).waking = false := by rw [hpc]; rfl
      have hpending := h.window t (by rw [hpc]; rfl)
      simp only [fxRun]
      split
      · exact h.move hr (by simp) h.word (by simp [FxPc.entering]) (fun hp => hp.goto hawake)
          (fun _ => Or.inr rfl)
      · exact h.move hr (by simp) h.word (fun _ => hpending.goto hawake)
          (fun hp => hp.goto hawake) (fun _ => Or.inl (hpending.goto hawake))
  | register i =>
      rw [hpc] at hg
      exact h.register hr hpc hg
  | sleep => exact h.block hr hpc
  | asleep =>
      have hawake : (s.pc t).waking = false := by rw [hpc]; rfl
      exact h.move hr (by simp) h.word (by simp [FxPc.entering]) (fun hp => hp.goto hawake)
        (fun _ => Or.inr rfl)
  | wakeCall =>
      rw [hpc] at hg
      simp only [fxRun]
      split
      · next hterm => exact h.exit (hg.1 hterm)
      · split
        · next hnone =>
          -- without an entry on the word nobody sleeps for it
          apply h.finish
          intro hlast
          refine ⟨hg.2 hnone hlast, ?_⟩
          intro u hu
          obtain ⟨i, hi⟩ := h.entry u (Or.inr hu)
          exact absurd ⟨hi.1, hi.2.1⟩ (firstEntry_none hnone i)
        · next i hi =>
          have hpending : Pending (s.goto t (.wake i (s.table i).tid)) :=
            Or.inr ⟨t, by rw [goto_self]; rfl⟩
          exact h.move hr (by simp) h.word (fun _ => hpending) (fun _ => hpending)
            (fun _ => Or.inl hpending)
  | wake i w =>
      rw [hpc] at hg
      exact h.wake hpc hg

theorem fxStep_inv (h : FxInv s) {op : FxOp} (hg : fxGuard s op) : FxInv (fxStep s op) := by
  cases op with
  | lock t =>
      simp only [fxStep]
      split
      · next hc =>
        have hawake : (s.pc t).waking = false := by rw [hc.2]; rfl
        exact h.move hc.1 (by simp) h.word (by simp [FxPc.entering]) (fun hp => hp.goto hawake)
          (fun _ => Or.inr rfl)
      · exact h
  | unlock t =>
      simp only [fxStep]
      split
      · next hc =>
        have hpending : Pending ({ s with word := 0 }.goto t .wakeCall) :=
          Or.inr ⟨t, by rw [goto_self]; rfl⟩
        exact h.move hc.1 (by simp) (Or.inl rfl) (fun _ => hpending) (fun _ => hpending)
          (fun _ => Or.inl hpending)
      · exact h
  | run t =>
      simp only [fxStep]
      split
      · next hr => exact fxRun_inv h hr hg
      · exact h
  | syscall t =>
      simp only [fxStep]
      split
      · next hc => exact h.exit (hg hc.2.2)
      · exact h
  | signal t sig =>
      refine h.of_tasks (fun u hu => (taskSendSignal_used s.tasks t sig u).trans hu) ?_
      intro u _ hb
      by_contra hne
      by_cases hut : u = t
      · exact hne ((taskSendSignal_status (Or.inl (hut ▸ hne))).symm.trans hb)
      · exact hne ((taskSendSignal_status (Or.inr hut)).symm.trans hb)
  | tick =>
      have hused := taskItimerTick_field Task.used (fun _ _ => rfl) (fun _ _ => rfl)
        (fun _ _ => rfl) s.tasks
      refine h.of_tasks (fun u hu => (hused u).trans hu) ?_
      intro u _ hb
      by_contra hne
      exact hne ((taskItimerTick_status (Or.inl hne)).symm.trans hb)
  | setItimer t ms =>
      have hused := taskSetItimer_field Task.used (fun _ _ _ => rfl) s.tasks t ms
      have hstatus := taskSetItimer_field Task.status (fun _ _ _ => rfl) s.tasks t ms
      exact h.of_tasks (fun u hu => (hused u).trans hu) (fun u _ hb => (hstatus u).symm.trans hb)
  | setSignalMask t mask =>
      have hused := taskSetSignalMask_field Task.used (fun _ _ => rfl) s.tasks t mask
      have hstatus := taskSetSignalMask_field Task.status (fun _ _ => rfl) s.tasks t mask
      exact h.of_tasks (fun u hu => (hused u).trans hu) (fun u _ hb => (hstatus u).symm.trans hb)
  | create c =>
      simp only [fxStep]
      split
      · exact h
      · next id hid =>
        have hunused := (Creation.slot_spec hid).2
        refine h.of_tasks ?_ ?_
        · intro u hu
          rw [modify_apply]
          split
          · exact Creation.init_used _ _ _
          · exact hu
        · intro u hu hb
          have hne : u ≠ id := by
            intro he
            have hused := h.live u (by simp [hu])
            rw [he, hunused] at hused
            cases hused
          rwa [modify_of_ne hne] at hb
  | block t =>
      simp only [fxStep]
      split
      · next hc =>
        refine h.of_tasks (fun u hu => (taskBlock_used s.tasks t u).trans hu) ?_
        intro u hu hb
        have hne : u ≠ t := by
          intro he
          rw [he] at hu
          rcases hc with hc | hc <;> rw [hu] at hc <;> cases hc
        rwa [taskBlock_status, if_neg hne] at hb
      · exact h
  | unblock t =>
      exact h.of_tasks (fun u hu => (taskUnblock_used s.tasks t u).trans hu)
        (fun u _ hb => (takeOut_blocked hb).1)
  | otherWait i addr t =>
      refine h.of_tables (fun _ hu => hu) (fun _ _ hb => hb) ?_
      intro u j hd hj
      have hji : j ≠ i := fun he => hg (he ▸ hj.held hd)
      exact registered_of_ne hji hj
  | otherWake i w => exact h.takeOut hg

end Steps

/-- Three threads and an unlocked word. -/
def threeThreads : FxSys where
  tasks := fun t =>
    { Task.empty with used := t = 1 ∨ t = 2 ∨ t = 3, isUser := true, waiter := none }
  table := fun _ => ⟨0, 0, false⟩
  addr := 0xC00000
  word := 0
  pc := fun _ => .out

theorem threeThreads_start : FxStart threeThreads where
  out := fun _ => rfl
  word := rfl

/-- The first thread sleeps until the third unlocks, then takes the lock. -/
def handOver : List FxOp :=
  [.lock 3, .run 3, .lock 1, .run 1, .run 1, .run 1, .run 1, .run 1, .unlock 3, .run 3, .run 3,
    .run 1, .run 1]

section Decide
variable (s : FxSys) (t w : Tid) (i : Fin futexTableSize)

instance : Decidable (Asleep s t) := inferInstanceAs (Decidable (_ ∧ _))

instance : Decidable (Coming s t) := inferInstanceAs (Decidable (_ ∨ _ ∧ _))

instance : Decidable (Held s i) := inferInstanceAs (Decidable (_ ∧ _ ∧ (_ ∨ _)))

instance : Decidable (SafeCall s t) := inferInstanceAs (Decidable (_ → ∀ _, _ → _ ∧ ¬ _))

instance : Decidable (TakesOut s i w) := inferInstanceAs (Decidable (_ → _ ∧ _))

instance : Decidable (LastWake s t) := inferInstanceAs (Decidable (_ ∧ ∀ _, _ → _))

instance : Decidable (NoneEntering s) := inferInstanceAs (Decidable (∀ _, _))

instance : Decidable (Reaches s w) := inferInstanceAs (Decidable ((∃ _, _) → _ ∨ ∃ _, _))

instance (p : FxPc) : Decidable (runGuard s t p) :=
  match p with
  | .waitCall => inferInstanceAs (Decidable (SafeCall s t))
  | .register i => inferInstanceAs (Decidable (¬ Held s i))
  | .wakeCall => inferInstanceAs (Decidable (SafeCall s t ∧ (_ → _ → _)))
  | .wake i w => inferInstanceAs (Decidable (TakesOut s i w ∧ (_ → _ ∧ _)))
  | .out | .cas | .search | .sleep | .asleep | .inside => isTrue trivial

instance (op : FxOp) : Decidable (fxGuard s op) :=
  match op with
  | .run t => inferInstanceAs (Decidable (runGuard s t (s.pc t)))
  | .syscall t => inferInstanceAs (Decidable (SafeCall s t))
  | .otherWait i _ _ => inferInstanceAs (Decidable (¬ Held s i))
  | .otherWake i w => inferInstanceAs (Decidable (TakesOut s i w))
  | .lock _ | .unlock _ | .signal .. | .tick | .setItimer .. | .setSignalMask .. | .create _
  | .block _ | .unblock _ => isTrue trivial

end Decide

/-- A timer signal wakes the first thread, which waits again behind the entry it
left; the second waits behind both. The unlock of the third wakes the first, whose
own unlock then only finds the second of its entries. -/
def staleEntry : List FxOp :=
  [.lock 3, .run 3,
    .lock 1, .run 1, .run 1, .run 1, .run 1, .run 1, .signal 1 sigalrm,
    .run 1, .run 1, .run 1, .run 1, .run 1, .run 1,
    .lock 2, .run 2, .run 2, .run 2, .run 2, .run 2,
    .unlock 3, .run 3, .run 3, .run 1, .run 1, .unlock 1, .run 1, .run 1]

/-- Two waiters find the same entry free, and the second stores over the first. -/
def sharedEntry : List FxOp :=
  [.lock 3, .run 3, .lock 1, .run 1, .run 1, .run 1, .lock 2, .run 2, .run 2, .run 2,
    .run 1, .run 1, .run 2, .run 2, .unlock 3, .run 3, .run 3, .run 2, .run 2, .unlock 2, .run 2]

example : Stuck (sharedEntry.foldl fxStep threeThreads) := by
  unfold Stuck
  decide +kernel

end OriaOS.Sync
