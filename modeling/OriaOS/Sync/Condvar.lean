import OriaOS.Sync.Semaphore

/-!
# Condition variables

`cv_wait`, `cv_signal` and `cv_broadcast` of `condvar.c` on one condition
variable with one semaphore as its mutex, together with taking and releasing
that mutex. The section in which `cv_wait` queues itself is ended by the `sti`
inside `sem_post`, so queueing and the release of the mutex are one step; the
wake-up of `sem_post` and the sleep come behind it.

Each release inside `cv_wait` is numbered. The numbers tell which waits a
broadcast must wake, and in which order waiters are dequeued.
-/

namespace OriaOS.Sync

open OriaOS.Lib OriaOS.Sched

variable {k : Nat} {w : Option Tid}

structure CondVar where
  waiters : Ring Tid waiterMax

def cvEnqueue (c : CondVar) (tid : Tid) : Option CondVar :=
  (c.waiters.offer tid).map fun ring => ⟨ring⟩

def cvDequeue (c : CondVar) : Option Tid × CondVar :=
  match c.waiters.poll with
  | none => (none, c)
  | some (tid, ring) => (some tid, ⟨ring⟩)

def CondVar.queue (c : CondVar) : List Tid := c.waiters.contents

theorem cvEnqueue_queue {c c' : CondVar} {tid : Tid} (h : cvEnqueue c tid = some c') :
    c'.queue = c.queue ++ [tid] := by
  obtain ⟨ring, hring, rfl⟩ := Option.map_eq_some_iff.mp h
  exact Ring.contents_offer hring

theorem cvDequeue_queue (c : CondVar) :
    (cvDequeue c).1 = c.queue.head? ∧ (cvDequeue c).2.queue = c.queue.tail := by
  unfold cvDequeue
  cases h : c.waiters.poll with
  | none =>
      have hnil : c.queue = [] := Ring.contents_of_poll_none h
      simp [hnil]
  | some p =>
      have hcons : c.queue = p.1 :: p.2.contents := Ring.contents_of_poll_some h
      rw [hcons]
      exact ⟨rfl, rfl⟩

/-! ## Tasks at the condition variable -/

/-- Where a task is. The calls of `cv_signal` and `cv_broadcast` remember whether
their caller has the mutex, and a broadcast how many waits were released when it
started. -/
inductive CvPc where
  | idle
  | locked
  /-- In `sem_wait` on the mutex: at its top, in the ring, in `task_block`. -/
  | lockTop
  | lockQueued
  | lockBlocked
  /-- Behind the section of `sem_post`, in an unlock. -/
  | unlocked (w : Option Tid)
  /-- `cv_wait` found its ring full, before and behind its `sem_post`. -/
  | full
  | fullPosted (w : Option Tid)
  /-- `cv_wait` behind its section, before the store of `task_block`, and in it. -/
  | released (k : Nat) (w : Option Tid)
  | dozing (k : Nat)
  | asleep (k : Nat)
  /-- `cv_signal` behind its section. -/
  | signalled (mutex : Bool) (w : Option Tid)
  /-- The loop of `cv_broadcast`, and its body. -/
  | broadcast (mutex : Bool) (since : Nat)
  | waking (mutex : Bool) (since : Nat) (w : Tid)
  deriving DecidableEq

namespace CvPc

/-- The task has the mutex. -/
@[simp] def holds : CvPc → Bool
  | .locked | .full => true
  | .signalled mutex _ | .broadcast mutex _ | .waking mutex _ _ => mutex
  | .idle | .lockTop | .lockQueued | .lockBlocked | .unlocked _ | .fullPosted _
  | .released .. | .dozing _ | .asleep _ => false

/-- The waiter on the mutex the task is about to wake. -/
@[simp] def lockHeld : CvPc → Option Tid
  | .unlocked w | .fullPosted w | .released _ w => w
  | .idle | .locked | .lockTop | .lockQueued | .lockBlocked | .full | .dozing _ | .asleep _
  | .signalled .. | .broadcast .. | .waking .. => none

/-- The waiter on the condition variable the task is about to wake. -/
@[simp] def cvHeld : CvPc → Option Tid
  | .signalled _ w => w
  | .waking _ _ w => some w
  | .idle | .locked | .lockTop | .lockQueued | .lockBlocked | .unlocked _ | .full
  | .fullPosted _ | .released .. | .dozing _ | .asleep _ | .broadcast .. => none

/-- The number of the release, while the wait lasts. -/
@[simp] def ticket : CvPc → Option Nat
  | .released k _ | .dozing k | .asleep k => some k
  | .idle | .locked | .lockTop | .lockQueued | .lockBlocked | .unlocked _ | .full
  | .fullPosted _ | .signalled .. | .broadcast .. | .waking .. => none

/-- Where a call of `cv_signal` or `cv_broadcast` returns to. -/
@[simp] def caller : Bool → CvPc
  | true => .locked
  | false => .idle

/-- Where the loop of `cv_broadcast` goes with what it dequeued. -/
@[simp] def loop (mutex : Bool) (since : Nat) : Option Tid → CvPc
  | none => caller mutex
  | some w => .waking mutex since w

end CvPc

/-- `issued` counts the releases inside `cv_wait`, `woken` lists the numbers of
the waits that were dequeued. -/
structure CvSys where
  tasks : Tasks
  cv : CondVar
  mutex : Semaphore
  pc : Tid → CvPc
  issued : Nat
  woken : List Nat

namespace CvSys

def goto (s : CvSys) (t : Tid) (p : CvPc) : CvSys :=
  { s with pc := Function.update s.pc t p }

/-- The section of `sem_post` on the mutex, and where its caller goes. -/
def postMutex (s : CvSys) (t : Tid) (next : Option Tid → CvPc) : CvSys :=
  let (w, m) := semDequeue s.mutex
  { s with mutex := { m with value := int8 (m.value + 1) } }.goto t (next w)

/-- `task_unblock` on what a section dequeued. -/
def unblock (s : CvSys) (w : Option Tid) : CvSys :=
  match w with
  | none => s
  | some w => { s with tasks := taskUnblock s.tasks w }

/-- A dequeue of the condition variable, and where its caller goes. -/
def dequeueCv (s : CvSys) (t : Tid) (next : Option Tid → CvPc) : CvSys :=
  let (w, c) := cvDequeue s.cv
  let woken := match w.bind fun u => (s.pc u).ticket with
    | none => s.woken
    | some k => s.woken ++ [k]
  { s with cv := c, woken := woken }.goto t (next w)

end CvSys

inductive CvCall where
  | lock
  | unlock
  | wait
  | signal
  | broadcast

/-- The first step of a call. `cv_wait` and the unlock are made with the mutex. -/
def cvCall (s : CvSys) (t : Tid) : CvPc → CvCall → CvSys
  | .idle, .lock => s.goto t .lockTop
  | .locked, .unlock => s.postMutex t .unlocked
  | .locked, .wait =>
      match cvEnqueue s.cv t with
      | none => s.goto t .full
      | some c => { s with cv := c, issued := s.issued + 1 }.postMutex t (.released s.issued)
  | .idle, .signal => s.dequeueCv t (.signalled false)
  | .locked, .signal => s.dequeueCv t (.signalled true)
  | .idle, .broadcast => s.goto t (.broadcast false s.issued)
  | .locked, .broadcast => s.goto t (.broadcast true s.issued)
  | _, _ => s

/-- The next step of a call under way. -/
def cvRun (s : CvSys) (t : Tid) : CvPc → CvSys
  | .lockTop =>
      if 0 < s.mutex.value then
        { s with mutex := { s.mutex with value := s.mutex.value - 1 } }.goto t .locked
      else
        match semEnqueue s.mutex t with
        | none => s
        | some m => { s with mutex := m }.goto t .lockQueued
  | .lockQueued => { s with tasks := taskBlock s.tasks t }.goto t .lockBlocked
  | .lockBlocked => s.goto t .lockTop
  | .unlocked w => (s.unblock w).goto t .idle
  | .full => s.postMutex t .fullPosted
  | .fullPosted w => (s.unblock w).goto t .lockTop
  | .released k w => (s.unblock w).goto t (.dozing k)
  | .dozing k => { s with tasks := taskBlock s.tasks t }.goto t (.asleep k)
  | .asleep _ => s.goto t .lockTop
  | .signalled mutex w => (s.unblock w).goto t (.caller mutex)
  | .broadcast mutex since => s.dequeueCv t (.loop mutex since)
  | .waking mutex since w => (s.unblock (some w)).goto t (.broadcast mutex since)
  | .idle | .locked => s

inductive CvOp where
  | call (t : Tid) (c : CvCall)
  | run (t : Tid)

def cvStep (s : CvSys) : CvOp → CvSys
  | .call t c => if Runnable s.tasks t then cvCall s t (s.pc t) c else s
  | .run t => if Runnable s.tasks t then cvRun s t (s.pc t) else s

/-- The mutex is free and nobody is at it or at the condition variable. -/
structure CvStart (s : CvSys) : Prop where
  idle : ∀ t, s.pc t = .idle
  cv : s.cv.queue = []
  queue : s.mutex.queue = []
  value : s.mutex.value = 1
  woken : s.woken = []

/-! ## What waiters may rely on -/

/-- The wait has released the mutex and nothing has made it run again since. -/
def Unwoken (s : CvSys) (t : Tid) : Prop :=
  (∃ k w, s.pc t = .released k w) ∨ (∃ k, s.pc t = .dozing k) ∨
    (∃ k, s.pc t = .asleep k) ∧ (s.tasks t).status = .blocked

/-- Some call has dequeued the waiter and is about to wake it. -/
def BeingWoken (s : CvSys) (t : Tid) : Prop := ∃ p, (s.pc p).cvHeld = some t

structure CvOk (s : CvSys) : Prop where
  /-- A broadcast returns when it finds the ring empty. Every wait released before
  it started has then been woken, or another call is waking it. -/
  broadcast : ∀ p mutex since, s.pc p = .broadcast mutex since → (cvDequeue s.cv).1 = none →
    ∀ t k, (s.pc t).ticket = some k → k < since → Unwoken s t → BeingWoken s t
  /-- A signal dequeues the oldest wait, so none that is older than any other. -/
  signal : ∀ t k, (s.pc t).ticket = some k → Unwoken s t → BeingWoken s t ∨
    ∃ w j, (cvDequeue s.cv).1 = some w ∧ (s.pc w).ticket = some j ∧ j ≤ k
  /-- What is dequeued sleeps, so that waking it makes it runnable. -/
  effective : ∀ p w, (s.pc p).cvHeld = some w →
    (∃ k, s.pc w = .asleep k) ∧ (s.tasks w).used = true ∧ (s.tasks w).status = .blocked
  fifo : s.woken.Pairwise (· < ·)
  /-- Who is behind `cv_wait` has the mutex, alone. -/
  mutex : ∀ t, (s.pc t).holds = true →
    s.mutex.value = 0 ∧ ∀ u, (s.pc u).holds = true → u = t

def CvPc.isAsleep : CvPc → Bool
  | .asleep _ => true
  | _ => false

/-- The next step of the task dequeues from the condition variable. -/
def CvPc.dequeues : CvPc → Option CvCall → Bool
  | .idle, some .signal | .locked, some .signal | .broadcast .., none => true
  | _, _ => false

/-- The condition on the steps: a signal or broadcast that dequeues a waiter finds
it past the store of `task_block`. -/
def cvGuard (s : CvSys) : CvOp → Prop
  | .call t c => (s.pc t).dequeues (some c) = true →
      ∀ w, s.cv.queue.head? = some w → (s.pc w).isAsleep = true
  | .run t => (s.pc t).dequeues none = true →
      ∀ w, s.cv.queue.head? = some w → (s.pc w).isAsleep = true

instance (s : CvSys) (op : CvOp) : Decidable (cvGuard s op) :=
  match op with
  | .call .. => inferInstanceAs (Decidable (_ → ∀ _, _ → _))
  | .run _ => inferInstanceAs (Decidable (_ → ∀ _, _ → _))

/-! ## The ring of the mutex -/

/-- Who is in the ring of the mutex, or dequeued and about to be woken, is in
`sem_wait` on it and stays there, and is so once. -/
structure LockInv (s : CvSys) : Prop where
  nodup : s.mutex.queue.Nodup
  queued : ∀ w ∈ s.mutex.queue,
    s.pc w = .lockQueued ∨ s.pc w = .lockBlocked ∧ (s.tasks w).status = .blocked
  held : ∀ p w, (s.pc p).lockHeld = some w → w ∉ s.mutex.queue ∧
    (s.pc w = .lockQueued ∨ s.pc w = .lockBlocked ∧ (s.tasks w).status = .blocked)
  once : ∀ p q w, (s.pc p).lockHeld = some w → (s.pc q).lockHeld = some w → p = q

section Lock
variable {s s' : CvSys} {t : Tid} {p' : CvPc}

/-- A task outside `sem_wait` moves on, and nobody in it changes. -/
theorem LockInv.move (h : LockInv s) (hq : s'.mutex.queue = s.mutex.queue)
    (hpc : ∀ u, s'.pc u = if u = t then p' else s.pc u)
    (hst : ∀ u, u ≠ t → s.pc u = .lockBlocked → (s'.tasks u).status = (s.tasks u).status)
    (hold : s.pc t ≠ .lockQueued ∧ (s.pc t = .lockBlocked → (s.tasks t).status ≠ .blocked))
    (hnew : p'.lockHeld = none) : LockInv s' := by
  obtain ⟨hnodup, hqueued, hheld, honce⟩ := h
  constructor <;> simp only [hq, hpc] <;> grind

theorem LockInv.enqueue (h : LockInv s) (htop : s.pc t = .lockTop)
    (hq : s'.mutex.queue = s.mutex.queue ++ [t])
    (hpc : ∀ u, s'.pc u = if u = t then .lockQueued else s.pc u)
    (htasks : s'.tasks = s.tasks) : LockInv s' := by
  have hnotin : t ∉ s.mutex.queue := by
    intro hmem
    rcases h.queued t hmem with he | he <;> simp [htop] at he
  have hlockHeld : CvPc.lockHeld .lockQueued = none := rfl
  obtain ⟨hnodup, hqueued, hheld, honce⟩ := h
  constructor <;> simp only [hq, hpc, htasks] <;> grind

theorem LockInv.block (h : LockInv s) (hq : s'.mutex.queue = s.mutex.queue)
    (hpc : ∀ u, s'.pc u = if u = t then .lockBlocked else s.pc u)
    (hst : ∀ u, (s'.tasks u).status = if u = t then .blocked else (s.tasks u).status) :
    LockInv s' := by
  have hlockHeld : CvPc.lockHeld .lockBlocked = none := rfl
  obtain ⟨hnodup, hqueued, hheld, honce⟩ := h
  constructor <;> simp only [hq, hpc, hst] <;> grind

/-- A post takes the front of the ring with it. -/
theorem LockInv.post (h : LockInv s) (hold : (s.pc t).holds = true)
    (hq : s'.mutex.queue = s.mutex.queue.tail)
    (hpc : ∀ u, s'.pc u = if u = t then p' else s.pc u)
    (hnew : p'.lockHeld = s.mutex.queue.head?) (htasks : s'.tasks = s.tasks) : LockInv s' := by
  have hout : s.pc t ≠ .lockQueued ∧ s.pc t ≠ .lockBlocked := by
    constructor <;> intro he <;> simp [he, CvPc.holds] at hold
  cases hfront : s.mutex.queue with
  | nil =>
      refine h.move ?_ hpc ?_ ?_ ?_
      · simp [hq, hfront]
      · intro u _ _
        rw [htasks]
      · exact ⟨hout.1, fun he => absurd he hout.2⟩
      · rw [hnew, hfront]
        rfl
  | cons w rest =>
      have hnodup : (w :: rest).Nodup := hfront ▸ h.nodup
      have hmem : ∀ u, u ∈ s.mutex.queue ↔ u = w ∨ u ∈ rest := by simp [hfront]
      have hq' : s'.mutex.queue = rest := by simp [hq, hfront]
      have hnew' : p'.lockHeld = some w := by rw [hnew, hfront]; rfl
      obtain ⟨-, hqueued, hheld, honce⟩ := h
      constructor <;> simp only [hq', hpc, htasks] <;> grind

/-- The waiter a post has dequeued is woken. -/
theorem LockInv.wake {w : Tid} (h : LockInv s) (hold : (s.pc t).lockHeld = some w)
    (hq : s'.mutex.queue = s.mutex.queue)
    (hpc : ∀ u, s'.pc u = if u = t then p' else s.pc u)
    (hnew : p'.lockHeld = none)
    (hst : ∀ u, u ≠ w → (s'.tasks u).status = (s.tasks u).status) : LockInv s' := by
  have hout : s.pc t ≠ .lockQueued ∧ s.pc t ≠ .lockBlocked := by
    constructor <;> intro he <;> simp [he, CvPc.lockHeld] at hold
  obtain ⟨hnodup, hqueued, hheld, honce⟩ := h
  constructor <;> simp only [hq, hpc] <;> grind

end Lock

/-! ## The ring of the condition variable -/

/-- The ring holds the waits that nobody is waking, in the order of their release. -/
structure WaitInv (s : CvSys) : Prop where
  nodup : s.cv.queue.Nodup
  queued : ∀ w ∈ s.cv.queue, Unwoken s w
  unwoken : ∀ t, Unwoken s t → t ∈ s.cv.queue ∨ BeingWoken s t
  held : ∀ p w, (s.pc p).cvHeld = some w →
    w ∉ s.cv.queue ∧ (∃ k, s.pc w = .asleep k) ∧ (s.tasks w).status = .blocked
  once : ∀ p q w, (s.pc p).cvHeld = some w → (s.pc q).cvHeld = some w → p = q
  ordered : s.cv.queue.Pairwise fun a b =>
    ∀ j k, (s.pc a).ticket = some j → (s.pc b).ticket = some k → j < k
  issued : ∀ t k, (s.pc t).ticket = some k → k < s.issued
  after : ∀ j ∈ s.woken, ∀ w ∈ s.cv.queue, ∀ k, (s.pc w).ticket = some k → j < k
  past : ∀ j ∈ s.woken, j < s.issued
  fifo : s.woken.Pairwise (· < ·)

section Wait
variable {s s' : CvSys} {t : Tid} {p' : CvPc}

/-- A wait that is not woken has a number. -/
theorem Unwoken.ticket (h : Unwoken s t) : ∃ k, (s.pc t).ticket = some k := by
  rcases h with ⟨k, w, hpc⟩ | ⟨k, hpc⟩ | ⟨⟨k, hpc⟩, -⟩ <;> exact ⟨k, by rw [hpc]; rfl⟩

/-- The order of the ring only depends on the numbers of those in it. -/
theorem pairwise_ticket {l : List Tid} {pc pc' : Tid → CvPc}
    (h : l.Pairwise fun a b => ∀ j k, (pc a).ticket = some j → (pc b).ticket = some k → j < k)
    (heq : ∀ u ∈ l, (pc' u).ticket = (pc u).ticket) :
    l.Pairwise fun a b => ∀ j k, (pc' a).ticket = some j → (pc' b).ticket = some k → j < k := by
  refine h.imp_of_mem ?_
  intro a b ha hb hlt j k hj hk
  rw [heq a ha] at hj
  rw [heq b hb] at hk
  exact hlt j k hj hk

/-- Steps that leave the ring alone and keep, for every task, whether it waits, its
number and what it holds. -/
theorem WaitInv.frame (h : WaitInv s) (hcv : s'.cv.queue = s.cv.queue) (hissued : s'.issued = s.issued)
    (hwoken : s'.woken = s.woken) (hunwoken : ∀ u, Unwoken s' u ↔ Unwoken s u)
    (hticket : ∀ u k, (s'.pc u).ticket = some k → (s.pc u).ticket = some k)
    (hheld : ∀ u, (s'.pc u).cvHeld = (s.pc u).cvHeld)
    (hasleep : ∀ u k, s.pc u = .asleep k → (s.tasks u).status = .blocked →
      s'.pc u = .asleep k ∧ (s'.tasks u).status = .blocked) : WaitInv s' := by
  have hsame : ∀ u ∈ s.cv.queue, (s'.pc u).ticket = (s.pc u).ticket := by
    intro u hu
    obtain ⟨k, hk⟩ := ((hunwoken u).mpr (h.queued u hu)).ticket
    rw [hk, hticket u k hk]
  constructor
  case nodup => rw [hcv]; exact h.nodup
  case queued =>
    intro w hw
    rw [hcv] at hw
    exact (hunwoken w).mpr (h.queued w hw)
  case unwoken =>
    intro u hu
    simp only [hcv, BeingWoken, hheld]
    exact h.unwoken u ((hunwoken u).mp hu)
  case held =>
    intro p w hp
    rw [hheld] at hp
    obtain ⟨hnotin, ⟨k, hk⟩, hb⟩ := h.held p w hp
    obtain ⟨hk', hb'⟩ := hasleep w k hk hb
    rw [hcv]
    exact ⟨hnotin, ⟨k, hk'⟩, hb'⟩
  case once =>
    intro p q w hp hq
    rw [hheld] at hp hq
    exact h.once p q w hp hq
  case ordered => rw [hcv]; exact pairwise_ticket h.ordered hsame
  case issued =>
    intro u k hk
    rw [hissued]
    exact h.issued u k (hticket u k hk)
  case after =>
    intro j hj w hw k hk
    rw [hwoken] at hj
    rw [hcv] at hw
    exact h.after j hj w hw k (hticket w k hk)
  case past => rw [hwoken, hissued]; exact h.past
  case fifo => rw [hwoken]; exact h.fifo

/-- A task outside `cv_wait`, or behind its sleep, moves on. -/
theorem WaitInv.move (h : WaitInv s) (hcv : s'.cv.queue = s.cv.queue) (hissued : s'.issued = s.issued)
    (hwoken : s'.woken = s.woken) (hpc : ∀ u, s'.pc u = if u = t then p' else s.pc u)
    (hst : ∀ u k, u ≠ t → s.pc u = .asleep k → (s'.tasks u).status = (s.tasks u).status)
    (hold : ¬ Unwoken s t) (hheld : (s.pc t).cvHeld = none)
    (hticket : p'.ticket = none) (hnew : p'.cvHeld = none) : WaitInv s' := by
  have hnew' : ¬ Unwoken s' t := by
    intro hu
    obtain ⟨k, hk⟩ := hu.ticket
    rw [hpc, if_pos rfl, hticket] at hk
    cases hk
  apply h.frame hcv hissued hwoken
  · intro u
    by_cases hut : u = t
    · subst hut
      exact iff_of_false hnew' hold
    · simp only [Unwoken, hpc u, if_neg hut]
      grind
  · grind
  · grind
  · grind [Unwoken]

/-- A wait goes on towards its sleep. -/
theorem WaitInv.advance (h : WaitInv s) (hcv : s'.cv.queue = s.cv.queue)
    (hissued : s'.issued = s.issued) (hwoken : s'.woken = s.woken)
    (hpc : ∀ u, s'.pc u = if u = t then p' else s.pc u)
    (hst : ∀ u j, u ≠ t → s.pc u = .asleep j → (s'.tasks u).status = (s.tasks u).status)
    (hold : (∃ w, s.pc t = .released k w) ∨ s.pc t = .dozing k)
    (hnew : p' = .dozing k ∨ p' = .asleep k ∧ (s'.tasks t).status = .blocked) : WaitInv s' := by
  have hwaits : Unwoken s t := by
    rcases hold with ⟨w, hw⟩ | hd
    · exact Or.inl ⟨k, w, hw⟩
    · exact Or.inr (Or.inl ⟨k, hd⟩)
  have hwaits' : Unwoken s' t := by
    rcases hnew with hd | ⟨ha, hb⟩
    · exact Or.inr (Or.inl ⟨k, by rw [hpc, if_pos rfl, hd]⟩)
    · exact Or.inr (Or.inr ⟨⟨k, by rw [hpc, if_pos rfl, ha]⟩, hb⟩)
  have htickets : (s.pc t).ticket = some k ∧ p'.ticket = some k := by
    constructor
    · rcases hold with ⟨w, hw⟩ | hd
      · rw [hw]; rfl
      · rw [hd]; rfl
    · rcases hnew with hd | ⟨ha, -⟩
      · rw [hd]; rfl
      · rw [ha]; rfl
  have hholds : (s.pc t).cvHeld = none ∧ p'.cvHeld = none := by
    constructor
    · rcases hold with ⟨w, hw⟩ | hd
      · rw [hw]; rfl
      · rw [hd]; rfl
    · rcases hnew with hd | ⟨ha, -⟩
      · rw [hd]; rfl
      · rw [ha]; rfl
  apply h.frame hcv hissued hwoken
  · intro u
    by_cases hut : u = t
    · subst hut
      exact iff_of_true hwaits' hwaits
    · simp only [Unwoken, hpc u, if_neg hut]
      grind
  · grind
  · grind
  · grind

/-- The section of `cv_wait` queues the newest wait. -/
theorem WaitInv.enqueue (h : WaitInv s) (hold : s.pc t = .locked)
    (hq : s'.cv.queue = s.cv.queue ++ [t]) (hissued : s'.issued = s.issued + 1)
    (hwoken : s'.woken = s.woken)
    (hpc : ∀ u, s'.pc u = if u = t then .released s.issued w else s.pc u)
    (htasks : s'.tasks = s.tasks) : WaitInv s' := by
  have hnotin : t ∉ s.cv.queue := by
    intro hmem
    obtain ⟨k, hk⟩ := (h.queued t hmem).ticket
    rw [hold] at hk
    cases hk
  have hother : ∀ u, u ≠ t → (Unwoken s' u ↔ Unwoken s u) := by
    intro u hut
    simp only [Unwoken, hpc u, if_neg hut, htasks]
  have hself : (s'.pc t).ticket = some s.issued := by rw [hpc, if_pos rfl]; rfl
  have hheld : ∀ u, (s'.pc u).cvHeld = (s.pc u).cvHeld := by
    intro u
    rw [hpc]
    split
    · next hut => rw [hut, hold]; rfl
    · rfl
  have hticket : ∀ u, u ≠ t → (s'.pc u).ticket = (s.pc u).ticket := by
    intro u hut
    rw [hpc, if_neg hut]
  constructor
  case nodup =>
    rw [hq]
    exact h.nodup.append (List.nodup_singleton t) (List.disjoint_singleton.mpr hnotin)
  case queued =>
    intro u hu
    by_cases hut : u = t
    · exact Or.inl ⟨s.issued, w, by rw [hpc, if_pos hut]⟩
    · rw [hother u hut]
      apply h.queued
      simpa [hq, hut] using hu
  case unwoken =>
    intro u hu
    simp only [hq, BeingWoken, hheld, List.mem_append, List.mem_singleton]
    by_cases hut : u = t
    · exact Or.inl (Or.inr hut)
    · rcases h.unwoken u ((hother u hut).mp hu) with hmem | hwoken
      · exact Or.inl (Or.inl hmem)
      · exact Or.inr hwoken
  case held =>
    intro p u hp
    rw [hheld] at hp
    obtain ⟨hnot, ⟨k, hk⟩, hb⟩ := h.held p u hp
    have hut : u ≠ t := by
      intro he
      rw [he, hold] at hk
      cases hk
    refine ⟨by simp [hq, hnot, hut], ⟨k, by rw [hpc, if_neg hut, hk]⟩, by rw [htasks]; exact hb⟩
  case once =>
    intro p q u hp hq
    rw [hheld] at hp hq
    exact h.once p q u hp hq
  case ordered =>
    rw [hq, List.pairwise_append]
    refine ⟨pairwise_ticket h.ordered fun u hu => hticket u fun he => hnotin (he ▸ hu),
      List.pairwise_singleton _ _, ?_⟩
    intro a ha b hb j k hj hk
    rw [List.mem_singleton.mp hb, hself] at hk
    rw [hticket a fun he => hnotin (he ▸ ha)] at hj
    have := h.issued a j hj
    cases hk
    exact this
  case issued =>
    intro u k hk
    rw [hissued]
    by_cases hut : u = t
    · rw [hut, hself] at hk
      cases hk
      exact Nat.lt_succ_self _
    · rw [hticket u hut] at hk
      exact Nat.lt_succ_of_lt (h.issued u k hk)
  case after =>
    intro j hj u hu k hk
    rw [hwoken] at hj
    by_cases hut : u = t
    · rw [hut, hself] at hk
      cases hk
      exact h.past j hj
    · rw [hticket u hut] at hk
      exact h.after j hj u (by simpa [hq, hut] using hu) k hk
  case past =>
    intro j hj
    rw [hwoken] at hj
    rw [hissued]
    exact Nat.lt_succ_of_lt (h.past j hj)
  case fifo => rw [hwoken]; exact h.fifo

/-- A call takes the oldest wait, which sleeps, out of the ring. -/
theorem WaitInv.dequeue {w : Tid} {rest : List Tid} (h : WaitInv s)
    (hfront : s.cv.queue = w :: rest) (hguard : s.pc w = .asleep k)
    (hold : (s.pc t).ticket = none) (hheld : (s.pc t).cvHeld = none) (hq : s'.cv.queue = rest)
    (hissued : s'.issued = s.issued) (hwoken : s'.woken = s.woken ++ [k])
    (hpc : ∀ u, s'.pc u = if u = t then p' else s.pc u) (htasks : s'.tasks = s.tasks)
    (hticket : p'.ticket = none) (hnew : p'.cvHeld = some w) : WaitInv s' := by
  have hmem : ∀ u, u ∈ s.cv.queue ↔ u = w ∨ u ∈ rest := by simp [hfront]
  have hnodup : (w :: rest).Nodup := hfront ▸ h.nodup
  have hnotin : w ∉ rest := (List.nodup_cons.mp hnodup).1
  have hb : (s.tasks w).status = .blocked := by
    rcases h.queued w (by simp [hfront]) with ⟨j, v, hj⟩ | ⟨j, hj⟩ | ⟨-, hb⟩
    · simp [hguard] at hj
    · simp [hguard] at hj
    · exact hb
  have hwt : w ≠ t := by
    intro he
    rw [← he, hguard] at hold
    cases hold
  have htickets : ∀ u, (s'.pc u).ticket = (s.pc u).ticket := by
    intro u
    rw [hpc]
    split
    · next hut => rw [hut, hticket, hold]
    · rfl
  have hunwoken : ∀ u, Unwoken s' u ↔ Unwoken s u := by
    intro u
    by_cases hut : u = t
    · subst hut
      apply iff_of_false
      · intro hu
        obtain ⟨j, hj⟩ := hu.ticket
        rw [htickets, hold] at hj
        cases hj
      · intro hu
        obtain ⟨j, hj⟩ := hu.ticket
        rw [hold] at hj
        cases hj
    · simp only [Unwoken, hpc u, if_neg hut, htasks]
  have hordered := hfront ▸ h.ordered
  rw [List.pairwise_cons] at hordered
  have hk : (s.pc w).ticket = some k := by rw [hguard]; rfl
  constructor
  case nodup => rw [hq]; exact (List.nodup_cons.mp hnodup).2
  case queued =>
    intro u hu
    rw [hunwoken]
    exact h.queued u ((hmem u).mpr (Or.inr (hq ▸ hu)))
  case unwoken =>
    intro u hu
    rw [hunwoken] at hu
    rcases h.unwoken u hu with hin | ⟨p, hp⟩
    · rcases (hmem u).mp hin with he | hin
      · exact Or.inr ⟨t, by rw [hpc, if_pos rfl, hnew, he]⟩
      · exact Or.inl (hq ▸ hin)
    · right
      refine ⟨p, ?_⟩
      rw [hpc, if_neg]
      · exact hp
      · intro he
        rw [he, hheld] at hp
        cases hp
  case held =>
    intro p u hp
    rw [hq, htasks]
    by_cases hpt : p = t
    · rw [hpc, if_pos hpt, hnew] at hp
      cases hp
      exact ⟨hnotin, ⟨k, by rw [hpc, if_neg hwt, hguard]⟩, hb⟩
    · rw [hpc, if_neg hpt] at hp
      obtain ⟨hnot, ⟨j, hj⟩, hb'⟩ := h.held p u hp
      have hut : u ≠ t := by
        intro he
        rw [← he, hj] at hold
        cases hold
      exact ⟨fun hin => hnot ((hmem u).mpr (Or.inr hin)), ⟨j, by rw [hpc, if_neg hut, hj]⟩, hb'⟩
  case once =>
    -- the waiter taken was in the ring, so nobody else holds it
    have hfree : ∀ p, (s.pc p).cvHeld ≠ some w := by
      intro p hp
      exact (h.held p w hp).1 (by simp [hfront])
    intro p q u hp hq'
    rw [hpc] at hp hq'
    have := h.once p q u
    grind
  case ordered =>
    rw [hq]
    exact pairwise_ticket hordered.2 fun u _ => htickets u
  case issued =>
    intro u j hj
    rw [htickets] at hj
    rw [hissued]
    exact h.issued u j hj
  case after =>
    intro j hj u hu i hi
    rw [htickets] at hi
    rw [hq] at hu
    rw [hwoken, List.mem_append, List.mem_singleton] at hj
    rcases hj with hj | rfl
    · exact h.after j hj u ((hmem u).mpr (Or.inr hu)) i hi
    · exact hordered.1 u hu j i hk hi
  case past =>
    intro j hj
    rw [hissued]
    rw [hwoken, List.mem_append, List.mem_singleton] at hj
    rcases hj with hj | rfl
    · exact h.past j hj
    · exact h.issued w j hk
  case fifo =>
    rw [hwoken, List.pairwise_append]
    refine ⟨h.fifo, List.pairwise_singleton _ _, ?_⟩
    intro j hj i hi
    rw [List.mem_singleton.mp hi]
    exact h.after j hj w (by simp [hfront]) k hk

/-- The wait a call has dequeued is woken. -/
theorem WaitInv.wake {w : Tid} (h : WaitInv s) (hold : (s.pc t).cvHeld = some w)
    (hcv : s'.cv.queue = s.cv.queue) (hissued : s'.issued = s.issued) (hwoken : s'.woken = s.woken)
    (hpc : ∀ u, s'.pc u = if u = t then p' else s.pc u)
    (hticket : p'.ticket = none) (hnew : p'.cvHeld = none)
    (hst : ∀ u, (s'.tasks u).status = if u = w then .running else (s.tasks u).status) :
    WaitInv s' := by
  obtain ⟨hnotin, ⟨k, hk⟩, hb⟩ := h.held t w hold
  have htt : (s.pc t).ticket = none := by
    cases hp : s.pc t <;> simp_all [CvPc.cvHeld, CvPc.ticket]
  have hwt : w ≠ t := by
    intro he
    rw [← he, hk] at htt
    cases htt
  have htickets : ∀ u, (s'.pc u).ticket = (s.pc u).ticket := by
    intro u
    rw [hpc]
    split
    · next hut => rw [hut, hticket, htt]
    · rfl
  have hunwoken : ∀ u, Unwoken s' u ↔ Unwoken s u ∧ u ≠ w := by
    intro u
    by_cases huw : u = w
    · subst huw
      simp [Unwoken, hpc u, if_neg hwt, hk, hst]
    · by_cases hut : u = t
      · subst hut
        apply iff_of_false
        · intro hu
          obtain ⟨j, hj⟩ := hu.ticket
          rw [htickets, htt] at hj
          cases hj
        · intro hu
          obtain ⟨j, hj⟩ := hu.1.ticket
          rw [htt] at hj
          cases hj
      · rw [and_iff_left huw]
        simp only [Unwoken, hpc u, if_neg hut, hst u, if_neg huw]
  constructor
  case nodup => rw [hcv]; exact h.nodup
  case queued =>
    intro u hu
    rw [hcv] at hu
    rw [hunwoken]
    exact ⟨h.queued u hu, fun he => hnotin (he ▸ hu)⟩
  case unwoken =>
    intro u hu
    obtain ⟨hu, huw⟩ := (hunwoken u).mp hu
    rw [hcv]
    rcases h.unwoken u hu with hin | ⟨p, hp⟩
    · exact Or.inl hin
    · right
      refine ⟨p, ?_⟩
      rw [hpc, if_neg]
      · exact hp
      · intro he
        rw [he, hold] at hp
        cases hp
        exact huw rfl
  case held =>
    intro p u hp
    have hpt : p ≠ t := by
      intro he
      rw [hpc, if_pos he, hnew] at hp
      cases hp
    rw [hpc, if_neg hpt] at hp
    obtain ⟨hnot, ⟨j, hj⟩, hb'⟩ := h.held p u hp
    have huw : u ≠ w := fun he => hpt (h.once p t w (he ▸ hp) hold)
    have hut : u ≠ t := by
      intro he
      rw [← he, hj] at htt
      cases htt
    rw [hcv, hst, if_neg huw]
    exact ⟨hnot, ⟨j, by rw [hpc, if_neg hut, hj]⟩, hb'⟩
  case once =>
    intro p q u hp hq
    rw [hpc] at hp hq
    have := h.once p q u
    grind
  case ordered => rw [hcv]; exact pairwise_ticket h.ordered fun u _ => htickets u
  case issued =>
    intro u j hj
    rw [htickets] at hj
    rw [hissued]
    exact h.issued u j hj
  case after =>
    intro j hj u hu i hi
    rw [hwoken] at hj
    rw [hcv] at hu
    rw [htickets] at hi
    exact h.after j hj u hu i hi
  case past => rw [hwoken, hissued]; exact h.past
  case fifo => rw [hwoken]; exact h.fifo

end Wait

/-! ## The holder of the mutex -/

/-- The mutex is free, or one task has it. -/
def MutexInv (s : CvSys) : Prop :=
  (s.mutex.value = 1 ∧ ∀ u, (s.pc u).holds = false) ∨
    s.mutex.value = 0 ∧ ∃ t, ∀ u, (s.pc u).holds = true ↔ u = t

section Holder
variable {s s' : CvSys} {t : Tid} {p' : CvPc}

theorem MutexInv.move (h : MutexInv s) (hv : s'.mutex.value = s.mutex.value)
    (hpc : ∀ u, s'.pc u = if u = t then p' else s.pc u)
    (hholds : p'.holds = (s.pc t).holds) : MutexInv s' := by
  have hsame : ∀ u, (s'.pc u).holds = (s.pc u).holds := by
    intro u
    rw [hpc]
    split
    · next hut => rw [hut, hholds]
    · rfl
  simp only [MutexInv, hv, hsame]
  exact h

theorem MutexInv.acquire (h : MutexInv s) (hpos : 0 < s.mutex.value)
    (hv : s'.mutex.value = s.mutex.value - 1)
    (hpc : ∀ u, s'.pc u = if u = t then .locked else s.pc u) : MutexInv s' := by
  rcases h with ⟨hone, hfree⟩ | ⟨hzero, -⟩
  · refine Or.inr ⟨by rw [hv, hone]; rfl, t, ?_⟩
    intro u
    rw [hpc]
    by_cases hut : u = t
    · simp [hut]
    · rw [if_neg hut, hfree u]
      simp [hut]
  · omega

theorem MutexInv.release (h : MutexInv s) (hold : (s.pc t).holds = true)
    (hv : s'.mutex.value = int8 (s.mutex.value + 1))
    (hpc : ∀ u, s'.pc u = if u = t then p' else s.pc u) (hnew : p'.holds = false) :
    MutexInv s' := by
  rcases h with ⟨-, hfree⟩ | ⟨hzero, o, ho⟩
  · rw [hfree t] at hold
    cases hold
  · have hto : t = o := (ho t).mp hold
    refine Or.inl ⟨by rw [hv, hzero]; rfl, ?_⟩
    intro u
    rw [hpc]
    split
    · exact hnew
    · next hut =>
      rw [← Bool.not_eq_true, ho u, ← hto]
      exact hut

end Holder

/-! ## Every run -/

structure CvInv (s : CvSys) : Prop where
  live : ∀ t, s.pc t ≠ .idle → (s.tasks t).used = true
  lock : LockInv s
  wait : WaitInv s
  mutex : MutexInv s

theorem CvStart.inv {s : CvSys} (h : CvStart s) : CvInv s where
  live := fun t ht => absurd (h.idle t) ht
  lock := by constructor <;> simp [h.idle, h.queue, CvPc.lockHeld]
  wait := by
    constructor <;> simp [h.idle, h.cv, h.woken, CvPc.cvHeld, CvPc.ticket, Unwoken]
  mutex := Or.inl ⟨h.value, fun t => by rw [h.idle]; rfl⟩

theorem CvInv.ok {s : CvSys} (h : CvInv s) : CvOk s where
  broadcast := by
    intro p mutex since _ hnone t k _ _ hu
    rw [(cvDequeue_queue s.cv).1, List.head?_eq_none_iff] at hnone
    rcases h.wait.unwoken t hu with hin | hwoken
    · simp [hnone] at hin
    · exact hwoken
  signal := by
    intro t k hk hu
    rcases h.wait.unwoken t hu with hin | hwoken
    · right
      cases hq : s.cv.queue with
      | nil => simp [hq] at hin
      | cons w rest =>
          obtain ⟨j, hj⟩ := (h.wait.queued w (by simp [hq])).ticket
          refine ⟨w, j, by rw [(cvDequeue_queue s.cv).1, hq]; rfl, hj, ?_⟩
          have hordered := hq ▸ h.wait.ordered
          rw [hq, List.mem_cons] at hin
          rcases hin with rfl | hin
          · rw [hj] at hk
            exact le_of_eq (Option.some.inj hk)
          · exact le_of_lt ((List.pairwise_cons.mp hordered).1 t hin j k hj hk)
    · exact Or.inl hwoken
  effective := by
    intro p w hp
    obtain ⟨-, ⟨k, hk⟩, hb⟩ := h.wait.held p w hp
    exact ⟨⟨k, hk⟩, h.live w (by simp [hk]), hb⟩
  fifo := h.wait.fifo
  mutex := by
    intro t ht
    rcases h.mutex with ⟨-, hfree⟩ | ⟨hzero, o, ho⟩
    · rw [hfree t] at ht
      cases ht
    · refine ⟨hzero, fun u hu => ?_⟩
      rw [(ho u).mp hu, (ho t).mp ht]

section Steps
variable {s : CvSys} {t : Tid}

theorem goto_pc (s : CvSys) (t u : Tid) (p : CvPc) :
    (s.goto t p).pc u = if u = t then p else s.pc u := by
  simp [CvSys.goto, Function.update_apply]

/-- Waking touches the status of a blocked task only. -/
theorem unblock_status (s : CvSys) (w : Option Tid) (u : Tid) (hw : w ≠ some u) :
    ((s.unblock w).tasks u).status = (s.tasks u).status := by
  cases w with
  | none => rfl
  | some w =>
      change (taskUnblock s.tasks w u).status = _
      rw [taskUnblock_of_ne]
      intro he
      exact hw (by rw [he])

theorem unblock_used (s : CvSys) (w : Option Tid) (u : Tid) :
    ((s.unblock w).tasks u).used = (s.tasks u).used := by
  cases w with
  | none => rfl
  | some w => exact taskUnblock_used s.tasks w u

theorem unblock_pc (s : CvSys) (w : Option Tid) : (s.unblock w).pc = s.pc := by
  cases w <;> rfl

theorem unblock_cv (s : CvSys) (w : Option Tid) : (s.unblock w).cv.queue = s.cv.queue := by
  cases w <;> rfl

theorem unblock_mutex (s : CvSys) (w : Option Tid) : (s.unblock w).mutex = s.mutex := by
  cases w <;> rfl

theorem unblock_ghost (s : CvSys) (w : Option Tid) :
    (s.unblock w).issued = s.issued ∧ (s.unblock w).woken = s.woken := by
  cases w <;> exact ⟨rfl, rfl⟩

theorem live_goto (h : CvInv s) (hr : Runnable s.tasks t) {s' : CvSys} {p : CvPc}
    (hpc : ∀ u, s'.pc u = if u = t then p else s.pc u)
    (hu : ∀ u, (s'.tasks u).used = (s.tasks u).used) :
    ∀ u, s'.pc u ≠ .idle → (s'.tasks u).used = true := by
  intro u hne
  rw [hu]
  by_cases hut : u = t
  · rw [hut]
    exact hr.1
  · rw [hpc, if_neg hut] at hne
    exact h.live u hne

/-- A runnable task is not asleep. -/
theorem not_unwoken (hr : Runnable s.tasks t) (hticket : (s.pc t).ticket = none ∨
    ∃ k, s.pc t = .asleep k) : ¬ Unwoken s t := by
  intro hu
  rcases hticket with hnone | ⟨k, hk⟩
  · obtain ⟨k, hk⟩ := hu.ticket
    rw [hnone] at hk
    cases hk
  · rcases hu with ⟨j, w, hj⟩ | ⟨j, hj⟩ | ⟨-, hb⟩
    · simp [hk] at hj
    · simp [hk] at hj
    · rw [hr.2] at hb
      cases hb

/-- A task moves on without touching anything shared. -/
theorem goto_inv {p : CvPc} (h : CvInv s) (hr : Runnable s.tasks t)
    (hqueued : s.pc t ≠ .lockQueued)
    (hticket : (s.pc t).ticket = none ∨ ∃ k, s.pc t = .asleep k)
    (hheld : (s.pc t).cvHeld = none) (hholds : p.holds = (s.pc t).holds)
    (hp : p.lockHeld = none ∧ p.ticket = none ∧ p.cvHeld = none) : CvInv (s.goto t p) where
  live := live_goto h hr (goto_pc s t · p) fun _ => rfl
  lock := by
    refine h.lock.move rfl (goto_pc s t · p) (fun _ _ _ => rfl) ⟨hqueued, fun _ => ?_⟩ hp.1
    simp [hr.2]
  wait := h.wait.move rfl rfl rfl (goto_pc s t · p) (fun _ _ _ _ => rfl) (not_unwoken hr hticket)
    hheld hp.2.1 hp.2.2
  mutex := h.mutex.move rfl (goto_pc s t · p) hholds

theorem postMutex_pc (s : CvSys) (t : Tid) (next : Option Tid → CvPc) (u : Tid) :
    (s.postMutex t next).pc u = if u = t then next (semDequeue s.mutex).1 else s.pc u := by
  simp [CvSys.postMutex, CvSys.goto, Function.update_apply]

theorem postMutex_lock {next : Option Tid → CvPc} (h : LockInv s) (hold : (s.pc t).holds = true)
    (hnext : ∀ w, (next w).lockHeld = w) : LockInv (s.postMutex t next) := by
  obtain ⟨hhead, htail, -, -⟩ := semDequeue_queue s.mutex
  refine h.post hold htail (postMutex_pc s t next) ?_ rfl
  rw [hnext, hhead]

theorem postMutex_mutex {next : Option Tid → CvPc} (h : MutexInv s)
    (hold : (s.pc t).holds = true) (hnot : ∀ w, (next w).holds = false) :
    MutexInv (s.postMutex t next) := by
  refine h.release hold ?_ (postMutex_pc s t next) (hnot _)
  rw [← (semDequeue_queue s.mutex).2.2.1]
  rfl

/-- Releasing the mutex outside the queueing of a wait. -/
theorem postMutex_inv {next : Option Tid → CvPc} (h : CvInv s) (hr : Runnable s.tasks t)
    (hold : (s.pc t).holds = true) (hheld : (s.pc t).cvHeld = none)
    (hnext : ∀ w, (next w).lockHeld = w) (hnot : ∀ w, (next w).holds = false)
    (hout : ∀ w, (next w).ticket = none ∧ (next w).cvHeld = none) :
    CvInv (s.postMutex t next) where
  live := live_goto h hr (postMutex_pc s t next) fun _ => rfl
  lock := postMutex_lock h.lock hold hnext
  wait := by
    have hticket : (s.pc t).ticket = none := by
      cases hp : s.pc t <;> simp_all [CvPc.holds, CvPc.ticket]
    exact h.wait.move rfl rfl rfl (postMutex_pc s t next) (fun _ _ _ _ => rfl)
      (not_unwoken hr (Or.inl hticket)) hheld (hout _).1 (hout _).2
  mutex := postMutex_mutex h.mutex hold hnot

/-- The section of `cv_wait`. -/
theorem waitCv_inv {c : CondVar} (h : CvInv s) (hr : Runnable s.tasks t)
    (hlocked : s.pc t = .locked) (hc : cvEnqueue s.cv t = some c) :
    CvInv ({ s with cv := c, issued := s.issued + 1 }.postMutex t (.released s.issued)) := by
  have hold : (s.pc t).holds = true := by rw [hlocked]; rfl
  constructor
  case live => exact live_goto h hr (postMutex_pc _ t _) fun _ => rfl
  case lock =>
    apply postMutex_lock (s := { s with cv := c, issued := s.issued + 1 }) _ hold fun _ => rfl
    exact ⟨h.lock.nodup, h.lock.queued, h.lock.held, h.lock.once⟩
  case wait =>
    exact h.wait.enqueue hlocked (cvEnqueue_queue hc) rfl rfl
      (postMutex_pc { s with cv := c, issued := s.issued + 1 } t _) rfl
  case mutex =>
    exact postMutex_mutex (s := { s with cv := c, issued := s.issued + 1 }) h.mutex hold fun _ => rfl

/-- A task that waits on the condition variable is no business of a `sem_post`. -/
theorem unblock_asleep (h : CvInv s) (hw : (s.pc t).lockHeld = w) {u : Tid}
    (hu : s.pc u = .asleep k) : ((s.unblock w).tasks u).status = (s.tasks u).status := by
  apply unblock_status
  intro he
  rcases (h.lock.held t u (hw.trans he)).2 with hq | hb
  · simp [hu] at hq
  · simp [hu] at hb

theorem unblock_goto_pc (s : CvSys) (w : Option Tid) (t u : Tid) (p : CvPc) :
    ((s.unblock w).goto t p).pc u = if u = t then p else s.pc u := by
  rw [goto_pc, unblock_pc]

/-- The wake-up of a `sem_post`; what it means for the condition variable depends
on the caller. -/
theorem wakeLock_inv {p : CvPc} (h : CvInv s) (hr : Runnable s.tasks t)
    (hw : (s.pc t).lockHeld = w) (hqueued : s.pc t ≠ .lockQueued) (hp : p.lockHeld = none)
    (hholds : p.holds = (s.pc t).holds) (hwait : WaitInv ((s.unblock w).goto t p)) :
    CvInv ((s.unblock w).goto t p) := by
  have hpc := fun u => unblock_goto_pc s w t u p
  refine ⟨live_goto h hr hpc (unblock_used s w), ?_, hwait, ?_⟩
  · cases w with
    | none =>
        refine h.lock.move rfl hpc (fun _ _ _ => rfl) ⟨hqueued, fun _ => ?_⟩ hp
        simp [hr.2]
    | some w =>
        refine h.lock.wake hw rfl hpc hp ?_
        intro u hu
        exact unblock_status s (some w) u (by simpa using Ne.symm hu)
  · refine h.mutex.move ?_ hpc hholds
    change (s.unblock w).mutex.value = _
    rw [unblock_mutex]

/-- The wake-up of an unlock or of a `cv_wait` that found its ring full. -/
theorem wakeLock_plain {p : CvPc} (h : CvInv s) (hr : Runnable s.tasks t)
    (hw : (s.pc t).lockHeld = w) (hqueued : s.pc t ≠ .lockQueued)
    (hticket : (s.pc t).ticket = none) (hheld : (s.pc t).cvHeld = none)
    (hp : p.lockHeld = none ∧ p.ticket = none ∧ p.cvHeld = none)
    (hholds : p.holds = (s.pc t).holds) : CvInv ((s.unblock w).goto t p) := by
  apply wakeLock_inv h hr hw hqueued hp.1 hholds
  exact h.wait.move (unblock_cv s w) (unblock_ghost s w).1 (unblock_ghost s w).2
    (fun u => unblock_goto_pc s w t u p) (fun u k _ hu => unblock_asleep h hw hu)
    (not_unwoken hr (Or.inl hticket)) hheld hp.2.1 hp.2.2

/-- The wake-up of the `sem_post` inside `cv_wait`. -/
theorem wakeLock_released (h : CvInv s) (hr : Runnable s.tasks t) (hpc : s.pc t = .released k w) :
    CvInv ((s.unblock w).goto t (.dozing k)) := by
  have hw : (s.pc t).lockHeld = w := by rw [hpc]; rfl
  apply wakeLock_inv h hr hw (by simp [hpc]) rfl (by rw [hpc]; rfl)
  exact h.wait.advance (unblock_cv s w) (unblock_ghost s w).1 (unblock_ghost s w).2
    (fun u => unblock_goto_pc s w t u _) (fun u j _ hu => unblock_asleep h hw hu)
    (Or.inl ⟨w, hpc⟩) (Or.inl rfl)

/-- The wake-up of a signal or broadcast. -/
theorem wakeCv_inv {w : Tid} {p : CvPc} (h : CvInv s) (hr : Runnable s.tasks t)
    (hw : (s.pc t).cvHeld = some w)
    (hp : p.lockHeld = none ∧ p.ticket = none ∧ p.cvHeld = none)
    (hholds : p.holds = (s.pc t).holds) : CvInv ((s.unblock (some w)).goto t p) := by
  have hpc := fun u => unblock_goto_pc s (some w) t u p
  obtain ⟨-, ⟨k, hk⟩, hb⟩ := h.wait.held t w hw
  have hused := h.live w (by simp [hk])
  refine ⟨live_goto h hr hpc (unblock_used s (some w)), ?_, ?_, h.mutex.move rfl hpc hholds⟩
  · refine h.lock.move rfl hpc ?_ ⟨?_, fun _ => by simp [hr.2]⟩ hp.1
    · intro u _ hu
      refine unblock_status s (some w) u ?_
      rintro ⟨⟩
      simp [hk] at hu
    · intro hq
      simp [hq, CvPc.cvHeld] at hw
  · refine h.wait.wake hw rfl rfl rfl hpc hp.2.1 hp.2.2 ?_
    intro u
    change (taskUnblock s.tasks w u).status = _
    simp [taskUnblock_status, hused, hb]

theorem dequeueCv_pc (s : CvSys) (t : Tid) (next : Option Tid → CvPc) (u : Tid) :
    (s.dequeueCv t next).pc u = if u = t then next (cvDequeue s.cv).1 else s.pc u := by
  simp [CvSys.dequeueCv, CvSys.goto, Function.update_apply]

theorem exists_of_isAsleep {p : CvPc} (h : p.isAsleep = true) : ∃ k, p = .asleep k := by
  cases p <;> simp [CvPc.isAsleep] at h
  exact ⟨_, rfl⟩

/-- A dequeue by a signal or broadcast, with the oldest wait asleep. -/
theorem dequeueCv_inv {next : Option Tid → CvPc} (h : CvInv s) (hr : Runnable s.tasks t)
    (hqueued : s.pc t ≠ .lockQueued) (hticket : (s.pc t).ticket = none)
    (hheld : (s.pc t).cvHeld = none)
    (hguard : ∀ w, s.cv.queue.head? = some w → (s.pc w).isAsleep = true)
    (hnext : ∀ w, (next w).lockHeld = none ∧ (next w).ticket = none ∧ (next w).cvHeld = w ∧
      (next w).holds = (s.pc t).holds) : CvInv (s.dequeueCv t next) := by
  obtain ⟨hhead, htail⟩ := cvDequeue_queue s.cv
  obtain ⟨hlockHeld, hnoTicket, hcvHeld, hholds⟩ := hnext (cvDequeue s.cv).1
  have hpc := dequeueCv_pc s t next
  refine ⟨live_goto h hr hpc fun _ => rfl, ?_, ?_, h.mutex.move rfl hpc hholds⟩
  · exact h.lock.move rfl hpc (fun _ _ _ => rfl) ⟨hqueued, fun _ => by simp [hr.2]⟩ hlockHeld
  · cases hfront : s.cv.queue with
    | nil =>
        have hnone : (cvDequeue s.cv).1 = none := by rw [hhead, hfront]; rfl
        refine h.wait.move ?_ rfl ?_ hpc (fun _ _ _ _ => rfl) (not_unwoken hr (Or.inl hticket))
          hheld hnoTicket ?_
        · change (cvDequeue s.cv).2.queue = s.cv.queue
          rw [htail, hfront]
          rfl
        · simp [CvSys.dequeueCv, CvSys.goto, hnone]
        · rw [hcvHeld, hnone]
    | cons w rest =>
        obtain ⟨k, hk⟩ := exists_of_isAsleep (hguard w (by simp [hfront]))
        have hsome : (cvDequeue s.cv).1 = some w := by rw [hhead, hfront]; rfl
        refine h.wait.dequeue hfront hk hticket hheld ?_ rfl ?_ hpc rfl hnoTicket ?_
        · change (cvDequeue s.cv).2.queue = rest
          rw [htail, hfront]
          rfl
        · simp [CvSys.dequeueCv, CvSys.goto, hsome, hk, CvPc.ticket]
        · rw [hcvHeld, hsome]

theorem cvCall_inv {c : CvCall} (h : CvInv s) (hr : Runnable s.tasks t)
    (hg : cvGuard s (.call t c)) : CvInv (cvCall s t (s.pc t) c) := by
  cases hpc : s.pc t with
  | idle =>
      cases c with
      | lock => apply goto_inv h hr <;> simp [hpc]
      | unlock => exact h
      | wait => exact h
      | signal =>
          apply dequeueCv_inv h hr _ _ _ (hg (by rw [hpc]; rfl)) <;> simp [hpc]
      | broadcast =>
          apply goto_inv h hr <;> simp [hpc]
  | locked =>
      cases c with
      | lock => exact h
      | unlock =>
          apply postMutex_inv h hr <;> simp [hpc]
      | wait =>
          simp only [cvCall]
          split
          · apply goto_inv h hr <;> simp [hpc]
          · next c hc => exact waitCv_inv h hr hpc hc
      | signal =>
          apply dequeueCv_inv h hr _ _ _ (hg (by rw [hpc]; rfl)) <;> simp [hpc]
      | broadcast =>
          apply goto_inv h hr <;> simp [hpc]
  | _ => exact h

/-- The section of `sem_wait` on the mutex. -/
theorem lockTop_inv (h : CvInv s) (hr : Runnable s.tasks t) (hpc : s.pc t = .lockTop) :
    CvInv (cvRun s t .lockTop) := by
  simp only [cvRun]
  split
  · next hpos =>
    have hgoto := fun u =>
      goto_pc { s with mutex := { s.mutex with value := s.mutex.value - 1 } } t u .locked
    constructor
    case live => exact live_goto h hr hgoto fun _ => rfl
    case lock =>
      refine h.lock.move rfl hgoto (fun _ _ _ => rfl) ?_ rfl
      simp [hpc]
    case wait =>
      refine h.wait.move rfl rfl rfl hgoto (fun _ _ _ _ => rfl)
        (not_unwoken hr (Or.inl (by simp [hpc]))) ?_ rfl rfl
      simp [hpc]
    case mutex => exact h.mutex.acquire hpos rfl hgoto
  · split
    · exact h
    · next m hm =>
      obtain ⟨hq, hv, -⟩ := semEnqueue_queue hm
      have hgoto := fun u => goto_pc { s with mutex := m } t u .lockQueued
      constructor
      case live => exact live_goto h hr hgoto fun _ => rfl
      case lock => exact h.lock.enqueue hpc hq hgoto rfl
      case wait =>
        refine h.wait.move rfl rfl rfl hgoto (fun _ _ _ _ => rfl)
          (not_unwoken hr (Or.inl (by simp [hpc]))) ?_ rfl rfl
        simp [hpc]
      case mutex =>
        refine h.mutex.move hv hgoto ?_
        simp [hpc]

theorem blockLock_inv (h : CvInv s) (hr : Runnable s.tasks t) (hpc : s.pc t = .lockQueued) :
    CvInv ({ s with tasks := taskBlock s.tasks t }.goto t .lockBlocked) := by
  have hgoto := fun u => goto_pc { s with tasks := taskBlock s.tasks t } t u .lockBlocked
  have hst := taskBlock_status s.tasks t
  constructor
  case live => exact live_goto h hr hgoto (taskBlock_used s.tasks t)
  case lock => exact h.lock.block rfl hgoto hst
  case wait =>
    refine h.wait.move rfl rfl rfl hgoto ?_ (not_unwoken hr (Or.inl (by simp [hpc]))) ?_ rfl rfl
    · intro u k hut _
      exact (hst u).trans (if_neg hut)
    · simp [hpc]
  case mutex =>
    refine h.mutex.move rfl hgoto ?_
    simp [hpc]

theorem blockCv_inv (h : CvInv s) (hr : Runnable s.tasks t) (hpc : s.pc t = .dozing k) :
    CvInv ({ s with tasks := taskBlock s.tasks t }.goto t (.asleep k)) := by
  have hgoto := fun u => goto_pc { s with tasks := taskBlock s.tasks t } t u (.asleep k)
  have hst := taskBlock_status s.tasks t
  constructor
  case live => exact live_goto h hr hgoto (taskBlock_used s.tasks t)
  case lock =>
    refine h.lock.move rfl hgoto ?_ (by simp [hpc]) rfl
    intro u hut _
    exact (hst u).trans (if_neg hut)
  case wait =>
    refine h.wait.advance rfl rfl rfl hgoto ?_ (Or.inr hpc)
      (Or.inr ⟨rfl, (hst t).trans (if_pos rfl)⟩)
    intro u j hut _
    exact (hst u).trans (if_neg hut)
  case mutex =>
    refine h.mutex.move rfl hgoto ?_
    simp [hpc]

theorem cvRun_inv (h : CvInv s) (hr : Runnable s.tasks t) (hg : cvGuard s (.run t)) :
    CvInv (cvRun s t (s.pc t)) := by
  cases hpc : s.pc t with
  | idle => exact h
  | locked => exact h
  | lockTop => exact lockTop_inv h hr hpc
  | lockQueued => exact blockLock_inv h hr hpc
  | lockBlocked => apply goto_inv h hr <;> simp [hpc]
  | unlocked w => apply wakeLock_plain h hr <;> simp [hpc]
  | full => apply postMutex_inv h hr <;> simp [hpc]
  | fullPosted w => apply wakeLock_plain h hr <;> simp [hpc]
  | released k w => exact wakeLock_released h hr hpc
  | dozing k => exact blockCv_inv h hr hpc
  | asleep k => apply goto_inv h hr <;> simp [hpc]
  | signalled mutex w =>
      cases w with
      | none => cases mutex <;> apply goto_inv h hr <;> simp [hpc]
      | some w => cases mutex <;> apply wakeCv_inv h hr <;> simp [hpc]
  | broadcast mutex since =>
      refine dequeueCv_inv h hr ?_ ?_ ?_ (hg (by rw [hpc]; rfl)) ?_
      case refine_4 =>
        intro w
        cases w <;> cases mutex <;> simp [hpc]
      all_goals simp [hpc]
  | waking mutex since w =>
      apply wakeCv_inv h hr
      · simp [hpc]
      · simp
      · cases mutex <;> simp [hpc]

/-- One step that meets the condition keeps the invariant. -/
theorem cvStep_inv (h : CvInv s) {op : CvOp} (hg : cvGuard s op) : CvInv (cvStep s op) := by
  cases op with
  | call t c =>
      simp only [cvStep]
      split
      · next hr => exact cvCall_inv h hr hg
      · exact h
  | run t =>
      simp only [cvStep]
      split
      · next hr => exact cvRun_inv h hr hg
      · exact h

end Steps

/-- In every run that meets the condition, broadcasts and signals reach the waits
released before them, in order, and the mutex has one holder. -/
theorem waits_woken {s : CvSys} (r : Reach CvStart cvGuard cvStep s) : CvOk s := by
  apply CvInv.ok
  exact r.invariant (fun _ h => h.inv) fun _ _ h hg => cvStep_inv h hg

/-- Two tasks with a free mutex. -/
def twoWaiters : CvSys where
  tasks := fun t => { Task.empty with used := t = 1 ∨ t = 2 }
  cv := ⟨⟨fun _ => 0, 0, 0⟩⟩
  mutex := ⟨1, true, ⟨fun _ => 0, 0, 0⟩⟩
  pc := fun _ => .idle
  issued := 0
  woken := []

theorem twoWaiters_start : CvStart twoWaiters where
  idle := fun _ => rfl
  cv := by decide
  queue := by decide
  value := rfl
  woken := rfl

/-- The first task waits and sleeps, the second wakes it. -/
def sleepThenBroadcast : List CvOp :=
  [.call 1 .lock, .run 1, .call 1 .wait, .run 1, .run 1, .call 2 .broadcast, .run 2, .run 2]

theorem waits_woken_sleep_then_broadcast : CvOk (sleepThenBroadcast.foldl cvStep twoWaiters) :=
  waits_woken ((Reach.start twoWaiters_start).guarded (by decide))

/-- The broadcast falls between the release of the mutex and the sleep. -/
def broadcastBeforeSleep : List CvOp :=
  [.call 1 .lock, .run 1, .call 1 .wait, .run 1, .call 2 .broadcast, .run 2, .run 2, .run 1]

theorem broadcast_before_sleep_is_lost :
    ¬ ∀ s, Reach CvStart anyInput cvStep s → CvOk s := by
  intro h
  have hs := h _ ((Reach.start twoWaiters_start).foldl broadcastBeforeSleep)
  have hpc : (broadcastBeforeSleep.foldl cvStep twoWaiters).pc 1 = .asleep 0 := by decide
  have hwoken := hs.broadcast 2 false 1 (by decide) (by decide) 1 0 (by decide) (by decide)
    (Or.inr (Or.inr ⟨⟨0, hpc⟩, by decide⟩))
  revert hwoken
  unfold BeingWoken
  decide

end OriaOS.Sync
