import OriaOS.Lib.Reach
import OriaOS.Lib.Ring
import OriaOS.Sched.Table

/-!
# Semaphores

`sem_wait` and `sem_post` of `semaphore.c` as tasks run them: each section
between `cli` and `sti` is one step, and so is each status update of
`task_block` and `task_unblock`. Between these steps any other task may run, a
signal may arrive, or a task may die and its slot be given to a new one.

A waiter that is queued but has not stored its status yet can be dequeued by a
post whose `task_unblock` then finds it running; a waiter that is woken by a
signal leaves its number in the ring.
-/

namespace OriaOS.Sync

open OriaOS.Lib OriaOS.Sched

/-- `SEM_MAX`. -/
abbrev semMax : Nat := 16

scoped instance : NeZero semMax := ⟨by decide⟩

abbrev SemId := Fin semMax

/-- `SEM_WAITER_MAX`, and the same for condition variables. -/
abbrev waiterMax : Nat := 4

scoped instance : NeZero waiterMax := ⟨by decide⟩

/-- The head of the ring is `wtail` and its tail `whead`. Vacated places are not
read again, so they are not cleared. -/
structure Semaphore where
  value : Int
  used : Bool
  waiters : Ring Tid waiterMax

/-- Conversion to `int8_t`. -/
def int8 (n : Int) : Int := Int.bmod n 256

def semEnqueue (m : Semaphore) (tid : Tid) : Option Semaphore :=
  (m.waiters.offer tid).map fun ring => { m with waiters := ring }

def semDequeue (m : Semaphore) : Option Tid × Semaphore :=
  match m.waiters.poll with
  | none => (none, m)
  | some (tid, ring) => (some tid, { m with waiters := ring })

/-- The waiters in the ring, oldest first. -/
def Semaphore.queue (m : Semaphore) : List Tid := m.waiters.contents

theorem semEnqueue_queue {m m' : Semaphore} {tid : Tid} (h : semEnqueue m tid = some m') :
    m'.queue = m.queue ++ [tid] ∧ m'.value = m.value ∧ m'.used = m.used := by
  obtain ⟨ring, hring, rfl⟩ := Option.map_eq_some_iff.mp h
  exact ⟨Ring.contents_offer hring, rfl, rfl⟩

/-- A dequeue takes the oldest waiter and nothing else. -/
theorem semDequeue_queue (m : Semaphore) :
    (semDequeue m).1 = m.queue.head? ∧ (semDequeue m).2.queue = m.queue.tail ∧
      (semDequeue m).2.value = m.value ∧ (semDequeue m).2.used = m.used := by
  unfold semDequeue
  cases h : m.waiters.poll with
  | none =>
      have hnil : m.queue = [] := Ring.contents_of_poll_none h
      simp [hnil]
  | some p =>
      have hcons : m.queue = p.1 :: p.2.contents := Ring.contents_of_poll_some h
      rw [hcons]
      exact ⟨rfl, rfl, rfl, rfl⟩

/-! ## Tasks at the semaphores -/

/-- Where a task is in `sem_wait` or `sem_post`. -/
inductive SemPc where
  | idle
  /-- At the top of the loop of `sem_wait`. -/
  | waiting (id : SemId)
  /-- In the ring, before `task_block` stores the status. -/
  | enqueued (id : SemId)
  /-- In the loop of `task_block`. -/
  | blocked (id : SemId)
  /-- Behind the section of `sem_post`, with what it dequeued. -/
  | posting (id : SemId) (w : Option Tid)
  deriving DecidableEq

structure SemSys where
  tasks : Tasks
  sems : SemId → Semaphore
  pc : Tid → SemPc

namespace SemSys

def queue (s : SemSys) (id : SemId) : List Tid := (s.sems id).queue

def goto (s : SemSys) (t : Tid) (p : SemPc) : SemSys :=
  { s with pc := Function.update s.pc t p }

def setSem (s : SemSys) (id : SemId) (m : Semaphore) : SemSys :=
  { s with sems := Function.update s.sems id m }

end SemSys

/-- The section of `sem_wait`. With a full ring the task yields and comes back. -/
def waitSection (s : SemSys) (t : Tid) (id : SemId) : SemSys :=
  let m := s.sems id
  if 0 < m.value then (s.setSem id { m with value := m.value - 1 }).goto t .idle
  else
    match semEnqueue m t with
    | none => s
    | some m => (s.setSem id m).goto t (.enqueued id)

/-- The section of `sem_post`. -/
def postSection (s : SemSys) (t : Tid) (id : SemId) : SemSys :=
  let (w, m) := semDequeue (s.sems id)
  (s.setSem id { m with value := int8 (m.value + 1) }).goto t (.posting id w)

/-- The wake-up behind the section of `sem_post`. -/
def postWake (s : SemSys) (t : Tid) (w : Option Tid) : SemSys :=
  match w with
  | none => s.goto t .idle
  | some w => { s with tasks := taskUnblock s.tasks w }.goto t .idle

inductive SemOp where
  | callWait (t : Tid) (id : SemId)
  | tryWait (t : Tid)
  | block (t : Tid)
  | resume (t : Tid)
  | post (t : Tid) (id : SemId)
  | wake (t : Tid)
  | signal (t : Tid) (sig : Nat)
  | die (t : Tid) (e : Ending)
  | create (c : Creation)

/-- One step. A task takes its own steps only while the scheduler may run it. -/
def semStep (s : SemSys) : SemOp → SemSys
  | .callWait t id =>
      if Runnable s.tasks t ∧ s.pc t = .idle ∧ (s.sems id).used then s.goto t (.waiting id)
      else s
  | .tryWait t =>
      match s.pc t with
      | .waiting id => if Runnable s.tasks t then waitSection s t id else s
      | _ => s
  | .block t =>
      match s.pc t with
      | .enqueued id =>
          if Runnable s.tasks t then
            { s with tasks := taskBlock s.tasks t }.goto t (.blocked id)
          else s
      | _ => s
  | .resume t =>
      match s.pc t with
      | .blocked id => if Runnable s.tasks t then s.goto t (.waiting id) else s
      | _ => s
  | .post t id =>
      if Runnable s.tasks t ∧ s.pc t = .idle ∧ (s.sems id).used then postSection s t id else s
  | .wake t =>
      match s.pc t with
      | .posting _ w => if Runnable s.tasks t then postWake s t w else s
      | _ => s
  | .signal t sig => { s with tasks := taskSendSignal s.tasks t sig }
  | .die t e =>
      if (s.tasks t).used then { s with tasks := modify s.tasks t e.slot }.goto t .idle else s
  | .create c =>
      match c.slot s.tasks with
      | none => s
      | some t => { s with tasks := modify s.tasks t (c.init s.tasks) }.goto t .idle

/-- Any table and any values, with nobody at a semaphore. -/
structure SemStart (s : SemSys) : Prop where
  idle : ∀ t, s.pc t = .idle
  empty : ∀ id, s.queue id = []

/-! ## Lost wake-ups -/

/-- The task is inside `sem_wait` on the semaphore. -/
def Waits (s : SemSys) (t : Tid) (id : SemId) : Prop :=
  s.pc t = .waiting id ∨ s.pc t = .enqueued id ∨ s.pc t = .blocked id

/-- The task sleeps in `sem_wait` on the semaphore. -/
def Sleeps (s : SemSys) (t : Tid) (id : SemId) : Prop :=
  s.pc t = .blocked id ∧ (s.tasks t).status = .blocked

instance (s : SemSys) (t : Tid) (id : SemId) : Decidable (Sleeps s t id) :=
  inferInstanceAs (Decidable (_ ∧ _))

/-- Nobody sleeps beside the ring of a free semaphore, and what a post would
dequeue is a live task that waits, if any does. -/
structure WakeUps (s : SemSys) : Prop where
  noneLost : ∀ id t, 0 < (s.sems id).value → (∀ p w, s.pc p ≠ .posting id w) →
    (s.tasks t).used = true → Sleeps s t id → t ∈ s.queue id
  toWaiter : ∀ id w, (semDequeue (s.sems id)).1 = some w →
    (∃ t, (s.tasks t).used = true ∧ Waits s t id) →
      (s.tasks w).used = true ∧ Waits s w id

/-- The task is not queued, does not sleep and holds no waiter it has yet to wake. -/
def Uninvolved (s : SemSys) (t : Tid) : Prop :=
  ∀ id, s.pc t ≠ .enqueued id ∧ ¬ Sleeps s t id ∧ ∀ w, s.pc t ≠ .posting id (some w)

/-- The condition on the steps: a post finds the waiter in front past the stores of
`task_block`, no signal reaches a sleeping waiter, and only uninvolved tasks die. -/
def semGuard (s : SemSys) : SemOp → Prop
  | .post _ id => ∀ w, (s.queue id).head? = some w → s.pc w ≠ .enqueued id
  | .signal t _ => ∀ id, ¬ Sleeps s t id
  | .die t _ => Uninvolved s t
  | _ => True

instance (s : SemSys) (t : Tid) : Decidable (Uninvolved s t) :=
  inferInstanceAs (Decidable (∀ _, _ ∧ _ ∧ ∀ _, _))

instance (s : SemSys) (op : SemOp) : Decidable (semGuard s op) :=
  match op with
  | .post _ id => inferInstanceAs (Decidable (∀ w, (s.queue id).head? = some w → _))
  | .signal t _ => inferInstanceAs (Decidable (∀ id, ¬ Sleeps s t id))
  | .die t _ => inferInstanceAs (Decidable (Uninvolved s t))
  | .callWait .. | .tryWait .. | .block .. | .resume .. | .wake .. | .create .. => isTrue trivial

/-- The ring of a semaphore holds its waiters, each once; a sleeping waiter that
is not in it is held by exactly one post. -/
structure SemInv (s : SemSys) : Prop where
  live : ∀ t, s.pc t ≠ .idle → (s.tasks t).used = true
  nodup : ∀ id, (s.queue id).Nodup
  queued : ∀ id t, t ∈ s.queue id →
    s.pc t = .enqueued id ∧ (s.tasks t).status ≠ .blocked ∨ Sleeps s t id
  enqueued : ∀ id t, s.pc t = .enqueued id → t ∈ s.queue id
  asleep : ∀ id t, Sleeps s t id → t ∈ s.queue id ∨ ∃ p, s.pc p = .posting id (some t)
  held : ∀ p id t, s.pc p = .posting id (some t) → Sleeps s t id ∧ t ∉ s.queue id
  once : ∀ p q id id' t, s.pc p = .posting id (some t) → s.pc q = .posting id' (some t) → p = q

theorem SemInv.wakeUps {s : SemSys} (h : SemInv s) : WakeUps s where
  noneLost := by
    intro id t _ hpost _ hs
    rcases h.asleep id t hs with hq | ⟨p, hp⟩
    · exact hq
    · exact absurd hp (hpost p (some t))
  toWaiter := by
    intro id w hw _
    rw [(semDequeue_queue (s.sems id)).1] at hw
    rcases h.queued id w (List.mem_of_mem_head? hw) with hq | hs
    · exact ⟨h.live w (by simp [hq.1]), Or.inr (Or.inl hq.1)⟩
    · exact ⟨h.live w (by simp [hs.1]), Or.inr (Or.inr hs.1)⟩

theorem SemStart.inv {s : SemSys} (h : SemStart s) : SemInv s := by
  constructor <;> simp [h.idle, h.empty, Sleeps]

section Steps
variable {s s' : SemSys} {t : Tid} {id : SemId}

theorem setSem_queue (s : SemSys) (id id' : SemId) (m : Semaphore) :
    (s.setSem id m).queue id' = if id' = id then m.queue else s.queue id' := by
  by_cases hid : id' = id
  · subst hid
    simp [SemSys.queue, SemSys.setSem]
  · simp [SemSys.queue, SemSys.setSem, hid]

/-- Steps that change neither rings nor places, nor the status of a task that is
queued or in `task_block`. -/
theorem SemInv.of_same (h : SemInv s) (hq : ∀ id, s'.queue id = s.queue id)
    (hpc : s'.pc = s.pc) (hu : ∀ u, (s'.tasks u).used = (s.tasks u).used)
    (hst : ∀ u id, s.pc u = .enqueued id ∨ s.pc u = .blocked id →
      (s'.tasks u).status = (s.tasks u).status) : SemInv s' := by
  have hsleeps : ∀ u id, Sleeps s' u id ↔ Sleeps s u id := by
    intro u id
    rw [Sleeps, Sleeps, hpc]
    exact and_congr_right fun hb => by rw [hst u id (Or.inr hb)]
  obtain ⟨hlive, hnodup, hqueued, henqueued, hasleep, hheld, honce⟩ := h
  constructor <;> simp only [hq, hpc, hu, hsleeps] <;> try assumption
  intro id u hmem
  rcases hqueued id u hmem with he | hs
  · exact Or.inl ⟨he.1, by rw [hst u id (Or.inl he.1)]; exact he.2⟩
  · exact Or.inr hs

/-- An uninvolved task that stays uninvolved may change in any other way. -/
theorem SemInv.move (h : SemInv s) (hq : ∀ id, s'.queue id = s.queue id)
    (hpc : ∀ u, u ≠ t → s'.pc u = s.pc u) (htasks : ∀ u, u ≠ t → s'.tasks u = s.tasks u)
    (hold : Uninvolved s t) (hnew : Uninvolved s' t)
    (hlive : s'.pc t ≠ .idle → (s'.tasks t).used = true) : SemInv s' := by
  -- every clause about another task reads the same in both states
  have hsleeps : ∀ u, u ≠ t → ∀ id, Sleeps s' u id ↔ Sleeps s u id := by
    intro u hut id
    simp only [Sleeps, hpc u hut, htasks u hut]
  have hnotin : ∀ id, t ∉ s.queue id := by
    intro id hmem
    rcases h.queued id t hmem with he | hs
    · exact (hold id).1 he.1
    · exact (hold id).2.1 hs
  have hposting : ∀ p id w, s'.pc p = .posting id (some w) → s.pc p = .posting id (some w) := by
    intro p id w hp
    have hpt : p ≠ t := by
      intro he
      subst he
      exact (hnew id).2.2 w hp
    rwa [hpc p hpt] at hp
  have hheld : ∀ p id, s.pc p ≠ .posting id (some t) := by
    intro p id hp
    exact (hold id).2.1 (h.held p id t hp).1
  constructor
  case live =>
    intro u hu
    by_cases hut : u = t
    · subst hut
      exact hlive hu
    · rw [hpc u hut] at hu
      rw [htasks u hut]
      exact h.live u hu
  case nodup =>
    intro id
    rw [hq]
    exact h.nodup id
  case queued =>
    intro id u hu
    rw [hq] at hu
    have hut : u ≠ t := fun he => hnotin id (he ▸ hu)
    rw [hpc u hut, htasks u hut, hsleeps u hut]
    exact h.queued id u hu
  case enqueued =>
    intro id u hu
    have hut : u ≠ t := fun he => (hnew id).1 (he ▸ hu)
    rw [hpc u hut] at hu
    rw [hq]
    exact h.enqueued id u hu
  case asleep =>
    intro id u hu
    have hut : u ≠ t := fun he => (hnew id).2.1 (he ▸ hu)
    rw [hsleeps u hut] at hu
    rw [hq]
    rcases h.asleep id u hu with hmem | ⟨p, hp⟩
    · exact Or.inl hmem
    · have hpt : p ≠ t := fun he => (hold id).2.2 u (he ▸ hp)
      exact Or.inr ⟨p, by rw [hpc p hpt, hp]⟩
  case held =>
    intro p id u hp
    have hp := hposting p id u hp
    have hut : u ≠ t := fun he => hheld p id (he ▸ hp)
    rw [hq, hsleeps u hut]
    exact h.held p id u hp
  case once =>
    intro p q id id' u hp hq
    exact h.once p q id id' u (hposting p id u hp) (hposting q id' u hq)

/-- A waiting task puts itself in the ring. -/
theorem SemInv.enqueue (h : SemInv s) (hr : Runnable s.tasks t) (hwait : s.pc t = .waiting id)
    (hq : ∀ i, s'.queue i = if i = id then s.queue id ++ [t] else s.queue i)
    (hpc : ∀ u, s'.pc u = if u = t then .enqueued id else s.pc u)
    (htasks : s'.tasks = s.tasks) : SemInv s' := by
  have hnotin : ∀ i, t ∉ s.queue i := by
    intro i hmem
    rcases h.queued i t hmem with he | hs
    · simp [hwait] at he
    · simp [Sleeps, hwait] at hs
  obtain ⟨hu, hst⟩ := hr
  obtain ⟨hlive, hnodup, hqueued, henqueued, hasleep, hheld, honce⟩ := h
  unfold Sleeps at *
  constructor <;> simp only [Sleeps, hq, hpc, htasks] <;> grind

/-- A queued task stores its status and sleeps. -/
theorem SemInv.block (h : SemInv s) (henq : s.pc t = .enqueued id)
    (hq : ∀ i, s'.queue i = s.queue i)
    (hpc : ∀ u, s'.pc u = if u = t then .blocked id else s.pc u)
    (hu : ∀ u, (s'.tasks u).used = (s.tasks u).used)
    (hst : ∀ u, (s'.tasks u).status = if u = t then .blocked else (s.tasks u).status) :
    SemInv s' := by
  obtain ⟨hlive, hnodup, hqueued, henqueued, hasleep, hheld, honce⟩ := h
  unfold Sleeps at *
  constructor <;> simp only [Sleeps, hq, hpc, hu, hst] <;> grind

/-- A post takes the sleeping waiter in front. -/
theorem SemInv.dequeue {w : Tid} {rest : List Tid} (h : SemInv s) (hr : Runnable s.tasks t)
    (hidle : s.pc t = .idle) (hfront : s.queue id = w :: rest) (hguard : s.pc w ≠ .enqueued id)
    (hq : ∀ i, s'.queue i = if i = id then rest else s.queue i)
    (hpc : ∀ u, s'.pc u = if u = t then .posting id (some w) else s.pc u)
    (htasks : s'.tasks = s.tasks) : SemInv s' := by
  have hsleeps : Sleeps s w id := by
    rcases h.queued id w (by simp [hfront]) with he | hs
    · exact absurd he.1 hguard
    · exact hs
  have hnodup : (w :: rest).Nodup := hfront ▸ h.nodup id
  have hmem : ∀ u, u ∈ s.queue id ↔ u = w ∨ u ∈ rest := by simp [hfront]
  have hother : ∀ i, i ≠ id → w ∉ s.queue i := by
    intro i hi hw
    rcases h.queued i w hw with he | hs
    · simp [hsleeps.1] at he
    · simp only [Sleeps, hsleeps.1, SemPc.blocked.injEq] at hs
      exact hi hs.1.symm
  obtain ⟨hu, hst⟩ := hr
  obtain ⟨hlive, hnodups, hqueued, henqueued, hasleep, hheld, honce⟩ := h
  unfold Sleeps at *
  constructor <;> simp only [Sleeps, hq, hpc, htasks] <;> grind

/-- The waiter a post holds is woken. -/
theorem SemInv.wake {w : Tid} (h : SemInv s) (hpost : s.pc t = .posting id (some w))
    (hq : ∀ i, s'.queue i = s.queue i)
    (hpc : ∀ u, s'.pc u = if u = t then .idle else s.pc u)
    (hu : ∀ u, (s'.tasks u).used = (s.tasks u).used)
    (hst : ∀ u, (s'.tasks u).status = if u = w then .running else (s.tasks u).status) :
    SemInv s' := by
  obtain ⟨hlive, hnodup, hqueued, henqueued, hasleep, hheld, honce⟩ := h
  unfold Sleeps at *
  constructor <;> simp only [Sleeps, hq, hpc, hu, hst] <;> grind

theorem uninvolved_of_pc {p : SemPc} (hpc : s.pc t = p) (henq : ∀ id, p ≠ .enqueued id)
    (hblk : ∀ id, p ≠ .blocked id) (hpost : ∀ id w, p ≠ .posting id (some w)) :
    Uninvolved s t := by
  intro id
  rw [hpc]
  exact ⟨henq id, fun hs => hblk id (hpc ▸ hs.1), hpost id⟩

/-- A runnable task goes on to a place where it is uninvolved. -/
theorem SemInv.goto {p : SemPc} (h : SemInv s) (hr : Runnable s.tasks t)
    (hold : Uninvolved s t) (henq : ∀ id, p ≠ .enqueued id) (hblk : ∀ id, p ≠ .blocked id)
    (hpost : ∀ id w, p ≠ .posting id (some w)) : SemInv (s.goto t p) := by
  refine h.move (t := t) (fun _ => rfl) ?_ (fun _ _ => rfl) hold ?_ (fun _ => hr.1)
  · intro u hu
    simp [SemSys.goto, hu]
  · exact uninvolved_of_pc (by simp [SemSys.goto]) henq hblk hpost

theorem waitSection_inv (h : SemInv s) (hr : Runnable s.tasks t)
    (hwait : s.pc t = .waiting id) : SemInv (waitSection s t id) := by
  unfold waitSection
  dsimp only
  split
  · have hsame : SemInv (s.setSem id { s.sems id with value := (s.sems id).value - 1 }) := by
      refine h.of_same ?_ rfl (fun _ => rfl) (fun _ _ _ => rfl)
      intro i
      rw [setSem_queue]
      split
      · next hi => rw [hi]; rfl
      · rfl
    exact hsame.goto hr (uninvolved_of_pc hwait (by simp) (by simp) (by simp)) (by simp) (by simp)
      (by simp)
  · split
    · exact h
    · next m hm =>
      refine h.enqueue hr hwait ?_ ?_ rfl
      · intro i
        change (s.setSem id m).queue i = _
        rw [setSem_queue, (semEnqueue_queue hm).1]
        rfl
      · intro u
        simp [SemSys.goto, SemSys.setSem, Function.update_apply]

theorem postSection_inv (h : SemInv s) (hr : Runnable s.tasks t) (hidle : s.pc t = .idle)
    (hguard : ∀ w, (s.queue id).head? = some w → s.pc w ≠ .enqueued id) :
    SemInv (postSection s t id) := by
  obtain ⟨hhead, htail, -, -⟩ := semDequeue_queue (s.sems id)
  have hq : ∀ i, (postSection s t id).queue i =
      if i = id then (s.queue id).tail else s.queue i := by
    intro i
    change (s.setSem id _).queue i = _
    rw [setSem_queue]
    congr 1
  have hpc : ∀ u, (postSection s t id).pc u =
      if u = t then .posting id (s.queue id).head? else s.pc u := by
    intro u
    change Function.update s.pc t (.posting id (semDequeue (s.sems id)).1) u = _
    rw [hhead, Function.update_apply]
    rfl
  cases hfront : s.queue id with
  | nil =>
      refine h.move (t := t) ?_ ?_ (fun _ _ => rfl)
        (uninvolved_of_pc hidle (by simp) (by simp) (by simp)) ?_ (fun _ => hr.1)
      · intro i
        rw [hq]
        split
        · next hi => rw [hi, hfront]; rfl
        · rfl
      · intro u hu
        rw [hpc, if_neg hu]
      · apply uninvolved_of_pc (hpc t) <;> simp [hfront]
  | cons w rest =>
      refine h.dequeue hr hidle hfront (hguard w (by simp [hfront])) ?_ ?_ rfl
      · intro i
        rw [hq, hfront]
        rfl
      · intro u
        rw [hpc, hfront]
        rfl

theorem postWake_inv {w : Option Tid} (h : SemInv s) (hr : Runnable s.tasks t)
    (hpost : s.pc t = .posting id w) : SemInv (postWake s t w) := by
  cases w with
  | none =>
      exact h.goto hr (uninvolved_of_pc hpost (by simp) (by simp) (by simp)) (by simp) (by simp)
        (by simp)
  | some w =>
      obtain ⟨hs, -⟩ := h.held t id w hpost
      have hused := h.live w (by simp [hs.1])
      refine h.wake hpost (fun _ => rfl) ?_ ?_ ?_
      · intro u
        simp [postWake, SemSys.goto, Function.update_apply]
      · intro u
        simp [postWake, SemSys.goto]
      · intro u
        simp [postWake, SemSys.goto, taskUnblock_status, hused, hs.2]

/-- One step that meets the condition keeps the rings in order. -/
theorem semStep_inv (h : SemInv s) {op : SemOp} (hg : semGuard s op) : SemInv (semStep s op) := by
  cases op with
  | callWait t id =>
      simp only [semStep]
      split
      · next hc =>
        exact h.goto hc.1 (uninvolved_of_pc hc.2.1 (by simp) (by simp) (by simp)) (by simp)
          (by simp) (by simp)
      · exact h
  | tryWait t =>
      simp only [semStep]
      split
      · next id hpc =>
        split
        · next hr => exact waitSection_inv h hr hpc
        · exact h
      · exact h
  | block t =>
      simp only [semStep]
      split
      · next id hpc =>
        split
        · next hr =>
          refine h.block hpc (fun _ => rfl) ?_ ?_ ?_
          · intro u
            simp [SemSys.goto, Function.update_apply]
          · intro u
            simp [SemSys.goto]
          · intro u
            simp [SemSys.goto, taskBlock_status]
        · exact h
      · exact h
  | resume t =>
      simp only [semStep]
      split
      · next id hpc =>
        split
        · next hr =>
          apply h.goto hr _ (by simp) (by simp) (by simp)
          intro i
          simp [hpc, Sleeps, hr.2]
        · exact h
      · exact h
  | post t id =>
      simp only [semStep]
      split
      · next hc => exact postSection_inv h hc.1 hc.2.1 hg
      · exact h
  | wake t =>
      simp only [semStep]
      split
      · next id w hpc =>
        split
        · next hr => exact postWake_inv h hr hpc
        · exact h
      · exact h
  | signal t sig =>
      refine h.of_same (fun _ => rfl) rfl (taskSendSignal_used s.tasks t sig) ?_
      intro u id hpc
      apply taskSendSignal_status
      by_cases hut : u = t
      · subst hut
        left
        rcases hpc with he | hb
        · rcases h.queued id u (h.enqueued id u he) with hq | hs
          · exact hq.2
          · exact absurd hs (hg id)
        · exact fun hblocked => hg id ⟨hb, hblocked⟩
      · exact Or.inr hut
  | die t e =>
      simp only [semStep]
      split
      · refine h.move (t := t) (fun _ => rfl) ?_ ?_ hg ?_ ?_
        · intro u hu
          simp [SemSys.goto, hu]
        · intro u hu
          simp [SemSys.goto, hu]
        · exact uninvolved_of_pc (p := .idle) (by simp [SemSys.goto]) (by simp) (by simp) (by simp)
        · simp [SemSys.goto]
      · exact h
  | create c =>
      simp only [semStep]
      split
      · exact h
      · next t hslot =>
        have hdead := (Creation.slot_spec hslot).2
        have hidle : s.pc t = .idle := by
          by_contra hpc
          rw [h.live t hpc] at hdead
          cases hdead
        refine h.move (t := t) (fun _ => rfl) ?_ ?_
          (uninvolved_of_pc hidle (by simp) (by simp) (by simp)) ?_ ?_
        · intro u hu
          simp [SemSys.goto, hu]
        · intro u hu
          simp [SemSys.goto, hu]
        · exact uninvolved_of_pc (p := .idle) (by simp [SemSys.goto]) (by simp) (by simp) (by simp)
        · simp [SemSys.goto]

end Steps

/-- In every run that meets the condition no wake-up is lost and posts wake
waiters. -/
theorem wake_ups {s : SemSys} (r : Reach SemStart semGuard semStep s) : WakeUps s := by
  apply SemInv.wakeUps
  exact r.invariant (fun _ h => h.inv) fun _ _ h hg => semStep_inv h hg

/-- Two tasks that share semaphore 0, whose value is zero. -/
def twoTasks : SemSys where
  tasks := fun t => { Task.empty with used := t = 1 ∨ t = 2 }
  sems := fun _ => ⟨0, true, ⟨fun _ => 0, 0, 0⟩⟩
  pc := fun _ => .idle

theorem twoTasks_start : SemStart twoTasks where
  idle := fun _ => rfl
  empty := by decide

/-- The waiter sleeps before the post and is woken by it. -/
def sleepThenPost : List SemOp :=
  [.callWait 1 0, .tryWait 1, .block 1, .post 2 0, .wake 2, .resume 1, .tryWait 1]

theorem wake_ups_sleep_then_post : WakeUps (sleepThenPost.foldl semStep twoTasks) :=
  wake_ups ((Reach.start twoTasks_start).guarded (by decide))

/-- The post falls between the ring and the sleep of the waiter. -/
def postBeforeSleep : List SemOp :=
  [.callWait 1 0, .tryWait 1, .post 2 0, .wake 2, .block 1]

theorem post_before_sleep_is_lost :
    ¬ ∀ s, Reach SemStart anyInput semStep s → WakeUps s := by
  intro h
  have hs := h _ ((Reach.start twoTasks_start).foldl postBeforeSleep)
  have hmem := hs.noneLost 0 1 (by decide) (by decide) (by decide) (by decide)
  revert hmem
  decide

end OriaOS.Sync
