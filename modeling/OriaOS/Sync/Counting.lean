import OriaOS.Sync.Semaphore

/-!
# Counting at semaphores

What a semaphore is for: its value is what `sem_alloc` was given, plus one for
each post, minus one for each wait that came through. The counter is an `int8_t`,
so neither the first value nor the number of posts may take it past 127.

A semaphore of value 1 is a mutex for tasks that post only from inside, having
come through a wait, and do not wait again there.
-/

namespace OriaOS.Sync

open OriaOS.Lib OriaOS.Sched

/-! ## Allocation -/

/-- `sem_alloc`: the slot, none for -1. -/
def semAlloc (s : SemSys) (v : Nat) : SemSys × Option SemId :=
  match (List.finRange semMax).find? fun id => !(s.sems id).used with
  | none => (s, none)
  | some id => (s.setSem id ⟨int8 v, true, ⟨(s.sems id).waiters.buf, 0, 0⟩⟩, some id)

/-- `sem_free`. -/
def semFree (s : SemSys) (id : SemId) : SemSys :=
  s.setSem id { s.sems id with used := false }

/-! ## The tally -/

/-- What has happened at a semaphore since it was allocated: who came through a
wait and has not posted since, and whether it was used as a mutex all along. -/
structure Tally where
  first : Nat
  posts : Nat
  waits : Nat
  inside : Finset Tid
  mutex : Bool

namespace Tally

def start (v : Nat) : Tally := ⟨v, 0, 0, ∅, true⟩

def wait (c : Tally) (t : Tid) : Tally :=
  { c with
    waits := c.waits + 1, inside := insert t c.inside
    mutex := c.mutex && decide (t ∉ c.inside) }

def post (c : Tally) (t : Tid) : Tally :=
  { c with
    posts := c.posts + 1, inside := c.inside.erase t
    mutex := c.mutex && decide (t ∈ c.inside) }

/-- A task that dies is nowhere inside any more. -/
def leave (c : Tally) (t : Tid) : Tally := { c with inside := c.inside.erase t }

end Tally

/-- What a step means for the count. -/
inductive SemEvent where
  | waited (t : Tid) (id : SemId)
  | posted (t : Tid) (id : SemId)
  | died (t : Tid)
  | silent

/-- A wait is complete once the section of `sem_wait` has taken one, a post once
that of `sem_post` has added one. -/
def semEvent (s : SemSys) : SemOp → SemEvent
  | .tryWait t =>
      match s.pc t with
      | .waiting id =>
          if Runnable s.tasks t ∧ 0 < (s.sems id).value then .waited t id else .silent
      | _ => .silent
  | .post t id =>
      if Runnable s.tasks t ∧ s.pc t = .idle ∧ (s.sems id).used then .posted t id else .silent
  | .die t _ => if (s.tasks t).used then .died t else .silent
  | _ => .silent

structure CountSys where
  sys : SemSys
  tally : SemId → Tally

def record (tally : SemId → Tally) : SemEvent → SemId → Tally
  | .waited t id => Function.update tally id ((tally id).wait t)
  | .posted t id => Function.update tally id ((tally id).post t)
  | .died t => fun id => (tally id).leave t
  | .silent => tally

inductive CountOp where
  | alloc (v : Nat)
  | free (id : SemId)
  | sem (op : SemOp)

def countStep (s : CountSys) : CountOp → CountSys
  | .alloc v =>
      match semAlloc s.sys v with
      | (sys, none) => { s with sys := sys }
      | (sys, some id) => ⟨sys, Function.update s.tally id (Tally.start v)⟩
  | .free id => { s with sys := semFree s.sys id }
  | .sem op => ⟨semStep s.sys op, record s.tally (semEvent s.sys op)⟩

/-- After `sem_init_all`, with nobody at a semaphore. -/
structure CountStart (s : CountSys) : Prop where
  sys : SemStart s.sys
  value : ∀ id, (s.sys.sems id).value = 0
  tally : ∀ id, s.tally id = Tally.start 0

/-- The value is the count, so no more waits come through than were let in, and as
a mutex the semaphore lets in one task at a time. -/
structure CountOk (s : CountSys) : Prop where
  value : ∀ id, (s.sys.sems id).value =
    (s.tally id).first + (s.tally id).posts - (s.tally id).waits
  nonneg : ∀ id, 0 ≤ (s.sys.sems id).value
  waits : ∀ id, (s.tally id).waits ≤ (s.tally id).first + (s.tally id).posts
  mutex : ∀ id, (s.tally id).first = 1 → (s.tally id).mutex = true →
    (s.tally id).inside.card ≤ 1

/-- A post finds room in the counter. -/
def HasRoom (s : SemSys) : SemEvent → Prop
  | .posted _ id => (s.sems id).value < 127
  | _ => True

instance (s : SemSys) (ev : SemEvent) : Decidable (HasRoom s ev) :=
  match ev with
  | .posted _ id => inferInstanceAs (Decidable ((s.sems id).value < 127))
  | .waited .. | .died _ | .silent => isTrue trivial

/-- The condition on the steps: no semaphore starts with more than 127, and none is
posted that stands at 127. -/
def countGuard (s : CountSys) : CountOp → Prop
  | .alloc v => v ≤ 127
  | .free _ => True
  | .sem op => HasRoom s.sys (semEvent s.sys op)

instance (s : CountSys) (op : CountOp) : Decidable (countGuard s op) :=
  match op with
  | .alloc v => inferInstanceAs (Decidable (v ≤ 127))
  | .free _ => isTrue trivial
  | .sem op => inferInstanceAs (Decidable (HasRoom s.sys (semEvent s.sys op)))

/-! ## One step -/

section Steps
variable {s : SemSys} {tally : SemId → Tally}

/-- The value agrees with the tally, and every task inside has come through a wait
of its own. -/
structure Counted (value : Int) (c : Tally) : Prop where
  sum : value = c.first + c.posts - c.waits
  nonneg : 0 ≤ value
  inside : c.mutex = true → c.inside.card + c.posts ≤ c.waits

theorem Counted.start {v : Nat} : Counted v (Tally.start v) := by
  constructor <;> simp [Tally.start]

theorem Counted.wait {value : Int} {c : Tally} (h : Counted value c) (hpos : 0 < value) (t : Tid) :
    Counted (value - 1) (c.wait t) := by
  have hvalue := h.sum
  constructor
  · simp only [Tally.wait]
    omega
  · omega
  · intro hmutex
    simp only [Tally.wait, Bool.and_eq_true, decide_eq_true_eq] at hmutex ⊢
    have hinside := h.inside hmutex.1
    rw [Finset.card_insert_of_notMem hmutex.2]
    omega

theorem Counted.post {value : Int} {c : Tally} (h : Counted value c) (t : Tid) :
    Counted (value + 1) (c.post t) := by
  have hvalue := h.sum
  have hnonneg := h.nonneg
  constructor
  · simp only [Tally.post]
    omega
  · omega
  · intro hmutex
    simp only [Tally.post, Bool.and_eq_true, decide_eq_true_eq] at hmutex ⊢
    have hinside := h.inside hmutex.1
    have hcard := Finset.card_erase_add_one hmutex.2
    omega

theorem Counted.leave {value : Int} {c : Tally} (h : Counted value c) (t : Tid) :
    Counted value (c.leave t) := by
  refine ⟨h.sum, h.nonneg, fun hmutex => ?_⟩
  have hinside := h.inside hmutex
  have hle := Finset.card_erase_le (s := c.inside) (a := t)
  simp only [Tally.leave]
  omega

theorem int8_of_le {n : Int} (h0 : 0 ≤ n) (h : n ≤ 127) : int8 n = n := by
  rw [int8, Int.bmod_def]
  omega

/-- One of two counted slots, by which slot it is. -/
theorem counted_update {value : SemId → Int} (h : ∀ id, Counted (value id) (tally id)) {id : SemId}
    {x : Int} {c : Tally} (hnew : Counted x c) (i : SemId) :
    Counted (if i = id then x else value i) (Function.update tally id c i) := by
  rw [Function.update_apply]
  split
  · exact hnew
  · exact h i

theorem setSem_value (s : SemSys) (id i : SemId) (m : Semaphore) :
    ((s.setSem id m).sems i).value = if i = id then m.value else (s.sems i).value := by
  change (Function.update s.sems id m i).value = _
  rw [Function.update_apply]
  split <;> rfl

/-- A step changes the value of a semaphore as its event says. -/
theorem semStep_value (s : SemSys) (op : SemOp) (i : SemId) :
    ((semStep s op).sems i).value =
      match semEvent s op with
      | .waited _ id => if i = id then (s.sems id).value - 1 else (s.sems i).value
      | .posted _ id => if i = id then int8 ((s.sems id).value + 1) else (s.sems i).value
      | _ => (s.sems i).value := by
  cases op with
  | tryWait t =>
      simp only [semStep, semEvent]
      cases hpc : s.pc t with
      | waiting id =>
          dsimp only
          by_cases hr : Runnable s.tasks t
          · rw [if_pos hr]
            unfold waitSection
            by_cases hpos : 0 < (s.sems id).value
            · simp only [hpos, hr, and_self, if_true]
              exact setSem_value s id i _
            · simp only [hpos, hr, and_false, if_false]
              split
              · rfl
              · next m hm =>
                change ((s.setSem id m).sems i).value = _
                rw [setSem_value, (semEnqueue_queue hm).2.1]
                split
                · next hi => rw [hi]
                · rfl
          · simp [hr]
      | _ => rfl
  | post t id =>
      simp only [semStep, semEvent]
      split
      · have hvalue := (semDequeue_queue (s.sems id)).2.2.1
        change ((s.setSem id { (semDequeue (s.sems id)).2 with
          value := int8 ((semDequeue (s.sems id)).2.value + 1) }).sems i).value = _
        rw [setSem_value, hvalue]
      · rfl
  | callWait t id =>
      simp only [semStep, semEvent]
      split <;> rfl
  | block t =>
      simp only [semStep, semEvent]
      split
      · split <;> rfl
      · rfl
  | resume t =>
      simp only [semStep, semEvent]
      split
      · split <;> rfl
      · rfl
  | wake t =>
      simp only [semStep, semEvent]
      split
      · split
        · unfold postWake
          split <;> rfl
        · rfl
      · rfl
  | signal t sig => rfl
  | die t e =>
      simp only [semStep, semEvent]
      by_cases hu : (s.tasks t).used = true
      · rw [if_pos hu, if_pos hu]
        rfl
      · rw [if_neg hu, if_neg hu]
  | create c =>
      simp only [semStep, semEvent]
      split <;> rfl

theorem semStep_counted (h : ∀ id, Counted (s.sems id).value (tally id)) {op : SemOp}
    (hg : countGuard ⟨s, tally⟩ (.sem op)) (i : SemId) :
    Counted ((semStep s op).sems i).value (record tally (semEvent s op) i) := by
  rw [semStep_value]
  cases hev : semEvent s op with
  | waited t id =>
      have hpos : 0 < (s.sems id).value := by
        cases op with
        | tryWait u =>
            simp only [semEvent] at hev
            split at hev
            · split at hev
              · next hc =>
                cases hev
                exact hc.2
              · cases hev
            · cases hev
        | post u id' =>
            simp only [semEvent] at hev
            split at hev <;> cases hev
        | die u e =>
            simp only [semEvent] at hev
            split at hev <;> cases hev
        | _ => cases hev
      exact counted_update h ((h id).wait hpos t) i
  | posted t id =>
      simp only [countGuard, hev, HasRoom] at hg
      have hnonneg := (h id).nonneg
      dsimp only
      rw [int8_of_le (by omega) (by omega)]
      exact counted_update h ((h id).post t) i
  | died t => exact (h i).leave t
  | silent => exact h i

end Steps

theorem countStep_counted {s : CountSys} (h : ∀ id, Counted (s.sys.sems id).value (s.tally id))
    {op : CountOp} (hg : countGuard s op) (i : SemId) :
    Counted ((countStep s op).sys.sems i).value ((countStep s op).tally i) := by
  cases op with
  | alloc v =>
      simp only [countStep, semAlloc]
      split
      · next hnone =>
        split at hnone
        · cases hnone
          exact h i
        · cases hnone
      · next sys id hsome =>
        split at hsome
        · cases hsome
        · cases hsome
          have hv : v ≤ 127 := hg
          rw [setSem_value]
          dsimp only
          rw [int8_of_le (by omega) (by omega)]
          exact counted_update h Counted.start i
  | free id =>
      simp only [countStep, semFree]
      rw [setSem_value]
      split
      · next hi =>
        rw [hi]
        exact h id
      · exact h i
  | sem op => exact semStep_counted h hg i

theorem CountStart.counted {s : CountSys} (h : CountStart s) (id : SemId) :
    Counted (s.sys.sems id).value (s.tally id) := by
  rw [h.value, h.tally]
  exact Counted.start

/-- In every run that meets the condition, every semaphore counts. -/
theorem counts {s : CountSys} (r : Reach CountStart countGuard countStep s) : CountOk s := by
  have h := r.invariant (P := fun s => ∀ id, Counted (s.sys.sems id).value (s.tally id))
    (fun _ h => h.counted) fun _ _ h hg => countStep_counted h hg
  refine ⟨fun id => (h id).sum, fun id => (h id).nonneg, ?_, ?_⟩
  · intro id
    have hvalue := (h id).sum
    have hnonneg := (h id).nonneg
    omega
  · intro id hone hmutex
    have hvalue := (h id).sum
    have hnonneg := (h id).nonneg
    have hinside := (h id).inside hmutex
    omega

/-- Two tasks and no semaphore yet. -/
def noSemaphores : CountSys where
  sys := { twoTasks with sems := fun _ => ⟨0, false, ⟨fun _ => 0, 0, 0⟩⟩ }
  tally := fun _ => Tally.start 0

theorem noSemaphores_start : CountStart noSemaphores where
  sys := ⟨fun _ => rfl, by decide⟩
  value := fun _ => rfl
  tally := fun _ => rfl

/-- The first task enters a mutex, the second waits and enters after it. -/
def countHandOver : List CountOp :=
  [.alloc 1, .sem (.callWait 1 0), .sem (.tryWait 1), .sem (.callWait 2 0), .sem (.tryWait 2),
    .sem (.block 2), .sem (.post 1 0), .sem (.wake 1), .sem (.resume 2), .sem (.tryWait 2)]

theorem counts_hand_over : CountOk (countHandOver.foldl countStep noSemaphores) :=
  counts ((Reach.start noSemaphores_start).guarded (by decide))

/-- A semaphore is asked for 128. -/
theorem first_value_wraps : ¬ ∀ s, Reach CountStart anyInput countStep s → CountOk s := by
  intro h
  have hs := h _ ((Reach.start noSemaphores_start).foldl [.alloc 128])
  have hnonneg := hs.nonneg 0
  revert hnonneg
  decide

end OriaOS.Sync
