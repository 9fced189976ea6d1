import OriaOS.Lib.Reach
import OriaOS.Sched.Table

/-!
# Address spaces of tasks

Which task uses which address space, and when `vmm_free_user_memory` is called
on one. Threads share the space of the task that created them and no count is
kept: a process frees its space when it exits, `task_kill` frees the space of
whatever it kills, and `SYS_EXEC_REPLACE` that of its caller.

Each operation is one step. The shell in slot 0 runs on the boot tables, which
are space 0, and makes none of these calls itself. A task that is killed while it
runs keeps the processor until the next tick, so that a caller may have a free slot.
-/

namespace OriaOS.Sched

open OriaOS.Lib

/-- `next` is the name of the next space to be created; `freed` lists the spaces
`vmm_free_user_memory` was called on. -/
structure SpaceSys where
  tasks : Tasks
  next : Nat
  freed : List Nat

namespace SpaceSys

/-- `vmm_free_user_memory`, which ignores a null pointer. -/
def free (s : SpaceSys) : Option Nat → SpaceSys
  | none => s
  | some d => { s with freed := s.freed ++ [d] }

/-- A space is created and freed again without having been used. -/
def scratch (s : SpaceSys) : SpaceSys :=
  { s with next := s.next + 1, freed := s.freed ++ [s.next] }

/-- `task_create`, which creates the space behind its search for a slot. -/
def createKernel (s : SpaceSys) (hasAp : Bool) : SpaceSys :=
  match freeSlot s.tasks with
  | none => s
  | some id =>
      { s with tasks := modify s.tasks id (initKernel hasAp s.next), next := s.next + 1 }

/-- `SYS_EXEC` and `kernel_exec` behind `elf_load`: they keep the space when
`task_create_user` finds no slot. -/
def createUser (s : SpaceSys) : SpaceSys :=
  match freeSlot s.tasks with
  | none => { s with next := s.next + 1 }
  | some id => { s with tasks := modify s.tasks id (initUser s.next), next := s.next + 1 }

/-- `SYS_THREAD_CREATE`. -/
def createThread (s : SpaceSys) (parent : Tid) : SpaceSys :=
  match (Creation.thread parent).slot s.tasks with
  | none => s
  | some id => { s with tasks := modify s.tasks id (initThread s.tasks parent) }

/-- `SYS_FORK`. -/
def fork (s : SpaceSys) (parent : Tid) : SpaceSys :=
  if (s.tasks parent).pageDir = none then s
  else
    match freeSlot s.tasks with
    | none => s.scratch
    | some id =>
        { s with tasks := modify s.tasks id (initFork s.tasks parent s.next), next := s.next + 1 }

/-- `SYS_EXEC_REPLACE`; `loads` tells whether the new image could be loaded. -/
def execReplace (s : SpaceSys) (tid : Tid) (loads : Bool) : SpaceSys :=
  if loads then
    { s with
      tasks := modify s.tasks tid fun t => { t with pageDir := some s.next }
      next := s.next + 1 }.free (s.tasks tid).pageDir
  else s.scratch

/-- `task_exit_code`: only a process frees its space. -/
def exit (s : SpaceSys) (tid : Tid) : SpaceSys :=
  let ended := { s with tasks := taskExitCode s.tasks tid }
  if (s.tasks tid).isThread then ended else ended.free (s.tasks tid).pageDir

def kill (s : SpaceSys) (id : Tid) : SpaceSys :=
  if id = 0 ∨ (s.tasks id).used = false then s
  else { s with tasks := modify s.tasks id killSlot }.free (s.tasks id).pageDir

end SpaceSys

inductive SpaceOp where
  | createKernel (hasAp : Bool)
  | createUser
  | createThread (parent : Tid)
  | fork (parent : Tid)
  | execReplace (tid : Tid) (loads : Bool)
  | exit (tid : Tid)
  | signal (tid : Tid) (sig : Nat)
  | checkSignals (tid : Tid)
  | kill (id : Tid)

def spaceStep (s : SpaceSys) : SpaceOp → SpaceSys
  | .createKernel hasAp => s.createKernel hasAp
  | .createUser => s.createUser
  | .createThread parent => if parent ≠ 0 then s.createThread parent else s
  | .fork parent => if parent ≠ 0 then s.fork parent else s
  | .execReplace tid loads => if tid ≠ 0 then s.execReplace tid loads else s
  | .exit tid => if tid ≠ 0 then s.exit tid else s
  | .signal tid sig => { s with tasks := taskSendSignal s.tasks tid sig }
  | .checkSignals tid => if tid ≠ 0 ∧ Terminating (s.tasks tid) then s.exit tid else s
  | .kill id => s.kill id

/-- The table after `task_set_main`: the shell on the boot tables. -/
structure SpaceStart (s : SpaceSys) : Prop where
  shell : (s.tasks 0).used = true ∧ (s.tasks 0).isThread = false ∧ (s.tasks 0).pageDir = some 0
  alone : ∀ t, (s.tasks t).used = true → t = 0
  next : s.next = 1
  freed : s.freed = []

/-! ## Ownership -/

/-- The task is used and runs in the space. -/
def Uses (s : SpaceSys) (t : Tid) (d : Nat) : Prop :=
  (s.tasks t).used = true ∧ (s.tasks t).pageDir = some d

/-- Used tasks run in spaces that are not freed, and a space without users has been
freed, once. -/
structure SpacesOk (s : SpaceSys) : Prop where
  live : ∀ t, (s.tasks t).used = true → (s.tasks t).isUser = true →
    ∃ d, (s.tasks t).pageDir = some d ∧ d ∉ s.freed
  once : s.freed.Nodup
  unused : ∀ d ∈ s.freed, ∀ t, ¬ Uses s t d
  released : ∀ d < s.next, (∀ t, ¬ Uses s t d) → d ∈ s.freed

/-- The task is used and is not the shell. -/
def Calls (s : SpaceSys) (t : Tid) : Prop := t ≠ 0 ∧ (s.tasks t).used = true

instance (s : SpaceSys) (t : Tid) : Decidable (Calls s t) := inferInstanceAs (Decidable (_ ∧ _))

/-- The caller was not killed while it runs. -/
def CallerUsed (s : SpaceSys) (t : Tid) : Prop := t ≠ 0 → Calls s t

/-- No other used task runs in the space of the task. -/
def Alone (s : SpaceSys) (t : Tid) : Prop :=
  ∀ u, u ≠ t → (s.tasks u).used = true → (s.tasks u).pageDir ≠ (s.tasks t).pageDir

/-- Only its own threads share the space of an exiting process. -/
def ExitsWhole (s : SpaceSys) (t : Tid) : Prop :=
  (s.tasks t).isThread = false → ∀ u, u ≠ t → (s.tasks u).used = true →
    (s.tasks u).pageDir = (s.tasks t).pageDir → Reaps t u (s.tasks u)

/-- The condition on the steps: callers are used tasks, a kill and a replaced image
find the space used by one task only, a process exits with all who share its space,
and there is a slot for a program to be started. -/
def spaceGuard (s : SpaceSys) : SpaceOp → Prop
  | .createUser => freeSlot s.tasks ≠ none
  | .createThread parent | .fork parent => CallerUsed s parent
  | .execReplace tid loads => CallerUsed s tid ∧ (Calls s tid → loads = true → Alone s tid)
  | .exit tid => CallerUsed s tid ∧ (Calls s tid → ExitsWhole s tid)
  | .checkSignals tid =>
      CallerUsed s tid ∧ (Calls s tid → Terminating (s.tasks tid) → ExitsWhole s tid)
  | .kill id => Calls s id → Alone s id
  | .createKernel _ | .signal .. => True

/-- Every space in use has one process that owns it. -/
structure SpaceInv (s : SpaceSys) : Prop where
  shell : (s.tasks 0).used = true ∧ (s.tasks 0).isThread = false
  owned : ∀ t, (s.tasks t).used = true → ∃ d o, (s.tasks t).pageDir = some d ∧ Uses s o d ∧
    (s.tasks o).isThread = false
  owner : ∀ t u d, Uses s t d → Uses s u d → (s.tasks t).isThread = false →
    (s.tasks u).isThread = false → t = u
  named : ∀ t d, Uses s t d → d < s.next
  known : ∀ d ∈ s.freed, d < s.next
  once : s.freed.Nodup
  unused : ∀ d ∈ s.freed, ∀ t, ¬ Uses s t d
  released : ∀ d < s.next, (∀ t, ¬ Uses s t d) → d ∈ s.freed

theorem SpaceInv.ok {s : SpaceSys} (h : SpaceInv s) : SpacesOk s where
  live := by
    intro t hu _
    obtain ⟨d, _, hd, -, -⟩ := h.owned t hu
    exact ⟨d, hd, fun hf => h.unused d hf t ⟨hu, hd⟩⟩
  once := h.once
  unused := h.unused
  released := h.released

theorem SpaceStart.inv {s : SpaceSys} (h : SpaceStart s) : SpaceInv s where
  shell := ⟨h.shell.1, h.shell.2.1⟩
  owned := by
    intro t hu
    rw [h.alone t hu]
    exact ⟨0, 0, h.shell.2.2, ⟨h.shell.1, h.shell.2.2⟩, h.shell.2.1⟩
  owner := fun t u _ ht hu _ _ => (h.alone t ht.1).trans (h.alone u hu.1).symm
  named := by
    intro t d ht
    have hd := ht.2
    rw [h.alone t ht.1, h.shell.2.2, Option.some.injEq] at hd
    rw [h.next, ← hd]
    exact Nat.one_pos
  known := by simp [h.freed]
  once := by simp [h.freed]
  unused := by simp [h.freed]
  released := by
    intro d hd hunused
    rw [h.next, Nat.lt_one_iff] at hd
    subst hd
    exact absurd ⟨h.shell.1, h.shell.2.2⟩ (hunused 0)

section Steps
variable {s s' : SpaceSys} {t : Tid}

/-- Steps that change none of the fields that matter here. -/
theorem SpaceInv.of_same {ts : Tasks} (h : SpaceInv s)
    (hu : ∀ u, (ts u).used = (s.tasks u).used) (hd : ∀ u, (ts u).pageDir = (s.tasks u).pageDir)
    (ht : ∀ u, (ts u).isThread = (s.tasks u).isThread) : SpaceInv { s with tasks := ts } := by
  obtain ⟨h1, h2, h3, h4, h5, h6, h7, h8⟩ := h
  constructor <;> simp only [Uses, hu, hd, ht] at * <;> assumption

/-- A space that was never used is gone. -/
theorem SpaceInv.scratch (h : SpaceInv s) : SpaceInv s.scratch where
  shell := h.shell
  owned := h.owned
  owner := h.owner
  named := fun t d ht => Nat.lt_succ_of_lt (h.named t d ht)
  known := by
    intro d hd
    rcases List.mem_append.mp hd with hd | hd
    · exact Nat.lt_succ_of_lt (h.known d hd)
    · rw [List.mem_singleton.mp hd]
      exact Nat.lt_succ_self _
  once := by
    apply h.once.append (List.nodup_singleton _)
    exact List.disjoint_singleton.mpr fun hd => Nat.lt_irrefl _ (h.known _ hd)
  unused := by
    intro d hd u hu
    rcases List.mem_append.mp hd with hd | hd
    · exact h.unused d hd u hu
    · rw [List.mem_singleton.mp hd] at hu
      exact Nat.lt_irrefl _ (h.named u _ hu)
  released := by
    intro d hd hunused
    rcases Nat.lt_succ_iff_lt_or_eq.mp hd with hd | rfl
    · exact List.mem_append_left _ (h.released d hd hunused)
    · exact List.mem_append_right _ (List.mem_singleton_self _)

/-- A new process gets a new space. -/
theorem SpaceInv.create {x : Task} (h : SpaceInv s) (hfree : (s.tasks t).used = false)
    (hu : x.used = true) (hd : x.pageDir = some s.next) (hthread : x.isThread = false)
    (hself : s'.tasks t = x) (hother : ∀ u, u ≠ t → s'.tasks u = s.tasks u)
    (hnext : s'.next = s.next + 1) (hfreed : s'.freed = s.freed) : SpaceInv s' := by
  have huses : ∀ u d, Uses s' u d ↔ Uses s u d ∨ u = t ∧ d = s.next := by
    intro u d
    by_cases hut : u = t
    · subst hut
      simp [Uses, hself, hu, hd, hfree, eq_comm]
    · simp [Uses, hother u hut, hut]
  have hkeep : ∀ u d, Uses s u d → s'.tasks u = s.tasks u := by
    intro u d hud
    apply hother
    intro he
    rw [he, Uses, hfree] at hud
    cases hud.1
  have hnew : ∀ u, ¬ Uses s u s.next := fun u hud => Nat.lt_irrefl _ (h.named u _ hud)
  constructor
  case shell =>
    rw [hother 0]
    · exact h.shell
    · intro he
      rw [← he, h.shell.1] at hfree
      cases hfree
  case owned =>
    intro u hu'
    by_cases hut : u = t
    · subst hut
      refine ⟨s.next, u, by rw [hself, hd], (huses u _).mpr (Or.inr ⟨rfl, rfl⟩), ?_⟩
      rw [hself, hthread]
    · rw [hother u hut] at hu' ⊢
      obtain ⟨d, o, hud, ho, hot⟩ := h.owned u hu'
      exact ⟨d, o, hud, (huses o d).mpr (Or.inl ho), by rw [hkeep o d ho]; exact hot⟩
  case owner =>
    intro u v d hu' hv hut hvt
    rcases (huses u d).mp hu' with hu' | hu' <;> rcases (huses v d).mp hv with hv | hv
    · rw [hkeep u d hu'] at hut
      rw [hkeep v d hv] at hvt
      exact h.owner u v d hu' hv hut hvt
    · exact absurd (hv.2 ▸ hu') (hnew u)
    · exact absurd (hu'.2 ▸ hv) (hnew v)
    · rw [hu'.1, hv.1]
  case named =>
    intro u d hud
    rw [hnext]
    rcases (huses u d).mp hud with hud | hud
    · exact Nat.lt_succ_of_lt (h.named u d hud)
    · rw [hud.2]
      exact Nat.lt_succ_self _
  case known =>
    intro d hd'
    rw [hfreed] at hd'
    rw [hnext]
    exact Nat.lt_succ_of_lt (h.known d hd')
  case once => rw [hfreed]; exact h.once
  case unused =>
    intro d hd' u hud
    rw [hfreed] at hd'
    rcases (huses u d).mp hud with hud | hud
    · exact h.unused d hd' u hud
    · exact Nat.lt_irrefl _ (hud.2 ▸ h.known d hd')
  case released =>
    intro d hd' hunused
    rw [hfreed]
    rw [hnext] at hd'
    rcases Nat.lt_succ_iff_lt_or_eq.mp hd' with hlt | heq
    · exact h.released d hlt fun u hud => hunused u ((huses u d).mpr (Or.inl hud))
    · exact absurd ((huses t d).mpr (Or.inr ⟨rfl, heq⟩)) (hunused t)

/-- A new thread joins the space of its parent. -/
theorem SpaceInv.share {x : Task} {parent : Tid} (h : SpaceInv s)
    (hfree : (s.tasks t).used = false) (hparent : (s.tasks parent).used = true)
    (hu : x.used = true) (hd : x.pageDir = (s.tasks parent).pageDir) (hthread : x.isThread = true)
    (hself : s'.tasks t = x) (hother : ∀ u, u ≠ t → s'.tasks u = s.tasks u)
    (hnext : s'.next = s.next) (hfreed : s'.freed = s.freed) : SpaceInv s' := by
  have huses : ∀ u d, Uses s' u d ↔ Uses s u d ∨ u = t ∧ Uses s parent d := by
    intro u d
    by_cases hut : u = t
    · subst hut
      simp [Uses, hself, hu, hd, hfree, hparent]
    · simp [Uses, hother u hut, hut]
  have hkeep : ∀ u d, Uses s u d → s'.tasks u = s.tasks u := by
    intro u d hud
    apply hother
    intro he
    rw [he, Uses, hfree] at hud
    cases hud.1
  have hsome : ∀ d, (∃ u, Uses s' u d) ↔ ∃ u, Uses s u d := by
    intro d
    constructor
    · rintro ⟨u, hud⟩
      rcases (huses u d).mp hud with hud | hud
      · exact ⟨u, hud⟩
      · exact ⟨parent, hud.2⟩
    · rintro ⟨u, hud⟩
      exact ⟨u, (huses u d).mpr (Or.inl hud)⟩
  constructor
  case shell =>
    rw [hother 0]
    · exact h.shell
    · intro he
      rw [← he, h.shell.1] at hfree
      cases hfree
  case owned =>
    intro u hu'
    have hlive : ∃ v, (s.tasks v).used = true ∧ (s'.tasks u).pageDir = (s.tasks v).pageDir := by
      by_cases hut : u = t
      · exact ⟨parent, hparent, by rw [hut, hself, hd]⟩
      · rw [hother u hut] at hu' ⊢
        exact ⟨u, hu', rfl⟩
    obtain ⟨v, hv, hdir⟩ := hlive
    obtain ⟨d, o, hvd, ho, hot⟩ := h.owned v hv
    exact ⟨d, o, hdir.trans hvd, (huses o d).mpr (Or.inl ho), by rw [hkeep o d ho]; exact hot⟩
  case owner =>
    intro u v d hu' hv hut hvt
    have hold : ∀ w, Uses s' w d → (s'.tasks w).isThread = false →
        Uses s w d ∧ (s.tasks w).isThread = false := by
      intro w hw hwt
      rcases (huses w d).mp hw with hw | hw
      · exact ⟨hw, by rwa [hkeep w d hw] at hwt⟩
      · rw [hw.1, hself, hthread] at hwt
        cases hwt
    obtain ⟨hu', hut⟩ := hold u hu' hut
    obtain ⟨hv, hvt⟩ := hold v hv hvt
    exact h.owner u v d hu' hv hut hvt
  case named =>
    intro u d hud
    rw [hnext]
    obtain ⟨v, hv⟩ := (hsome d).mp ⟨u, hud⟩
    exact h.named v d hv
  case known => rw [hfreed, hnext]; exact h.known
  case once => rw [hfreed]; exact h.once
  case unused =>
    intro d hd' u hud
    rw [hfreed] at hd'
    obtain ⟨v, hv⟩ := (hsome d).mp ⟨u, hud⟩
    exact h.unused d hd' v hv
  case released =>
    intro d hd' hunused
    rw [hfreed]
    rw [hnext] at hd'
    apply h.released d hd'
    intro u hud
    obtain ⟨v, hv⟩ := (hsome d).mpr ⟨u, hud⟩
    exact hunused v hv

/-- The tasks in the set end, and the others stay as they are. -/
structure Ended (s : SpaceSys) (ts : Tasks) (gone : Tid → Prop) : Prop where
  used : ∀ u, (ts u).used = true ↔ (s.tasks u).used = true ∧ ¬ gone u
  kept : ∀ u, ¬ gone u → (ts u).pageDir = (s.tasks u).pageDir ∧
    (ts u).isThread = (s.tasks u).isThread

section Ending
variable {ts : Tasks} {gone : Tid → Prop}

theorem Ended.uses (he : Ended s ts gone) (hts : s'.tasks = ts) (u : Tid) (d : Nat) :
    Uses s' u d ↔ Uses s u d ∧ ¬ gone u := by
  rw [Uses, hts, he.used u]
  constructor
  · rintro ⟨⟨hu, hg⟩, hd⟩
    exact ⟨⟨hu, by rw [← (he.kept u hg).1, hd]⟩, hg⟩
  · rintro ⟨⟨hu, hd⟩, hg⟩
    exact ⟨⟨hu, hg⟩, by rw [(he.kept u hg).1, hd]⟩

/-- Threads end: their space keeps its owner. -/
theorem SpaceInv.endThreads (h : SpaceInv s) (he : Ended s ts gone)
    (hthreads : ∀ u, gone u → (s.tasks u).used = true → (s.tasks u).isThread = true) :
    SpaceInv { s with tasks := ts } := by
  have huses : ∀ u d, Uses { s with tasks := ts } u d ↔ Uses s u d ∧ ¬ gone u := he.uses rfl
  have hstays : ∀ o d, Uses s o d → (s.tasks o).isThread = false → ¬ gone o := by
    intro o d ho hot hg
    rw [hthreads o hg ho.1] at hot
    cases hot
  constructor
  case shell =>
    have hstay : ¬ gone 0 := by
      intro hg
      have := hthreads 0 hg h.shell.1
      rw [h.shell.2] at this
      cases this
    exact ⟨(he.used 0).mpr ⟨h.shell.1, hstay⟩, (he.kept 0 hstay).2.trans h.shell.2⟩
  case owned =>
    intro u hu
    obtain ⟨hu, hg⟩ := (he.used u).mp hu
    obtain ⟨d, o, hud, ho, hot⟩ := h.owned u hu
    have hog := hstays o d ho hot
    exact ⟨d, o, (he.kept u hg).1.trans hud, (huses o d).mpr ⟨ho, hog⟩,
      (he.kept o hog).2.trans hot⟩
  case owner =>
    intro u v d hu hv hut hvt
    obtain ⟨hu, hug⟩ := (huses u d).mp hu
    obtain ⟨hv, hvg⟩ := (huses v d).mp hv
    exact h.owner u v d hu hv ((he.kept u hug).2.symm.trans hut) ((he.kept v hvg).2.symm.trans hvt)
  case named => exact fun u d hud => h.named u d ((huses u d).mp hud).1
  case known => exact h.known
  case once => exact h.once
  case unused => exact fun d hd u hud => h.unused d hd u ((huses u d).mp hud).1
  case released =>
    intro d hd hunused
    apply h.released d hd
    intro u hud
    obtain ⟨d', o, hud', ho, hot⟩ := h.owned u hud.1
    rw [hud.2, Option.some.injEq] at hud'
    rw [← hud'] at ho
    exact hunused o ((huses o d).mpr ⟨ho, hstays o d ho hot⟩)

/-- A process ends with everyone in its space, and its space is freed. -/
theorem SpaceInv.endProcess {o : Tid} {d : Nat} (h : SpaceInv s) (he : Ended s ts gone)
    (hshell : o ≠ 0) (ho : Uses s o d)
    (hthreads : ∀ u, gone u → (s.tasks u).used = true → u = o ∨ (s.tasks u).isThread = true)
    (hwhole : ∀ u, Uses s u d → gone u) :
    SpaceInv { s with tasks := ts, freed := s.freed ++ [d] } := by
  have huses : ∀ u e, Uses { s with tasks := ts, freed := s.freed ++ [d] } u e ↔
      Uses s u e ∧ ¬ gone u := he.uses rfl
  have hstays : ∀ v e, e ≠ d → Uses s v e → (s.tasks v).isThread = false → ¬ gone v := by
    intro v e hne hv hvt hg
    rcases hthreads v hg hv.1 with hvo | hthread
    · rw [hvo, Uses, ho.2, Option.some.injEq] at hv
      exact hne hv.2.symm
    · rw [hthread] at hvt
      cases hvt
  have hfresh : d ∉ s.freed := fun hd => h.unused d hd o ho
  have hnone : ∀ u, ¬ Uses { s with tasks := ts, freed := s.freed ++ [d] } u d := by
    intro u hu
    obtain ⟨hu, hg⟩ := (huses u d).mp hu
    exact hg (hwhole u hu)
  constructor
  case shell =>
    have hstay : ¬ gone 0 := by
      intro hg
      rcases hthreads 0 hg h.shell.1 with h0 | h0
      · exact hshell h0.symm
      · rw [h.shell.2] at h0
        cases h0
    exact ⟨(he.used 0).mpr ⟨h.shell.1, hstay⟩, (he.kept 0 hstay).2.trans h.shell.2⟩
  case owned =>
    intro u hu
    obtain ⟨hu, hg⟩ := (he.used u).mp hu
    obtain ⟨e, v, hue, hv, hvt⟩ := h.owned u hu
    have hne : e ≠ d := fun hed => hg (hwhole u ⟨hu, hed ▸ hue⟩)
    have hvg := hstays v e hne hv hvt
    exact ⟨e, v, (he.kept u hg).1.trans hue, (huses v e).mpr ⟨hv, hvg⟩,
      (he.kept v hvg).2.trans hvt⟩
  case owner =>
    intro u v e hu hv hut hvt
    obtain ⟨hu, hug⟩ := (huses u e).mp hu
    obtain ⟨hv, hvg⟩ := (huses v e).mp hv
    exact h.owner u v e hu hv ((he.kept u hug).2.symm.trans hut) ((he.kept v hvg).2.symm.trans hvt)
  case named => exact fun u e hue => h.named u e ((huses u e).mp hue).1
  case known =>
    intro e hed
    rcases List.mem_append.mp hed with hed | hed
    · exact h.known e hed
    · rw [List.mem_singleton.mp hed]
      exact h.named o d ho
  case once =>
    exact h.once.append (List.nodup_singleton d) (List.disjoint_singleton.mpr hfresh)
  case unused =>
    intro e hed u hue
    rcases List.mem_append.mp hed with hed | hed
    · exact h.unused e hed u ((huses u e).mp hue).1
    · rw [List.mem_singleton.mp hed] at hue
      exact hnone u hue
  case released =>
    intro e hlt hunused
    by_cases hed : e = d
    · exact List.mem_append_right _ (List.mem_singleton.mpr hed)
    · apply List.mem_append_left
      apply h.released e hlt
      intro u hue
      obtain ⟨e', v, hue', hv, hvt⟩ := h.owned u hue.1
      rw [hue.2, Option.some.injEq] at hue'
      rw [← hue'] at hv
      exact hunused v ((huses v e).mpr ⟨hv, hstays v e hed hv hvt⟩)

end Ending

/-- Who is alone in its space owns it. -/
theorem SpaceInv.owns_of_alone (h : SpaceInv s) (hu : (s.tasks t).used = true)
    (halone : Alone s t) : ∃ d, Uses s t d ∧ (s.tasks t).isThread = false ∧
      ∀ u, Uses s u d → u = t := by
  obtain ⟨d, o, hd, ho, hot⟩ := h.owned t hu
  have honly : ∀ u, Uses s u d → u = t := by
    intro u hud
    by_contra hne
    exact halone u hne hud.1 (hud.2.trans hd.symm)
  exact ⟨d, ⟨hu, hd⟩, honly o ho ▸ hot, honly⟩

theorem exit_ended (s : SpaceSys) (t : Tid) :
    Ended s (taskExitCode s.tasks t) (EndsWith s.tasks t) where
  used := taskExitCode_used s.tasks t
  kept := by
    intro u hu
    obtain ⟨st, hst⟩ := taskExitCode_of_alive hu
    rw [hst]
    exact ⟨rfl, rfl⟩

theorem exit_inv (h : SpaceInv s) (hc : Calls s t) (hwhole : ExitsWhole s t) :
    SpaceInv (s.exit t) := by
  unfold SpaceSys.exit
  cases hthread : (s.tasks t).isThread with
  | true =>
      refine h.endThreads (exit_ended s t) ?_
      rintro u (rfl | hr) _
      · exact hthread
      · rw [hthread] at hr
        cases hr.1
  | false =>
      obtain ⟨d, o, hd, -, -⟩ := h.owned t hc.2
      rw [hd]
      refine h.endProcess (exit_ended s t) hc.1 ⟨hc.2, hd⟩ ?_ ?_
      · rintro u (rfl | hr) _
        · exact Or.inl rfl
        · exact Or.inr hr.2.2.2.1
      · intro u hud
        by_cases hut : u = t
        · exact Or.inl hut
        · exact Or.inr ⟨hthread, hwhole hthread u hut hud.1 (hud.2.trans hd.symm)⟩

theorem kill_inv (h : SpaceInv s) (hc : Calls s t) (halone : Alone s t) :
    SpaceInv ({ s with tasks := modify s.tasks t killSlot }.free (s.tasks t).pageDir) := by
  obtain ⟨d, hd, -, honly⟩ := h.owns_of_alone hc.2 halone
  have he : Ended s (modify s.tasks t killSlot) fun u => u = t := by
    constructor
    · intro u
      rw [modify_apply]
      split
      · next hut => simp [hut, killSlot]
      · next hut => simp [hut]
    · intro u hut
      rw [modify_of_ne hut]
      exact ⟨rfl, rfl⟩
  rw [hd.2]
  exact h.endProcess he hc.1 hd (fun u hut _ => Or.inl hut) honly

/-- A replaced image is the end of one process and the start of another in the same
slot. -/
theorem execReplace_inv (h : SpaceInv s) (hc : Calls s t) (halone : Alone s t) :
    SpaceInv (s.execReplace t true) := by
  obtain ⟨d, hd, hthread, -⟩ := h.owns_of_alone hc.2 halone
  have hended := kill_inv h hc halone
  rw [hd.2] at hended
  refine hended.create (t := t) (x := { s.tasks t with pageDir := some s.next }) ?_ hd.1 rfl
    hthread ?_ ?_ ?_ ?_
  · simp [SpaceSys.free, killSlot]
  · simp [SpaceSys.execReplace, SpaceSys.free, hd.2]
  · intro u hut
    simp [SpaceSys.execReplace, SpaceSys.free, hd.2, hut]
  · simp [SpaceSys.execReplace, SpaceSys.free, hd.2]
  · simp [SpaceSys.execReplace, SpaceSys.free, hd.2]

/-- A slot is filled with a process in a new space. -/
theorem modify_create_inv {f : Task → Task} (h : SpaceInv s) (hslot : freeSlot s.tasks = some t)
    (hu : (f (s.tasks t)).used = true) (hd : (f (s.tasks t)).pageDir = some s.next)
    (hthread : (f (s.tasks t)).isThread = false) :
    SpaceInv { s with tasks := modify s.tasks t f, next := s.next + 1 } := by
  refine h.create (freeSlot_spec hslot).2 hu hd hthread ?_ ?_ rfl rfl
  · exact modify_self s.tasks t f
  · exact fun u hut => modify_of_ne hut f

theorem createThread_inv {parent : Tid} (h : SpaceInv s) (hc : Calls s parent) :
    SpaceInv (s.createThread parent) := by
  unfold SpaceSys.createThread
  split
  · exact h
  · next id hslot =>
    refine h.share (x := initThread s.tasks parent (s.tasks id)) (Creation.slot_spec hslot).2 hc.2
      rfl rfl rfl ?_ ?_ rfl rfl
    · exact modify_self s.tasks id _
    · exact fun u hu => modify_of_ne hu _

theorem spaceStep_inv (h : SpaceInv s) {op : SpaceOp} (hg : spaceGuard s op) :
    SpaceInv (spaceStep s op) := by
  cases op with
  | createKernel hasAp =>
      simp only [spaceStep, SpaceSys.createKernel]
      split
      · exact h
      · next id hslot => exact modify_create_inv h hslot rfl rfl rfl
  | createUser =>
      simp only [spaceStep, SpaceSys.createUser]
      split
      · next hslot => exact absurd hslot hg
      · next id hslot => exact modify_create_inv h hslot rfl rfl rfl
  | createThread parent =>
      simp only [spaceStep]
      split
      · next hne => exact createThread_inv h (hg hne)
      · exact h
  | fork parent =>
      simp only [spaceStep, SpaceSys.fork]
      split
      · split
        · exact h
        · split
          · exact h.scratch
          · next id hslot => exact modify_create_inv h hslot rfl rfl rfl
      · exact h
  | execReplace tid loads =>
      simp only [spaceStep]
      split
      · next hne =>
        have hc := hg.1 hne
        cases loads with
        | true => exact execReplace_inv h hc (hg.2 hc rfl)
        | false => exact h.scratch
      · exact h
  | exit tid =>
      simp only [spaceStep]
      split
      · next hne => exact exit_inv h (hg.1 hne) (hg.2 (hg.1 hne))
      · exact h
  | signal tid sig =>
      exact h.of_same (taskSendSignal_used s.tasks tid sig)
        (taskSendSignal_field Task.pageDir (fun _ _ => rfl) (fun _ _ => rfl) s.tasks tid sig)
        (taskSendSignal_field Task.isThread (fun _ _ => rfl) (fun _ _ => rfl) s.tasks tid sig)
  | checkSignals tid =>
      simp only [spaceStep]
      split
      · next hne => exact exit_inv h (hg.1 hne.1) (hg.2 (hg.1 hne.1) hne.2)
      · exact h
  | kill id =>
      simp only [spaceStep, SpaceSys.kill]
      split
      · exact h
      · next hid =>
        have hc : Calls s id := by
          simp only [not_or, Bool.not_eq_false] at hid
          exact hid
        exact kill_inv h hc (hg hc)

end Steps

/-- In every run that meets the condition, no used task runs in a freed space and
every space is freed once, when its last user is gone. -/
theorem spaces_ok {s : SpaceSys} (r : Reach SpaceStart spaceGuard spaceStep s) : SpacesOk s := by
  apply SpaceInv.ok
  exact r.invariant (fun _ h => h.inv) fun _ _ h hg => spaceStep_inv h hg

/-- The shell alone, behind `task_set_main`. -/
def shellOnly : SpaceSys where
  tasks := fun t =>
    if t = 0 then { Task.empty with used := true, isUser := true, pageDir := some 0 }
    else Task.empty
  next := 1
  freed := []

theorem shellOnly_start : SpaceStart shellOnly where
  shell := by decide
  alone := by decide
  next := rfl
  freed := rfl

/-- A process starts a thread, and both end. -/
def threadThenExit : List SpaceOp :=
  [.createUser, .createThread 1, .fork 2, .exit 2, .createThread 1, .exit 1, .kill 3]

instance (s : SpaceSys) (t : Tid) : Decidable (Alone s t) :=
  inferInstanceAs (Decidable (∀ _, _ → _ → _))

instance (s : SpaceSys) (t : Tid) : Decidable (ExitsWhole s t) :=
  inferInstanceAs (Decidable (_ → ∀ _, _ → _ → _ → _))

instance (s : SpaceSys) (t : Tid) : Decidable (CallerUsed s t) :=
  inferInstanceAs (Decidable (_ → _))

instance (s : SpaceSys) (op : SpaceOp) : Decidable (spaceGuard s op) :=
  match op with
  | .createUser => inferInstanceAs (Decidable (freeSlot s.tasks ≠ none))
  | .createThread parent | .fork parent => inferInstanceAs (Decidable (CallerUsed s parent))
  | .execReplace tid _ =>
      inferInstanceAs (Decidable (CallerUsed s tid ∧ (Calls s tid → _ → Alone s tid)))
  | .exit tid =>
      inferInstanceAs (Decidable (CallerUsed s tid ∧ (Calls s tid → ExitsWhole s tid)))
  | .checkSignals tid =>
      inferInstanceAs (Decidable (CallerUsed s tid ∧
        (Calls s tid → Terminating (s.tasks tid) → ExitsWhole s tid)))
  | .kill id => inferInstanceAs (Decidable (Calls s id → Alone s id))
  | .createKernel _ | .signal .. => isTrue trivial

theorem spaces_ok_thread_then_exit : SpacesOk (threadThenExit.foldl spaceStep shellOnly) :=
  spaces_ok ((Reach.start shellOnly_start).guarded (by decide +kernel))

/-- A thread is killed, then its process exits. -/
def killThread : List SpaceOp := [.createUser, .createThread 1, .kill 2, .exit 1]

theorem killed_thread_frees_space : ¬ ∀ s, Reach SpaceStart anyInput spaceStep s → SpacesOk s := by
  intro h
  have hs := (h _ ((Reach.start shellOnly_start).foldl killThread)).once
  revert hs
  decide

end OriaOS.Sched
