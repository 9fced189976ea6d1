import OriaOS.Vmm.Cow

/-!
# The system calls keep the invariant

The live address spaces of the ownership map are the page directories of the
tasks that are alive. For each call it is shown what it needs for this to stay
true: most need nothing, the calls that release frames need that nobody else uses
what they release.
-/

namespace OriaOS.Vmm

variable {dir f va : Nat} {t tid : Tid} {v : Vm}

/-! ## The system invariant -/

structure SysInv (s : Sys) (own : Owners) : Prop where
  inv : Inv s.vm own
  live : ∀ {t}, alive s t = true → IsRoot own (s.tasks t).pageDir
  roots : ∀ {r}, IsRoot own r → ∃ t, alive s t = true ∧ (s.tasks t).pageDir = r
  parent : ∀ {t p}, alive s t = true → (s.tasks t).parentTid = some p → p ≠ 0

def SysOk (s : Sys) : Prop := ∃ own, SysInv s own

theorem alive_iff {s : Sys} : alive s t = true ↔ t ≠ 0 ∧ (s.tasks t).used = true := by
  simp [alive]

section Rules
variable {s s' : Sys} {own own' : Owners}

/-- The fields of a task that the invariant reads. -/
def SameTasks (s s' : Sys) : Prop :=
  ∀ t, (s'.tasks t).used = (s.tasks t).used ∧ (s'.tasks t).pageDir = (s.tasks t).pageDir ∧
    (s'.tasks t).parentTid = (s.tasks t).parentTid

theorem SameTasks.alive (h : SameTasks s s') (t : Tid) : alive s' t = alive s t := by
  simp [OriaOS.Vmm.alive, (h t).1]

/-- A step that leaves the address spaces as they are. -/
theorem SysInv.same (h : SysInv s own) (htasks : SameTasks s s') (hinv : Inv s'.vm own')
    (hroots : ∀ r, IsRoot own' r ↔ IsRoot own r) : SysOk s' := by
  refine ⟨own', hinv, ?_, ?_, ?_⟩
  · intro t ht
    rw [htasks.alive] at ht
    rw [(htasks t).2.1]
    exact (hroots _).mpr (h.live ht)
  · intro r hr
    obtain ⟨t, ht, hdir⟩ := h.roots ((hroots r).mp hr)
    exact ⟨t, by rwa [htasks.alive], by rw [(htasks t).2.1]; exact hdir⟩
  · intro t p ht hp
    rw [htasks.alive] at ht
    rw [(htasks t).2.2] at hp
    exact h.parent ht hp

theorem Grow.roots_iff (h : Grow own own') (r : Nat) : IsRoot own' r ↔ IsRoot own r :=
  ⟨h.roots, h.tables⟩

/-- A step that only maps and unmaps pages. -/
theorem SysInv.grow (h : SysInv s own) (htasks : SameTasks s s')
    (hvm : ∃ own', Inv s'.vm own' ∧ Grow own own') : SysOk s' := by
  obtain ⟨own', hinv, hgrow⟩ := hvm
  exact h.same htasks hinv hgrow.roots_iff

theorem SameTasks.refl (s : Sys) : SameTasks s s := fun _ => ⟨rfl, rfl, rfl⟩

/-- Address spaces that no task uses are forgotten. -/
theorem sysOk_of_live (dirs : List Nat) (hinv : Inv s.vm own)
    (hlive : ∀ {t}, alive s t = true → IsRoot own (s.tasks t).pageDir)
    (hroots : ∀ {r}, IsRoot own r → r ∈ dirs ∨ ∃ t, alive s t = true ∧ (s.tasks t).pageDir = r)
    (hparent : ∀ {t p}, alive s t = true → (s.tasks t).parentTid = some p → p ≠ 0) : SysOk s := by
  induction dirs generalizing own with
  | nil => exact ⟨own, hinv, hlive, fun hr => (hroots hr).resolve_left (by simp), hparent⟩
  | cons x dirs ih =>
      by_cases hx : ∃ t, alive s t = true ∧ (s.tasks t).pageDir = x
      · apply ih hinv hlive
        intro r hr
        rcases hroots hr with hmem | ht
        · rcases List.mem_cons.mp hmem with rfl | hmem
          · exact Or.inr hx
          · exact Or.inl hmem
        · exact Or.inr ht
      · apply ih (hinv.dropSpace x)
        · intro t ht
          exact dropSpace_table.mpr ⟨hlive ht, fun heq => hx ⟨t, ht, heq⟩⟩
        · intro r hr
          obtain ⟨hr, hne⟩ := dropSpace_table.mp hr
          exact (hroots hr).imp_left fun hmem => (List.mem_cons.mp hmem).resolve_left hne

/-- Tasks die, and the others keep their address spaces. -/
theorem SysInv.survive (h : SysInv s own) (hinv : Inv s'.vm own')
    (htasks : ∀ {t}, alive s' t = true → alive s t = true ∧ s'.tasks t = s.tasks t)
    (hlive : ∀ {t}, alive s' t = true → IsRoot own' (s.tasks t).pageDir)
    (hroots : ∀ {r}, IsRoot own' r → IsRoot own r) : SysOk s' := by
  apply sysOk_of_live ((List.finRange maxTasks).map fun t => (s.tasks t).pageDir) hinv
  · intro t ht
    rw [(htasks ht).2]
    exact hlive ht
  · intro r hr
    obtain ⟨t, -, rfl⟩ := h.roots (hroots hr)
    exact Or.inl (List.mem_map_of_mem (List.mem_finRange t))
  · intro t p ht hp
    rw [(htasks ht).2] at hp
    exact h.parent (htasks ht).1 hp

/-- A new task in a free slot, in an address space that may be new too. -/
theorem SysInv.spawn (h : SysInv s own) {task : Task} (hinv : Inv v own')
    (ht : t ≠ 0 ∧ (s.tasks t).used = false) (hold : ∀ {r}, IsRoot own r → IsRoot own' r)
    (hroots : ∀ {r}, IsRoot own' r → IsRoot own r ∨ r = task.pageDir)
    (hdir : IsRoot own' task.pageDir) (hused : task.used = true)
    (hparent : ∀ {p}, task.parentTid = some p → p ≠ 0) :
    SysOk (setTask { s with vm := v } t task) := by
  have hother {t' : Tid} (hne : t' ≠ t) :
      (setTask { s with vm := v } t task).tasks t' = s.tasks t' := by
    simp [setTask, hne]
  have hself : (setTask { s with vm := v } t task).tasks t = task := by
    simp [setTask]
  have halive {t' : Tid} (hne : t' ≠ t) :
      alive (setTask { s with vm := v } t task) t' = alive s t' := by
    simp [alive, hother hne]
  refine ⟨own', hinv, ?_, ?_, ?_⟩
  · intro t' ht'
    by_cases hne : t' = t
    · rw [hne, hself]
      exact hdir
    · rw [halive hne] at ht'
      rw [hother hne]
      exact hold (h.live ht')
  · intro r hr
    rcases hroots hr with hr | rfl
    · obtain ⟨t', ht', hdir'⟩ := h.roots hr
      have hne : t' ≠ t := by
        rintro rfl
        exact absurd (alive_iff.mp ht').2 (by simp [ht.2])
      exact ⟨t', by rwa [halive hne], by rwa [hother hne]⟩
    · exact ⟨t, alive_iff.mpr ⟨ht.1, by rw [hself]; exact hused⟩, by rw [hself]⟩
  · intro t' p ht' hp
    by_cases hne : t' = t
    · rw [hne, hself] at hp
      exact hparent hp
    · rw [halive hne] at ht'
      rw [hother hne] at hp
      exact h.parent ht' hp

theorem freeSlot_spec {tasks : Tid → Task} (h : freeSlot tasks = some t) :
    t ≠ 0 ∧ (tasks t).used = false := by
  simpa using List.find?_some h

end Rules

/-! ## New address spaces -/

section Born
variable {v : Vm} {own own' own'' : Owners} {r : Nat}

theorem Born.grow (h : Born own own' r) (hgrow : Grow own' own'') : Born own own'' r where
  root := hgrow.tables h.root
  fresh := h.fresh
  tables := fun hf => hgrow.tables (h.tables hf)
  roots := fun hr => h.roots (hgrow.roots hr)

theorem Born.ne (h : Born own own' r) {r' : Nat} (hr' : IsRoot own r') : r' ≠ r := by
  rintro rfl
  rw [IsRoot, h.fresh] at hr'
  cases hr'

/-- A new address space that is torn down again. -/
theorem Born.gone (h : Born own own' r) (hgone : Gone own' own'' r) (r' : Nat) :
    IsRoot own'' r' ↔ IsRoot own r' := by
  constructor
  · intro hr'
    obtain ⟨hold, hne⟩ := hgone.roots hr'
    exact (h.roots hold).resolve_right hne
  · intro hr'
    exact hgone.tables (h.tables hr') (h.ne hr')

/-- A new address space that is abandoned. -/
theorem gone_dropSpace (own : Owners) (r : Nat) : Gone own (dropSpace own r) r where
  tables := fun hf hne => dropSpace_table.mpr ⟨hf, hne⟩
  roots := fun hr => dropSpace_table.mp hr

end Born

/-! ## Loops that map fresh pages -/

section Loops
variable {v : Vm} {own : Owners} {dir : Nat}

theorem elfPages_inv (entry : Nat) (pages : List Nat) (h : Inv v own) (hr : IsRoot own dir) :
    ∃ own', Inv (elfPages v dir entry pages).1 own' ∧ Grow own own' := by
  induction pages generalizing v own with
  | nil => exact ⟨own, h, Grow.refl own⟩
  | cons va rest ih =>
      unfold elfPages
      dsimp only
      split
      · exact ⟨own, (inv_allocFrame h).1, Grow.refl own⟩
      · obtain ⟨own₁, h₁, hgrow₁⟩ := mapFresh_inv h va hr (Or.inr rfl)
        obtain ⟨own₂, h₂, hgrow₂⟩ := ih h₁ (hgrow₁.tables hr)
        exact ⟨own₂, h₂, hgrow₁.trans hgrow₂⟩

theorem elfPages_zero (v : Vm) (dir : Nat) (pages : List Nat) :
    (elfPages v dir 0 pages).2 = 0 := by
  induction pages generalizing v with
  | nil => rfl
  | cons va rest ih =>
      unfold elfPages
      dsimp only
      split
      · rfl
      · exact ih _

theorem brkLoop_inv (n pg curEnd : Nat) (h : Inv v own) (hr : IsRoot own dir) :
    ∃ own', Inv (brkLoop v dir pg curEnd n).1 own' ∧ Grow own own' := by
  induction n generalizing v own pg curEnd with
  | zero => exact ⟨own, h, Grow.refl own⟩
  | succ n ih =>
      unfold brkLoop
      dsimp only
      split
      · exact ⟨own, (inv_allocFrame h).1, Grow.refl own⟩
      · obtain ⟨own₁, h₁, hgrow₁⟩ := mapFresh_inv h pg hr (Or.inl rfl)
        obtain ⟨own₂, h₂, hgrow₂⟩ := ih (pg + 0x1000) (pg + 0x1000) h₁ (hgrow₁.tables hr)
        exact ⟨own₂, h₂, hgrow₁.trans hgrow₂⟩

theorem mmapFileLoop_inv (n base i full : Nat) (h : Inv v own) (hr : IsRoot own dir) :
    ∃ own', Inv (mmapFileLoop v dir base i full n).1 own' ∧ Grow own own' := by
  induction n generalizing v own i full with
  | zero =>
      unfold mmapFileLoop
      exact ⟨own, h, Grow.refl own⟩
  | succ n ih =>
      unfold mmapFileLoop
      dsimp only
      split
      · exact ⟨own, (inv_allocFrame h).1, Grow.refl own⟩
      · obtain ⟨own₁, h₁, hgrow₁⟩ := mapFresh_inv h (base + i * 0x1000) hr (Or.inl rfl)
        cases full with
        | zero => exact ⟨own₁, h₁, hgrow₁⟩
        | succ full =>
            obtain ⟨own₂, h₂, hgrow₂⟩ := ih (i + 1) full h₁ (hgrow₁.tables hr)
            exact ⟨own₂, h₂, hgrow₁.trans hgrow₂⟩

/-- The pages mapped so far are mapped once, so the rollback may release them. -/
theorem mmapLoop_inv (n base i : Nat) (h : Inv v own) (hr : IsRoot own dir)
    (hs : ∀ k < i, Sole v own dir (base + k * 0x1000)) :
    ∃ own', Inv (mmapLoop v dir base i n).1 own' ∧ Grow own own' := by
  induction n generalizing v own i with
  | zero => exact ⟨own, h, Grow.refl own⟩
  | succ n ih =>
      obtain ⟨hinv, hmem, -, -, hres⟩ := inv_allocFrame h
      have hs' (k : Nat) (hk : k < i) : Sole (allocFrame v).1 own dir (base + k * 0x1000) :=
        (hs k hk).of_fewer fun q r path d _ hq _ => ⟨hq, by rw [hmem]⟩
      unfold mmapLoop
      dsimp only
      split
      · exact unmapRange_inv hinv hr hs'
      · rename_i hnz
        have hheld := hres.resolve_left hnz
        obtain ⟨own₁, h₁, hgrow₁, hnew, hold⟩ := mapPage_sole
          (e := PTE.userRW (allocFrame v).2) hinv (base + i * 0x1000) hr hheld
        have hs₁ (k : Nat) (hk : k < i + 1) :
            Sole (mapPage (allocFrame v).1 dir (base + i * 0x1000) (PTE.userRW (allocFrame v).2))
              own₁ dir (base + k * 0x1000) := by
          rcases Nat.lt_succ_iff_lt_or_eq.mp hk with hlt | rfl
          · exact hold _ (hs' k hlt)
          · exact hnew
        obtain ⟨own₂, h₂, hgrow₂⟩ := ih (i + 1) h₁ (hgrow₁.tables hr) hs₁
        exact ⟨own₂, h₂, hgrow₁.trans hgrow₂⟩

end Loops

/-! ## Starting programs and threads -/

section Start
variable {s : Sys} {own : Owners}

/-- `task_create_user` on the address space of a new program. -/
theorem taskCreateUser_ok (h : SysInv s own) {own' : Owners} (hinv : Inv v own')
    (hborn : Born own own' dir) : SysOk (taskCreateUser { s with vm := v } dir) := by
  unfold taskCreateUser
  cases hslot : freeSlot s.tasks with
  | none => exact h.same (SameTasks.refl s) (hinv.dropSpace dir) (hborn.gone (gone_dropSpace own' dir))
  | some t =>
      obtain ⟨own₁, h₁, hgrow⟩ := mapFresh_inv hinv (tlsVa t) hborn.root (Or.inr rfl)
      have hborn₁ := hborn.grow hgrow
      exact h.spawn h₁ (freeSlot_spec hslot) hborn₁.tables hborn₁.roots hborn₁.root rfl
        (by simp)

/-- `SYS_EXEC`, when there are frames for the new tables. -/
theorem exec_ok (h : SysInv s own) (img : Image) (hdir : (createPageDir s.vm).2 ≠ 0) :
    SysOk (exec s img) := by
  obtain ⟨hzero, -⟩ | ⟨own₁, h₁, hborn₁⟩ := createPageDir_spec h.inv
  · exact absurd hzero hdir
  obtain ⟨own₂, h₂, hgrow₂⟩ := elfPages_inv img.entry img.pages h₁ hborn₁.root
  have hborn₂ := hborn₁.grow hgrow₂
  unfold exec elfLoad
  dsimp only
  split
  · exact h.same (SameTasks.refl s) (h₂.dropSpace _) (hborn₂.gone (gone_dropSpace own₂ _))
  · obtain ⟨own₃, h₃, hgrow₃⟩ := mapFresh_inv h₂ userStackPage hborn₂.root (Or.inl rfl)
    exact taskCreateUser_ok h h₃ (hborn₂.grow hgrow₃)

/-- `SYS_THREAD_CREATE`. -/
theorem threadCreate_ok (h : SysInv s own) (ht : alive s tid = true) :
    SysOk (threadCreate s tid) := by
  unfold threadCreate
  cases hslot : freeSlot s.tasks with
  | none => exact ⟨own, h⟩
  | some t =>
      obtain ⟨own₁, h₁, hgrow⟩ := mapFresh_inv h.inv (tlsVa t) (h.live ht) (Or.inr rfl)
      dsimp only [mapTls]
      refine h.spawn h₁ (freeSlot_spec hslot) hgrow.tables (fun hr => Or.inl (hgrow.roots hr))
        (hgrow.tables (h.live ht)) rfl ?_
      rintro p ⟨⟩
      exact (alive_iff.mp ht).1

/-- The page directories of all tasks, and one more. -/
theorem SysInv.rootsIn (h : SysInv s own) {own' : Owners} {child : Nat}
    (hborn : Born own own' child) :
    RootsIn own' (insert child (Finset.univ.image fun t => (s.tasks t).pageDir)) := by
  intro r hr
  rcases hborn.roots hr with hold | rfl
  · obtain ⟨t, -, rfl⟩ := h.roots hold
    exact Finset.mem_insert_of_mem (Finset.mem_image_of_mem _ (Finset.mem_univ t))
  · exact Finset.mem_insert_self _ _

theorem card_roots_le (child : Nat) :
    (insert child (Finset.univ.image fun t => (s.tasks t).pageDir)).card ≤ 254 := by
  calc
    _ ≤ (Finset.univ.image fun t => (s.tasks t).pageDir).card + 1 := Finset.card_insert_le _ _
    _ ≤ (Finset.univ : Finset Tid).card + 1 := Nat.add_le_add_right Finset.card_image_le 1
    _ ≤ 254 := by simp [maxTasks]

/-- `SYS_FORK`. -/
theorem fork_ok (h : SysInv s own) (ht : alive s tid = true) : SysOk (fork s tid) := by
  have hroot := h.live ht
  unfold fork
  dsimp only
  rw [if_neg (h.inv.root_pos hroot)]
  obtain ⟨hzero, hinv⟩ | ⟨own₁, h₁, hborn₁⟩ := createPageDir_spec h.inv
  · rw [if_pos hzero]
    exact h.same (SameTasks.refl s) hinv fun _ => Iff.rfl
  rw [if_neg (h₁.root_pos hborn₁.root)]
  obtain ⟨own₂, h₂, hgrow₂⟩ := copyCow_inv h₁ (h.rootsIn hborn₁) (card_roots_le _)
    (hborn₁.tables hroot) hborn₁.root
  have hborn₂ := hborn₁.grow hgrow₂
  cases hslot : freeSlot s.tasks with
  | none =>
      obtain ⟨own₃, h₃, hgone⟩ := freeUserMemory_spec h₂ hborn₂.root
      exact h.same (SameTasks.refl s) h₃ (hborn₂.gone hgone)
  | some t =>
      exact h.spawn h₂ (freeSlot_spec hslot) hborn₂.tables hborn₂.roots hborn₂.root rfl (by simp)

/-- A task moves to a new address space, and the old one, which it shared with
nobody, goes. -/
theorem SysInv.move (h : SysInv s own) {s' : Sys} {own₁ own₂ : Owners} (ht : alive s tid = true)
    (hother : ∀ t ≠ tid, s'.tasks t = s.tasks t)
    (hself : (s'.tasks tid).used = (s.tasks tid).used ∧ (s'.tasks tid).pageDir = dir ∧
      (s'.tasks tid).parentTid = (s.tasks tid).parentTid)
    (hinv : Inv s'.vm own₂) (hborn : Born own own₁ dir)
    (hgone : Gone own₁ own₂ (s.tasks tid).pageDir)
    (halone : ∀ t, alive s t = true → t ≠ tid → (s.tasks t).pageDir ≠ (s.tasks tid).pageDir) :
    SysOk s' := by
  have hsame (t : Tid) : alive s' t = alive s t ∧
      (s'.tasks t).parentTid = (s.tasks t).parentTid := by
    by_cases htt : t = tid
    · subst htt
      simp [alive, hself.1, hself.2.2]
    · simp [alive, hother t htt]
  refine ⟨own₂, hinv, ?_, ?_, ?_⟩
  · intro t hta
    rw [(hsame t).1] at hta
    by_cases htt : t = tid
    · rw [htt, hself.2.1]
      exact hgone.tables hborn.root (hborn.ne (h.live ht)).symm
    · rw [hother t htt]
      exact hgone.tables (hborn.tables (h.live hta)) (halone t hta htt)
  · intro r hr
    obtain ⟨hr, hrne⟩ := hgone.roots hr
    rcases hborn.roots hr with hr | rfl
    · obtain ⟨t, hta, rfl⟩ := h.roots hr
      have htt : t ≠ tid := by
        rintro rfl
        exact hrne rfl
      exact ⟨t, by rwa [(hsame t).1], by rw [hother t htt]⟩
    · exact ⟨tid, by rwa [(hsame tid).1], hself.2.1⟩
  · intro t p hta hp
    rw [(hsame t).1] at hta
    rw [(hsame t).2] at hp
    exact h.parent hta hp

/-- `SYS_EXEC_REPLACE` by a task that shares its address space with nobody. -/
theorem execReplace_ok (h : SysInv s own) (ht : alive s tid = true) (img : Image)
    (halone : img.entry ≠ 0 → ∀ t, alive s t = true → t ≠ tid →
      (s.tasks t).pageDir ≠ (s.tasks tid).pageDir) :
    SysOk (execReplace s tid img) := by
  unfold execReplace elfLoad
  dsimp only
  obtain ⟨hzero, hinv⟩ | ⟨own₁, h₁, hborn₁⟩ := createPageDir_spec h.inv
  · rw [if_pos hzero]
    exact h.same (SameTasks.refl s) hinv fun _ => Iff.rfl
  rw [if_neg (h₁.root_pos hborn₁.root)]
  obtain ⟨own₂, h₂, hgrow₂⟩ := elfPages_inv img.entry img.pages h₁ hborn₁.root
  have hborn₂ := hborn₁.grow hgrow₂
  split
  · obtain ⟨own₃, h₃, hgone⟩ := freeUserMemory_spec h₂ hborn₂.root
    exact h.same (SameTasks.refl s) h₃ (hborn₂.gone hgone)
  rename_i hentry
  split
  · obtain ⟨own₃, h₃, hgone⟩ := freeUserMemory_spec (inv_allocFrame h₂).1 hborn₂.root
    exact h.same (SameTasks.refl s) h₃ (hborn₂.gone hgone)
  obtain ⟨own₃, h₃, hgrow₃⟩ := mapFresh_inv h₂ userStackPage hborn₂.root (Or.inl rfl)
  have hborn := hborn₂.grow hgrow₃
  have hold := h.live ht
  obtain ⟨own₄, h₄, hgone⟩ := freeUserMemory_spec h₃ (hborn.tables hold)
  have hentry' : img.entry ≠ 0 := by
    intro hz
    rw [hz] at hentry
    exact hentry (elfPages_zero _ _ _)
  refine h.move ht ?_ ?_ h₄ hborn hgone (halone hentry')
  · intro t htt
    exact Function.update_of_ne htt _ _
  · simp [setTask]

end Start

/-! ## What an address space uses -/

/-- The tables that the walk to an address passes. -/
def walk (v : Vm) (r va : Nat) : List Nat :=
  r :: ((tableAt v r (pml4Idx va)).toList ++ (pdOf v r va).toList ++ (ptOf v r va).toList)

section Walk
variable {v : Vm} {own : Owners} {r : Nat}

/-- Every place has an address. -/
theorem exists_va (path : List Nat) (d : Nat) (hlen : path.length = 3)
    (hpath : ∀ i ∈ path, i < 512) (hd : d < 512) : ∃ va, vaPath va = path ∧ ptIdx va = d := by
  obtain ⟨i, j, k, rfl⟩ := List.length_eq_three.mp hlen
  have hi := hpath i (by simp)
  have hj := hpath j (by simp)
  have hk := hpath k (by simp)
  refine ⟨i * 2 ^ 39 + j * 2 ^ 30 + k * 2 ^ 21 + d * 2 ^ 12, ?_⟩
  simp only [vaPath, pml4Idx, pdptIdx, pdIdx, ptIdx, List.cons.injEq, and_true]
  omega

theorem Inv.walk_used (h : Inv v own) (hr : IsRoot own r) (hf : f ∈ walk v r va) :
    v.used f = true := by
  have hboot (hb : IsBootPd f) : v.used f = true :=
    h.reserved f (Nat.lt_of_le_of_lt hb.2 (by decide))
  simp only [walk, List.mem_cons, List.mem_append, Option.mem_toList] at hf
  rcases hf with rfl | (hf | hf) | hf
  · exact (h.range hr).2.2
  · obtain ⟨hpres, rfl⟩ := tableAt_eq_some.mp hf
    rcases h.child hr (by simp) hpres (h.not_large hr (by simp)) with hown | ⟨hb, -⟩
    · exact (h.range hown).2.2
    · exact hboot hb
  · rcases h.pdOf_spec hr hf with hown | hb
    · exact (h.range hown).2.2
    · exact hboot hb
  · exact (h.range (h.ptOf_spec hr hf)).2.2

theorem Inv.getPhys_used (h : Inv v own) (hr : IsRoot own r) (hlt : getPhys v r va < totalFrames) :
    v.used (getPhys v r va) = true := by
  rcases h.getPhys_spec hr va with (hlow | hhigh) | ⟨pt, hpt, -, hpres, hframe⟩
  · exact h.reserved _ hlow
  · exact absurd hlt (Nat.not_lt.mpr hhigh)
  · rcases h.leaf hpt rfl hpres with hlow | hpage
    · rw [hframe] at hlow
      exact h.reserved _ hlow
    · rw [hframe] at hpage
      exact (h.range hpage).2.2

/-- Every table of an address space lies on a walk. -/
theorem Inv.table_walk (h : Inv v own) {path : List Nat} (hf : own f = some (.table r path)) :
    ∃ va, f ∈ walk v r va := by
  have hroot := h.rooted hf
  have hdepth := h.tableDepth hf
  have hpath : ∀ i ∈ path, i < 512 := fun i hi => h.bounded hf hi
  match path, hdepth with
  | [], _ => exact ⟨0, by simp [walk, h.top hf]⟩
  | [i], _ =>
      obtain ⟨va, hva, -⟩ := exists_va [i, 0, 0] 0 rfl
        (by simpa using hpath) (by decide)
      simp only [vaPath, List.cons.injEq, and_true] at hva
      have hentry := h.entry [] hf hroot
      refine ⟨va, ?_⟩
      simp [walk, hva.1, tableAt, hentry.1, hentry.2.1]
  | [i, j], _ =>
      obtain ⟨va, hva, -⟩ := exists_va [i, j, 0] 0 rfl
        (by simpa using hpath) (by decide)
      simp only [vaPath, List.cons.injEq, and_true] at hva
      obtain ⟨p, hp⟩ := h.above [i] hf
      have hentry := h.entry [] hp hroot
      have hentry' := h.entry [i] hf hp
      refine ⟨va, ?_⟩
      simp [walk, pdOf, hva.1, hva.2.1, tableAt, hentry.1, hentry.2.1, hentry'.1, hentry'.2.1]
  | [i, j, k], _ =>
      obtain ⟨va, hva, -⟩ := exists_va _ 0 rfl hpath (by decide)
      rw [← hva] at hf
      refine ⟨va, ?_⟩
      simp [walk, h.ptOf_of_own hf]
  | _ :: _ :: _ :: _ :: _, hlong =>
      simp only [List.length_cons] at hlong
      omega

end Walk

/-! ## Memory calls -/

/-- If the page at an address is a frame of the bitmap, no other live address
space maps that frame. -/
def Unshared (s : Sys) (dir va : Nat) : Prop :=
  reservedFrames ≤ getPhys s.vm dir va → getPhys s.vm dir va < totalFrames →
    ∀ t, alive s t = true → (s.tasks t).pageDir ≠ dir →
      ∀ va', getPhys s.vm (s.tasks t).pageDir va' ≠ getPhys s.vm dir va

section Memory
variable {s : Sys} {own : Owners} {tid : Tid}

theorem sameTasks_vm (s : Sys) (v : Vm) (a b : Nat) : SameTasks s ⟨v, s.tasks, a, b⟩ :=
  fun _ => ⟨rfl, rfl, rfl⟩

theorem SysInv.sole (h : SysInv s own) (hu : Unshared s dir va) : Sole s.vm own dir va := by
  intro p hp hpres hlow q hq
  have hphys := h.inv.getPhys_of_entry hp hpres
  have hpage := (h.inv.leaf hp rfl hpres).resolve_left (Nat.not_lt.mpr hlow)
  obtain ⟨-, ⟨r, hq'⟩, hpres', hframe⟩ := mem_mappers.mp hq
  rw [Finset.mem_singleton]
  by_cases hr : r = dir
  · subst hr
    exact h.inv.table_unique hq' hp
  · obtain ⟨t, ht, rfl⟩ := h.roots (h.inv.rooted hq')
    have hphys' := h.inv.getPhys_of_entry hq' hpres'
    rw [Unshared, hphys] at hu
    exact absurd (hphys'.trans hframe) (hu hlow (h.inv.range hpage).2.1 t ht hr va)

theorem brk_ok (h : SysInv s own) (ht : alive s tid = true) (newEnd memKb : Nat) :
    SysOk (brk s tid newEnd memKb) := by
  unfold brk
  dsimp only
  split
  · exact ⟨own, h⟩
  split
  · exact ⟨own, h⟩
  · apply h.grow _ (brkLoop_inv _ _ _ h.inv (h.live ht))
    intro t
    by_cases htt : t = tid
    · subst htt
      simp [setTask]
    · simp [setTask, htt]

theorem mmap_ok (h : SysInv s own) (ht : alive s tid = true) (n : Nat) : SysOk (mmap s tid n) := by
  unfold mmap
  dsimp only
  split
  · exact ⟨own, h⟩
  · have hloop := mmapLoop_inv n s.mmapNextVa 0 h.inv (h.live ht) (by simp)
    split
    · exact h.grow (sameTasks_vm s _ _ _) hloop
    · exact h.grow (sameTasks_vm s _ _ _) hloop

theorem mmapFile_ok (h : SysInv s own) (ht : alive s tid = true) (n full : Nat) :
    SysOk (mmapFile s tid n full) := by
  unfold mmapFile
  dsimp only
  split
  · exact ⟨own, h⟩
  · generalize (if n = 0 ∨ 256 < n then 256 else n) = maxPages
    have hloop := mmapFileLoop_inv maxPages s.mmapFileNextVa 0 full h.inv (h.live ht)
    split
    · exact h.grow (sameTasks_vm s _ _ _) hloop
    · exact h.grow (sameTasks_vm s _ _ _) hloop

theorem munmap_ok (h : SysInv s own) (ht : alive s tid = true) (va n : Nat)
    (hu : mmapAnonBase ≤ va / 0x1000 * 0x1000 → ∀ k < n,
      Unshared s (s.tasks tid).pageDir (va / 0x1000 * 0x1000 + k * 0x1000)) :
    SysOk (munmap s tid va n) := by
  unfold munmap
  dsimp only
  split
  · exact ⟨own, h⟩
  · rename_i hgo
    apply h.grow (sameTasks_vm s _ _ _)
    apply unmapRange_inv h.inv (h.live ht)
    intro k hk
    exact h.sole (hu (by omega) k hk)

theorem munmapFile_ok (h : SysInv s own) (ht : alive s tid = true) (va n : Nat)
    (hu : ∀ k < n, Unshared s (s.tasks tid).pageDir (va / 0x1000 * 0x1000 + k * 0x1000)) :
    SysOk (munmapFile s tid va n) := by
  unfold munmapFile
  dsimp only
  split
  · exact ⟨own, h⟩
  · apply h.grow (sameTasks_vm s _ _ _)
    exact unmapRange_inv h.inv (h.live ht) fun k hk => h.sole (hu k hk)

theorem demandFault_ok (h : SysInv s own) (ht : alive s tid = true) (va : Nat) :
    SysOk (demandFault s tid va) := by
  unfold demandFault
  dsimp only
  split
  · exact ⟨own, h⟩
  split
  · exact h.grow (sameTasks_vm s _ _ _) ⟨own, (inv_allocFrame h.inv).1, Grow.refl own⟩
  · exact h.grow (sameTasks_vm s _ _ _) (mapFresh_inv h.inv va (h.live ht) (Or.inr rfl))

end Memory

/-! ## Exit -/

/-- The frame is allocated, and the only place of a live address space that uses
it is the page at `va` in `dir`, if any. -/
def Spent (s : Sys) (dir va f : Nat) : Prop :=
  reservedFrames ≤ f → f < totalFrames →
    s.vm.used f = true ∧ ∀ t, alive s t = true →
      (∀ va', f ∉ walk s.vm (s.tasks t).pageDir va') ∧
      ∀ va', getPhys s.vm (s.tasks t).pageDir va' = f →
        (s.tasks t).pageDir = dir ∧ vaPath va' = vaPath va ∧ ptIdx va' = ptIdx va

section Exit
variable {s : Sys} {own : Owners} {tid : Tid}

/-- The thread stacks lie below a 2 MB page of the kernel. -/
theorem threadStackVa_idx (t : Tid) {k : Nat} (hk : k < 4) :
    pml4Idx (threadStackVa t k) = 0 ∧ pdptIdx (threadStackVa t k) = 0 ∧
      pdIdx (threadStackVa t k) = 3 := by
  have hva : 0x700000 ≤ threadStackVa t k ∧ threadStackVa t k < 0x800000 := by
    have ht := t.isLt
    simp only [threadStackVa, threadStackBase, threadStackSlot, maxTasks] at ht ⊢
    omega
  simp only [pml4Idx, pdptIdx, pdIdx]
  generalize threadStackVa t k = va at hva
  omega

/-- There is never a page of its own on a thread stack address. -/
theorem Inv.threadStack (h : Inv v own) (hr : IsRoot own dir) (t : Tid) {k : Nat} (hk : k < 4) :
    OutOfRange (getPhys v dir (threadStackVa t k)) ∧ unmapPage v dir (threadStackVa t k) = v := by
  obtain ⟨h₁, h₂, h₃⟩ := threadStackVa_idx t hk
  obtain ⟨hpdpt, hpd⟩ := h.first_tables hr
  have hpdOf : pdOf v dir (threadStackVa t k) = some (v.mem (v.mem dir 0).frame 0).frame := by
    simp [pdOf, tableAt, h₁, h₂, h.spine (Or.inl hr), h.spine (Or.inr hpdpt)]
  have hptOf : ptOf v dir (threadStackVa t k) = none := by
    simp [ptOf, hpdOf, h₃, (h.stackPd hpd).2]
  constructor
  · rcases h.getPhys_spec hr (threadStackVa t k) with hout | ⟨pt, -, hpt, -⟩
    · exact hout
    · rw [hptOf] at hpt
      cases hpt
  · exact h.unmapPage_none hr hptOf

theorem Inv.freeThreadStack_eq (h : Inv v own) (hr : IsRoot own dir) (t : Tid) :
    freeThreadStack v dir t = v := by
  apply List.foldlRecOn (motive := fun w => w = v)
  · rfl
  · rintro w rfl k hk
    obtain ⟨hout, hunmap⟩ := h.threadStack hr t (List.mem_range.mp hk)
    dsimp only
    rw [hunmap, freeFrame_outOfRange hout, ite_self]

theorem Inv.dropThreadStack_eq (h : Inv v own) (hr : IsRoot own dir) (t : Tid) :
    dropThreadStack v dir t = v := by
  apply List.foldlRecOn (motive := fun w => w = v)
  · rfl
  · rintro w rfl k hk
    dsimp only
    rw [freeFrame_outOfRange (h.threadStack hr t (List.mem_range.mp hk)).1, ite_self]

theorem Inv.unmapPage_inv (h : Inv v own) (hr : IsRoot own dir) (va : Nat) :
    Inv (unmapPage v dir va) own ∧ Fewer v own (unmapPage v dir va) own ∧
      (unmapPage v dir va).used = v.used ∧
      ∀ {q}, own q = some (.table dir (vaPath va)) →
        ((unmapPage v dir va).mem q (ptIdx va)).present = false := by
  cases hwalk : ptOf v dir va with
  | none =>
      rw [h.unmapPage_none hr hwalk]
      refine ⟨h, h.prep.fewer, rfl, ?_⟩
      intro q hq
      rw [h.ptOf_of_own hq] at hwalk
      cases hwalk
  | some pt =>
      have hpt := h.ptOf_spec hr hwalk
      rw [h.unmapPage_some hr hwalk]
      refine ⟨h.setLeaf hpt rfl (fun hc => absurd hc (by simp [PTE.zero])), clearLeaf_fewer, rfl, ?_⟩
      intro q hq
      rw [h.table_unique hq hpt, setEntry_same]
      rfl

/-- Releasing a frame that is used nowhere but at the address that is unmapped. -/
theorem SysInv.freeSpent (h : SysInv s own) (hr : IsRoot own dir) (hs : Spent s dir va f) :
    ∃ own', Inv (freeFrame (unmapPage s.vm dir va) f) own' ∧ Grow own own' := by
  obtain ⟨hinv, hfew, hsame, hclear⟩ := h.inv.unmapPage_inv hr va
  by_cases hout : OutOfRange f
  · rw [freeFrame_outOfRange hout]
    exact ⟨own, hinv, Grow.refl own⟩
  have hlow : reservedFrames ≤ f := Nat.le_of_not_lt fun hlt => hout (Or.inl hlt)
  have hhigh : f < totalFrames := Nat.lt_of_not_le fun hle => hout (Or.inr hle)
  obtain ⟨hused, hfree⟩ := hs hlow hhigh
  cases hown : own f with
  | none =>
      exact ⟨own, inv_freeFrame hinv ⟨hlow, hhigh, by rw [hsame]; exact hused, hown⟩, Grow.refl own⟩
  | some o =>
      cases o with
      | table r path =>
          -- A table of a live address space is not spent.
          obtain ⟨t, ht, rfl⟩ := h.roots (h.inv.rooted hown)
          obtain ⟨va', hwalk⟩ := h.inv.table_walk hown
          exact absurd hwalk ((hfree t ht).1 va')
      | page path d =>
          have hempty : mappers (unmapPage s.vm dir va) own f path d = ∅ := by
            apply Finset.eq_empty_of_forall_notMem
            intro q hq
            obtain ⟨-, ⟨r, hq'⟩, hpres, hframe⟩ := mem_mappers.mp hq
            have hlen := h.inv.pageDepth hown
            obtain ⟨hq', he⟩ := hfew q r path d hlen hq' hpres
            obtain ⟨t, ht, rfl⟩ := h.roots (h.inv.rooted hq')
            obtain ⟨va', rfl, rfl⟩ := exists_va path d hlen
              (fun i hi => h.inv.bounded hown (List.mem_append_left _ hi))
              (h.inv.bounded hown (List.mem_append_right _ (List.mem_singleton_self d)))
            have hphys := h.inv.getPhys_of_entry hq' (by rwa [he] at hpres)
            rw [he] at hframe
            obtain ⟨hdir, hpath, hidx⟩ := (hfree t ht).2 va' (hphys.trans hframe)
            rw [hdir, hpath] at hq'
            rw [hidx, hclear hq'] at hpres
            cases hpres
          refine ⟨_, hinv.freePage hown hempty, ?_, ?_⟩
          · intro g r' path' hg
            have hne : g ≠ f := by
              rintro rfl
              rw [hown] at hg
              cases hg
            rwa [Function.update_of_ne hne]
          · intro r' hr'
            have hne : r' ≠ f := by
              rintro rfl
              simp at hr'
            rwa [Function.update_of_ne hne] at hr'

/-- What the exit of a thread needs: nobody else uses its TLS frame. -/
def ThreadExitOk (s : Sys) (tid : Tid) : Prop :=
  ∀ p, (s.tasks tid).parentTid = some p → (s.tasks p).used = true →
    Spent s (s.tasks p).pageDir (tlsVa tid) (s.tasks tid).tlsFrame

theorem exitThread_inv (h : SysInv s own) (ht : alive s tid = true) (hok : ThreadExitOk s tid) :
    ∃ own', Inv (exitThread s tid) own' ∧ Grow own own' := by
  unfold exitThread
  cases hparent : (s.tasks tid).parentTid with
  | none => exact ⟨own, h.inv, Grow.refl own⟩
  | some p =>
      dsimp only
      split
      · rename_i hused
        have hroot := h.live (alive_iff.mpr ⟨h.parent ht hparent, hused⟩)
        rw [h.inv.freeThreadStack_eq hroot]
        split
        · exact ⟨own, h.inv, Grow.refl own⟩
        · exact h.freeSpent hroot (hok p hparent hused)
      · exact ⟨own, h.inv, Grow.refl own⟩

theorem killThreads_vm (h : SysInv s own) (ht : alive s tid = true) :
    (killThreads s tid).vm = s.vm := by
  apply List.foldlRecOn (motive := fun w => w = s.vm)
  · rfl
  · rintro w rfl t -
    rw [h.inv.dropThreadStack_eq (h.live ht), ite_self]

/-- What the exit of a process needs: whoever else runs in its address space is
one of the threads that die with it. -/
def ProcessExitOk (s : Sys) (tid : Tid) : Prop :=
  ∀ t, alive s t = true → t ≠ tid → (s.tasks t).pageDir = (s.tasks tid).pageDir →
    isChildThread s tid t = true

theorem exit_thread_ok (h : SysInv s own) (ht : alive s tid = true)
    (hthread : (s.tasks tid).isThread = true) (hok : ThreadExitOk s tid) : SysOk (exit s tid) := by
  obtain ⟨own', hinv, hgrow⟩ := exitThread_inv h ht hok
  unfold exit
  dsimp only
  rw [if_pos hthread]
  have htasks {t : Tid} (hta : alive (setTask { s with vm := exitThread s tid } tid
      { s.tasks tid with used := false, pageDir := 0, isThread := false, tlsFrame := 0 }) t = true) :
      t ≠ tid ∧ alive s t = true := by
    have htt : t ≠ tid := by
      rintro rfl
      simp [alive, setTask] at hta
    exact ⟨htt, by simpa [alive, setTask, htt] using hta⟩
  apply h.survive hinv
  · intro t hta
    obtain ⟨htt, hta⟩ := htasks hta
    exact ⟨hta, by simp [setTask, htt]⟩
  · exact fun hta => hgrow.tables (h.live (htasks hta).2)
  · exact hgrow.roots

theorem exit_process_ok (h : SysInv s own) (ht : alive s tid = true)
    (hprocess : (s.tasks tid).isThread = false) (hok : ProcessExitOk s tid) :
    SysOk (exit s tid) := by
  obtain ⟨own', hinv, hgone⟩ := freeUserMemory_spec h.inv (h.live ht)
  have htasks {t : Tid} (hta : alive (exit s tid) t = true) :
      t ≠ tid ∧ isChildThread s tid t = false ∧ alive s t = true ∧
        (exit s tid).tasks t = s.tasks t := by
    have htt : t ≠ tid := by
      rintro rfl
      simp [alive, exit, setTask] at hta
    have hkilled : isChildThread s tid t = false := by
      by_contra hc
      rw [Bool.not_eq_false] at hc
      simp [alive, exit, hprocess, setTask, killThreads, htt, hc] at hta
    have heq : (exit s tid).tasks t = s.tasks t := by
      simp [exit, hprocess, setTask, killThreads, htt, hkilled]
    exact ⟨htt, hkilled, by simpa [alive, heq] using hta, heq⟩
  have hinv' : Inv (exit s tid).vm own' := by
    have hvm : (exit s tid).vm = freeUserMemory s.vm (s.tasks tid).pageDir := by
      simp [exit, hprocess, setTask, killThreads_vm h ht]
    rw [hvm]
    exact hinv
  apply h.survive hinv'
  · intro t hta
    exact ⟨(htasks hta).2.2.1, (htasks hta).2.2.2⟩
  · intro t hta
    obtain ⟨htt, hkilled, hold, -⟩ := htasks hta
    refine hgone.tables (h.live hold) fun hdir => ?_
    rw [hok t hold htt hdir] at hkilled
    cases hkilled
  · exact fun hr => (hgone.roots hr).1

end Exit

end OriaOS.Vmm
