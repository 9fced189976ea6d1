import OriaOS.Vmm.Regions

/-!
# Regions that stay backed

A page clear of the pages of the kernel is really mapped, to the frame that was
allocated for it, and no later call gives the same page out again: tasks have TLS
pages of their own, and the two allocators of addresses only move on.
-/

namespace OriaOS.Vmm

open OriaOS.Lib

variable {call : Call} {fs : List Nat} {b dir f i n : Nat} {s : Sys}
variable {v v' w : Vm} {own own' : Owners}

/-! ## Mapping a run of pages -/

/-- The pages from `b` on have been mapped to the frames `fs`. -/
structure MapsRun (v : Vm) (own : Owners) (v' : Vm) (own' : Owners) (dir b : Nat)
    (fs : List Nat) : Prop where
  inv : Inv v' own'
  grow : Grow own own'
  kernel : KernelMapped v' own'
  leaf : ∀ {r n}, IsRoot own r → n < userPages → leafOf v' r (pageVa n) =
    if r = dir ∧ b ≤ n ∧ n < b + fs.length then (fs[n - b]?).map PTE.userRW
    else leafOf v r (pageVa n)
  range : ∀ f ∈ fs, ¬ OutOfRange f
  cost : (freeFrames v').card + fs.length ≤ (freeFrames v).card

theorem MapsRun.refl (h : Inv v own) (hk : KernelMapped v own) (dir b : Nat) :
    MapsRun v own v own dir b [] := by
  refine ⟨h, Grow.refl own, hk, ?_, by simp, by simp⟩
  intro r n _ _
  rw [if_neg]
  rintro ⟨-, hlow, hhigh⟩
  exact absurd hlow (Nat.not_le.mpr hhigh)

/-- One page, then the pages behind it. -/
theorem MapsRun.cons (h₁ : MapsRun v own w own' dir b [f]) {own'' : Owners}
    (h₂ : MapsRun w own' v' own'' dir (b + 1) fs) : MapsRun v own v' own'' dir b (f :: fs) := by
  have hcost₁ := h₁.cost
  have hcost₂ := h₂.cost
  simp only [List.length_singleton] at hcost₁
  refine ⟨h₂.inv, h₁.grow.trans h₂.grow, h₂.kernel, ?_, ?_, ?_⟩
  · intro r n hr hn
    rw [h₂.leaf (h₁.grow.tables hr) hn, h₁.leaf hr hn]
    simp only [List.length_cons, List.length_nil]
    by_cases hdir : r = dir
    · rcases Nat.lt_trichotomy n b with hlt | rfl | hgt
      · rw [if_neg (by omega), if_neg (by omega), if_neg (by omega)]
      · rw [if_neg (by omega), if_pos ⟨hdir, by omega, by omega⟩,
          if_pos ⟨hdir, by omega, by omega⟩, Nat.sub_self]
        rfl
      · rw [if_neg (c := r = dir ∧ b ≤ n ∧ n < b + (0 + 1)) (by omega)]
        have hidx : n - b = n - (b + 1) + 1 := by omega
        rw [hidx, List.getElem?_cons_succ]
        exact if_congr (by omega) rfl rfl
    · simp [hdir]
  · intro g hg
    rcases List.mem_cons.mp hg with rfl | hg
    · exact h₁.range g (List.mem_singleton_self g)
    · exact h₂.range g hg
  · rw [List.length_cons]
    omega

theorem mem_newTables {pages : List Nat} :
    i ∈ newTables v dir pages ↔ ∃ va ∈ pages, ptOf v dir va = none ∧ pdIdx va = i := by
  simp [newTables, and_assoc]

/-- A page table that is there stays there. -/
theorem Inv.ptOf_grow (h : Inv v own) (h' : Inv v' own') (hg : Grow own own') {va : Nat}
    (hr : IsRoot own dir) (hnone : ptOf v' dir va = none) : ptOf v dir va = none := by
  cases hpt : ptOf v dir va with
  | none => rfl
  | some pt =>
      have hown := hg.tables (h.ptOf_spec hr hpt)
      rw [h'.ptOf_of_own hown] at hnone
      cases hnone

/-- An address that is not in a 2 MB page of the kernel gets a page, if there is a
frame for it and one for its page table where that is missing. What is left is
enough for the pages behind it, if it was before. -/
theorem Took.run (ht : Took v own f w) (h : Inv v own) (hk : KernelMapped v own)
    (hr : IsRoot own dir) (hn : n < userPages) (hclear : n / 512 ∉ kernelPages)
    (hf : f ∈ freeFrames v) {rest : List Nat} (hrest : ∀ va ∈ rest, UserVa va) {m : Nat}
    (hframes : m + 1 + (newTables v dir (pageVa n :: rest)).card ≤ (freeFrames v).card) :
    ∃ own', MapsRun v own (mapPage w dir (pageVa n) (PTE.userRW f)) own' dir n [f] ∧
      m + (newTables (mapPage w dir (pageVa n) (PTE.userRW f)) dir rest).card ≤
        (freeFrames (mapPage w dir (pageVa n) (PTE.userRW f))).card := by
  obtain ⟨-, hpd⟩ := h.first_tables hr
  have hidx := pageVa_pdIdx hn
  -- Where the page table is missing it is one of those that are counted.
  have hmissing (hpres : (v.mem (v.mem (v.mem dir 0).frame 0).frame (n / 512)).present = false) :
      n / 512 ∈ newTables v dir (pageVa n :: rest) := by
    rw [← hidx] at hpres ⊢
    refine mem_newTables.mpr ⟨pageVa n, List.mem_cons_self, ?_, rfl⟩
    cases hpt : ptOf v dir (pageVa n) with
    | none => rfl
    | some pt =>
        have hown := h.ptOf_spec hr hpt
        rw [(pageVa_user hn).path] at hown
        have hentry := h.entry [0, 0] hown hpd
        rw [hpres] at hentry
        cases hentry.1
  rcases ht.map h hr hpd (pageVa_user hn) hf with ⟨-, hstop⟩ | ⟨own', hmap, hpt, hcost⟩
  · rw [hidx] at hstop
    rcases hstop with hlarge | ⟨hpres, hempty⟩
    · exact absurd ((hk hpd).mp hlarge) hclear
    · have hcard := Finset.card_erase_add_one hf
      rw [hempty, Finset.card_empty] at hcard
      have hpos := Finset.card_pos.mpr ⟨_, hmissing hpres⟩
      omega
  · refine ⟨own', ⟨hmap.inv, hmap.grow, hmap.kernel hk, ?_, ?_, ?_⟩, ?_⟩
    · intro r n' hr' hn'
      rw [hmap.sets hr']
      have hat : vaPath (pageVa n') = vaPath (pageVa n) ∧ ptIdx (pageVa n') = ptIdx (pageVa n) ↔
          n ≤ n' ∧ n' < n + 1 := by
        constructor
        · rintro ⟨hpath, hpt⟩
          obtain rfl := pageVa_inj hn' hn hpath hpt
          exact ⟨Nat.le_refl n', Nat.lt_succ_self n'⟩
        · rintro ⟨hlow, hhigh⟩
          obtain rfl : n' = n := by omega
          exact ⟨rfl, rfl⟩
      simp only [List.length_singleton, hat]
      split
      · rename_i hnn
        rw [show n' - n = 0 by omega]
        rfl
      · rfl
    · intro g hg
      obtain rfl := List.mem_singleton.mp hg
      obtain ⟨⟨hlow, hhigh⟩, -⟩ := mem_freeFrames.mp hf
      simp only [OutOfRange]
      omega
    · rw [List.length_singleton]
      split at hcost <;> omega
    · have hsub : newTables (mapPage w dir (pageVa n) (PTE.userRW f)) dir rest ⊆
          (newTables v dir (pageVa n :: rest)).erase (n / 512) := by
        intro i hi
        obtain ⟨va, hva, hnone, rfl⟩ := mem_newTables.mp hi
        refine Finset.mem_erase.mpr ⟨?_, ?_⟩
        · intro hsame
          obtain ⟨pt, hown⟩ := hpt
          have hpath : vaPath va = vaPath (pageVa n) := by
            rw [(hrest va hva).path, hsame, pageVa_path hn]
          rw [← hpath] at hown
          rw [hmap.inv.ptOf_of_own hown] at hnone
          cases hnone
        · exact mem_newTables.mpr ⟨va, List.mem_cons_of_mem _ hva,
            h.ptOf_grow hmap.inv hmap.grow hr hnone, rfl⟩
      have hle := Finset.card_le_card hsub
      rw [hidx] at hcost
      split at hcost
      · have herase := Finset.card_erase_le (s := newTables v dir (pageVa n :: rest)) (a := n / 512)
        omega
      · rename_i hpres
        have herase := Finset.card_erase_add_one (hmissing (Bool.eq_false_of_not_eq_true hpres))
        omega

theorem pageVa_add (b i : Nat) : pageVa b + i * 0x1000 = pageVa (b + i) := by
  simp only [pageVa]
  omega

theorem pageVa_div (n : Nat) : pageVa n / 2 ^ 21 = n / 512 := by
  simp only [pageVa]
  omega

theorem pagesFrom_succ (base i n : Nat) :
    pagesFrom base i (n + 1) = (base + i * 0x1000) :: pagesFrom base (i + 1) n := by
  rw [pagesFrom, List.range'_succ, List.map_cons, pagesFrom]

theorem mem_pagesFrom {va : Nat} :
    va ∈ pagesFrom (pageVa b) i n ↔ ∃ j, i ≤ j ∧ j < i + n ∧ va = pageVa (b + j) := by
  simp only [pagesFrom, List.mem_map, List.mem_range'_1, pageVa_add, and_assoc]
  exact exists_congr fun j => by rw [eq_comm (a := va)]

theorem length_mapPages (v : Vm) (dir base i n : Nat) : (mapPages v dir base i n).2.length = n := by
  induction n generalizing v i with
  | zero => rfl
  | succ n ih => simp only [mapPages, List.length_cons, ih]

/-- The pages of a region are mapped one after the other. -/
theorem mapPages_run (h : Inv v own) (hk : KernelMapped v own) (hr : IsRoot own dir)
    (hbound : b + i + n ≤ userPages)
    (hclear : ∀ va ∈ pagesFrom (pageVa b) i n, va / 2 ^ 21 ∉ kernelPages)
    (hframes : n + (newTables v dir (pagesFrom (pageVa b) i n)).card ≤ (freeFrames v).card) :
    ∃ own', MapsRun v own (mapPages v dir (pageVa b) i n).1 own' dir (b + i)
      (mapPages v dir (pageVa b) i n).2 := by
  induction n generalizing v own i with
  | zero => exact ⟨own, MapsRun.refl h hk dir (b + i)⟩
  | succ n ih =>
      rw [pagesFrom_succ, pageVa_add] at hclear hframes
      have hhere := hclear _ List.mem_cons_self
      rw [pageVa_div] at hhere
      have hrest : ∀ va ∈ pagesFrom (pageVa b) (i + 1) n, UserVa va := by
        intro va hva
        obtain ⟨j, -, hj, rfl⟩ := mem_pagesFrom.mp hva
        exact pageVa_user (by omega)
      rcases allocFrame_eq v with ⟨-, hempty⟩ | ⟨f, hf, heq⟩
      · rw [hempty, Finset.card_empty] at hframes
        omega
      · obtain ⟨own₁, hone, hleft⟩ := (h.took hf).run h hk hr (by omega) hhere hf hrest hframes
        obtain ⟨own₂, hrun⟩ := ih hone.inv hone.kernel (hone.grow.tables hr) (by omega)
          (fun va hva => hclear va (List.mem_cons_of_mem _ hva)) hleft
        refine ⟨own₂, ?_⟩
        simp only [mapPages, mapNew, heq, pageVa_add]
        exact hone.cons hrun

theorem MapsRun.ne_zero (h : MapsRun v own v' own' dir b fs) (hf : f ∈ fs) : f ≠ 0 := by
  rintro rfl
  exact h.range 0 hf (Or.inl (by decide))

/-- The page loop of `SYS_MMAP` comes through while there are frames. -/
theorem mmapLoop_eq {base : Nat} (h : ∀ f ∈ (mapPages v dir base i n).2, f ≠ 0) :
    mmapLoop v dir base i n = ((mapPages v dir base i n).1, true) := by
  induction n generalizing v i with
  | zero => rfl
  | succ n ih =>
      simp only [mapPages, mapNew, List.mem_cons, forall_eq_or_imp] at h
      rw [mmapLoop]
      dsimp only
      rw [if_neg h.1, ih h.2]
      rfl

/-- The page loop of `SYS_MMAP_FILE` stops behind the whole pages of the file. -/
theorem mmapFileLoop_eq {base full : Nat}
    (h : ∀ f ∈ (mapPages v dir base i (min (full + 1) n)).2, f ≠ 0) :
    mmapFileLoop v dir base i full n =
      ((mapPages v dir base i (min (full + 1) n)).1, i + min (full + 1) n) := by
  induction n generalizing v i full with
  | zero => simp [mmapFileLoop, mapPages]
  | succ n ih =>
      rw [Nat.add_min_add_right] at h ⊢
      simp only [mapPages, mapNew, List.mem_cons, forall_eq_or_imp] at h
      rw [mmapFileLoop]
      dsimp only
      rw [if_neg h.1]
      cases full with
      | zero =>
          simp [mapPages, mapNew]
      | succ full =>
          dsimp only
          rw [ih h.2]
          simp only [mapPages, mapNew, Prod.mk.injEq, true_and]
          omega

/-! ## What stays backed -/

/-- The pages that are given out for good: the TLS pages of live tasks, and what
lies behind the two allocators of addresses. -/
def Taken (s : Sys) (n : Nat) : Prop :=
  (∃ t, alive s t = true ∧ pageVa n = tlsVa t) ∨
    (mmapAnonBase ≤ pageVa n ∧ pageVa n < s.mmapNextVa) ∨
    mmapFileBase ≤ pageVa n ∧ pageVa n < s.mmapFileNextVa

theorem tlsVa_eq (t : Tid) : tlsVa t = pageVa (0x800 + t.val) := by
  simp only [tlsVa, tlsBase, pageVa]
  omega

theorem tlsPage_lt (t : Tid) : 0x800 + t.val < 0x900 := by
  have hlt : t.val < 32 := t.isLt
  omega

/-- In numbers of pages. -/
theorem taken_iff {a : Nat} (ha : s.mmapNextVa = pageVa a) (hb : s.mmapFileNextVa = pageVa b) :
    Taken s n ↔ (∃ t : Tid, alive s t = true ∧ n = 0x800 + t.val) ∨
      (0x900 ≤ n ∧ n < a) ∨ 0xB00 ≤ n ∧ n < b := by
  simp only [Taken, ha, hb, tlsVa_eq, pageVa, mmapAnonBase, mmapFileBase,
    Nat.mul_left_inj (show (0x1000 : Nat) ≠ 0 by decide)]
  refine or_congr_right (or_congr ?_ ?_) <;> omega

namespace Kernel

variable {k : Kernel}

/-- A page of the ledger that is mapped as the ledger says. -/
structure Backed (s : Sys) (dirs : List Nat) (e : Handed) : Prop where
  dir : e.dir ∈ dirs
  page : ∃ n < userPages, e.va = pageVa n ∧ Taken s n
  leaf : leafOf s.vm e.dir e.va = some (PTE.userRW e.frame)
  frame : ¬ OutOfRange e.frame
  unshared : ∀ i, e.region ≠ .shm i

/-- Each page of the allocator of `SYS_MMAP_FILE`, and the one left out behind a
region, cost at least half a frame, so it stays below 1 GB. -/
structure Serving (k : Kernel) (own : Owners) : Prop where
  inv : Inv k.sys.vm own
  kernel : KernelMapped k.sys.vm own
  dirs : ∀ d ∈ k.dirs, IsRoot own d
  live : ∀ {t}, alive k.sys t = true → (k.sys.tasks t).pageDir ∈ k.dirs
  handed : ∀ e ∈ k.handed, Backed k.sys k.dirs e
  anon : ∃ m, k.sys.mmapNextVa = pageVa m ∧ 0x900 ≤ m ∧ m ≤ 0xB00
  file : ∃ m, k.sys.mmapFileNextVa = pageVa m ∧ 0xB00 ≤ m ∧
    m + 2 * (freeFrames k.sys.vm).card ≤ 0xB00 + 2 * (totalFrames - reservedFrames)

theorem Serving.regionsOk (h : Serving k own) : RegionsOk k := by
  have hphys {e : Handed} (he : e ∈ k.handed) : getPhys k.sys.vm e.dir e.va = e.frame :=
    h.inv.getPhys_of_leaf (h.dirs _ (h.handed e he).dir) (h.handed e he).leaf
  refine ⟨fun e he => hphys he, fun e he => Or.inr (h.handed e he).frame, ?_⟩
  intro e he e' _ i j hi _
  exact absurd hi ((h.handed e he).unshared i)

theorem Start.serving (h : k.Start) : Serving k fun _ => none := by
  have hfree : (freeFrames k.sys.vm).card = totalFrames - reservedFrames := by
    rw [freeFrames, Finset.filter_true_of_mem, Nat.card_Ico]
    intro f hf
    rw [h.sys.used]
    exact decide_eq_false (Nat.not_lt.mpr (Finset.mem_Ico.mp hf).1)
  refine ⟨h.sys.booted.inv, ?_, ?_, ?_, ?_, ?_, ?_⟩
  · intro pd r i hpd
    cases hpd
  · simp [h.dirs]
  · intro t ht
    rw [h.sys.tasks] at ht
    cases ht
  · simp [h.handed]
  · exact ⟨0x900, h.sys.mmapNextVa, by decide, by decide⟩
  · exact ⟨0xB00, h.sys.mmapFileNextVa, by decide, by rw [hfree]⟩

/-- A run of pages that nothing has yet is given out. -/
theorem Serving.hand (h : Serving k own) {region : Region}
    (hrun : MapsRun k.sys.vm own s.vm own' dir b fs) (hdir : dir ∈ k.dirs)
    (hbound : b + fs.length ≤ userPages) (hunshared : ∀ i, region ≠ .shm i)
    (hfresh : ∀ n, b ≤ n → n < b + fs.length → ¬ Taken k.sys n)
    (hnew : ∀ n, b ≤ n → n < b + fs.length → Taken s n) (hold : ∀ n, Taken k.sys n → Taken s n)
    (hlive : ∀ {t}, alive s t = true → (s.tasks t).pageDir ∈ k.dirs)
    (hanon : ∃ m, s.mmapNextVa = pageVa m ∧ 0x900 ≤ m ∧ m ≤ 0xB00)
    (hfile : ∃ m, s.mmapFileNextVa = pageVa m ∧ 0xB00 ≤ m ∧
      m + 2 * (freeFrames s.vm).card ≤ 0xB00 + 2 * (totalFrames - reservedFrames)) :
    Serving ({ k with sys := s }.hand region dir (pageVa b) fs) own' := by
  refine ⟨hrun.inv, hrun.kernel, fun d hd => hrun.grow.tables (h.dirs d hd), hlive, ?_, hanon,
    hfile⟩
  intro e he
  rcases List.mem_append.mp he with he | he
  · obtain ⟨i, hi, rfl⟩ := List.mem_mapIdx.mp he
    refine ⟨hdir, ⟨b + i, by omega, pageVa_add b i, hnew _ (by omega) (by omega)⟩, ?_,
      hrun.range _ (List.getElem_mem hi), hunshared⟩
    change leafOf s.vm dir (pageVa b + i * 0x1000) = _
    rw [pageVa_add, hrun.leaf (h.dirs dir hdir) (by omega), if_pos ⟨rfl, by omega, by omega⟩,
      Nat.add_sub_cancel_left, List.getElem?_eq_getElem hi]
    rfl
  · obtain ⟨hedir, ⟨n, hn, hva, htaken⟩, hleaf, hframe, hshm⟩ := h.handed e he
    refine ⟨hedir, ⟨n, hn, hva, hold n htaken⟩, ?_, hframe, hshm⟩
    change leafOf s.vm e.dir e.va = _
    rw [hva, hrun.leaf (h.dirs _ hedir) hn, if_neg, ← hva]
    · exact hleaf
    · rintro ⟨-, hlow, hhigh⟩
      exact hfresh n hlow hhigh htaken

/-- Memory has changed where no address space that was built sees it. -/
theorem Serving.unseen (h : Serving k own) {v : Vm} (shm : Fin shmMax → ShmSlot) {dirs : List Nat}
    (hinv : Inv v own') (hkernel : KernelMapped v own') (hsub : ∀ d ∈ k.dirs, d ∈ dirs)
    (hdirs : ∀ d ∈ dirs, IsRoot own' d)
    (hleaf : ∀ d ∈ k.dirs, ∀ va, leafOf v d va = leafOf k.sys.vm d va)
    (hfree : (freeFrames v).card ≤ (freeFrames k.sys.vm).card) :
    Serving ⟨{ k.sys with vm := v }, shm, dirs, k.handed⟩ own' := by
  refine ⟨hinv, hkernel, hdirs, fun ht => hsub _ (h.live ht), ?_, h.anon, ?_⟩
  · intro e he
    obtain ⟨hdir, hpage, hold, hframe, hshm⟩ := h.handed e he
    refine ⟨hsub _ hdir, hpage, ?_, hframe, hshm⟩
    change leafOf v e.dir e.va = _
    rw [hleaf _ hdir]
    exact hold
  · obtain ⟨m, hm, hlow, hhigh⟩ := h.file
    exact ⟨m, hm, hlow, by dsimp only; omega⟩

theorem createPageDir_serving (h : Serving k own) : ∃ own', Serving k.createPageDir own' := by
  unfold createPageDir
  dsimp only
  rcases createPageDir_created h.inv with ⟨hzero, hu⟩ | ⟨own', hc⟩
  · rw [if_pos hzero]
    have hfree : freeFrames (Vmm.createPageDir k.sys.vm).1 = freeFrames k.sys.vm := by
      simp only [freeFrames, hu.used]
    refine ⟨own, h.unseen k.shm (hu.inv h.inv) ?_ (fun _ hd => hd) h.dirs
      (fun d hd va => hu.leafOf h.inv (h.dirs d hd) va) (Nat.le_of_eq (by rw [hfree]))⟩
    apply h.kernel.of_grow (Grow.refl own) h.inv (hu.inv h.inv)
    intro pd r i hpd
    rw [hu.mem pd (h.inv.not_free hpd)]
  · rw [if_neg (hc.inv.root_pos hc.root)]
    refine ⟨own', h.unseen k.shm hc.inv (hc.kernel h.kernel) (fun _ hd => List.mem_cons_of_mem _ hd)
      ?_ (fun d hd va => hc.leafOf_old h.inv (h.dirs d hd) va)
      (Nat.le.intro (k := 3) hc.free.symm)⟩
    intro d hd
    rcases List.mem_cons.mp hd with rfl | hd
    · exact hc.root
    · exact (hc.keep (h.dirs d hd)).1

theorem shmCreate_serving (h : Serving k own) (key : CString) :
    Serving (k.shmCreate key).1 own := by
  unfold shmCreate
  split
  · exact h
  split
  · exact h
  rcases allocFrame_eq k.sys.vm with ⟨heq, -⟩ | ⟨f, hf, heq⟩
  · rw [heq]
    exact h
  · rw [heq]
    dsimp only
    rw [if_neg (free_ne_zero hf)]
    have ht := h.inv.took_zeroed hf
    refine h.unseen _ ht.inv ?_ (fun _ hd => hd) h.dirs
      (fun d hd va => ht.leafOf h.inv (h.dirs d hd) va) ?_
    · intro pd r i hpd
      change ((takeZeroed k.sys.vm f).mem pd i).large = true ↔ _
      rw [ht.mem hpd]
      exact h.kernel hpd
    · change (freeFrames (takeZeroed k.sys.vm f)).card ≤ _
      rw [ht.free]
      exact Finset.card_erase_le

theorem shmVa_kernel (i : Fin shmMax) : shmVa i / 2 ^ 21 ∈ kernelPages := by
  revert i
  decide

theorem stackSlotVa_kernel (t : Tid) : stackSlotVa t 0 / 2 ^ 21 ∈ kernelPages := by
  revert t
  decide

/-- A page of shared memory is never clear of the kernel, so nothing is attached. -/
theorem shmAttach_serving (h : Serving k own) {id : Int} (hclear : Clear k (.shmAttach id dir)) :
    Serving (k.shmAttach id dir).1 own := by
  unfold shmAttach
  cases hi : k.attachable id with
  | none => exact h
  | some i =>
      have hmem : shmVa i ∈ Call.pages k (.shmAttach id dir) := by
        simp [Call.pages, Call.mapped, hi]
      exact absurd (shmVa_kernel i) (hclear _ hmem)

/-- Nor is a stack slot, so no thread is created. -/
theorem createThread_serving (h : Serving k own) {parent : Tid}
    (hclear : Clear k (.createThread parent)) : Serving (k.createThread parent) own := by
  unfold createThread
  cases ht : freeSlot k.sys.tasks with
  | none => exact h
  | some t =>
      have hmem : stackSlotVa t 0 ∈ Call.pages k (.createThread parent) := by
        simp [Call.pages, ht, pagesFrom]
      exact absurd (stackSlotVa_kernel t) (hclear _ hmem)

/-- The TLS pages lie behind the first 8 MB. -/
theorem mapTls_run {v : Vm} (h : Inv v own) (hk : KernelMapped v own) (hr : IsRoot own dir)
    (t : Tid) (hframes : 1 + (newTables v dir [tlsVa t]).card ≤ (freeFrames v).card) :
    ∃ own', MapsRun v own (mapTls v dir t).1 own' dir (0x800 + t.val) [(mapTls v dir t).2] := by
  have hlt : t.val < 32 := t.isLt
  rcases allocFrame_eq v with ⟨-, hempty⟩ | ⟨f, hf, heq⟩
  · rw [hempty, Finset.card_empty] at hframes
    omega
  · have hclear : (0x800 + t.val) / 512 ∉ kernelPages := by
      rw [show (0x800 + t.val) / 512 = 4 by omega]
      decide
    rw [tlsVa_eq] at hframes
    obtain ⟨own', hrun, -⟩ := (h.took_zeroed hf).run h hk hr
      ((tlsPage_lt t).trans (by decide)) hclear hf (List.forall_mem_nil _) (m := 0) (by omega)
    refine ⟨own', ?_⟩
    simp only [mapTls, heq, tlsVa_eq]
    exact hrun

theorem taskCreateUser_some {t : Tid} (ht : freeSlot s.tasks = some t) (dir : Nat) :
    taskCreateUser s dir = setTask { s with vm := (mapTls s.vm dir t).1 } t
      ⟨true, false, none, dir, userHeapStart, (mapTls s.vm dir t).2⟩ := by
  rw [taskCreateUser, ht]

theorem createUser_serving (h : Serving k own) (hvalid : Valid k (.createUser dir)) :
    ∃ own', Serving (k.createUser dir) own' := by
  unfold createUser
  cases ht : freeSlot k.sys.tasks with
  | none => exact ⟨own, h⟩
  | some t =>
      obtain ⟨hzero, hunused⟩ := freeSlot_spec ht
      have hbuilt := hvalid.built
      have hframes := hvalid.frames
      simp only [Call.fresh, Call.mapped, Call.dir, ht, Option.toList_some, List.map_cons,
        List.map_nil, List.length_singleton, List.cons_ne_nil, false_or] at hbuilt hframes
      obtain ⟨own', hrun⟩ := mapTls_run h.inv h.kernel (h.dirs dir hbuilt) t hframes
      obtain ⟨a, ha, halow, hahigh⟩ := h.anon
      obtain ⟨b, hb, hblow, hbhigh⟩ := h.file
      have hlt := tlsPage_lt t
      have hcost := hrun.cost
      refine ⟨own', ?_⟩
      simp only [taskCreateUser_some ht, setTask, Function.update_self, tlsVa_eq]
      apply h.hand hrun hbuilt
      · exact hlt.trans (by decide)
      · exact fun i hi => by cases hi
      · intro n hlow hhigh
        rw [List.length_singleton] at hhigh
        rw [taken_iff ha hb]
        rintro (⟨t', ht', hn⟩ | ⟨hn, -⟩ | ⟨hn, -⟩)
        · -- The page of another task is another page.
          obtain rfl : t' = t := Fin.ext (by omega)
          rw [alive_iff, hunused] at ht'
          cases ht'.2
        · omega
        · omega
      · intro n hlow hhigh
        rw [List.length_singleton] at hhigh
        have hn : n = 0x800 + t.val := by omega
        exact (taken_iff (by exact ha) (by exact hb)).mpr
          (Or.inl ⟨t, by simp [alive, hzero], hn⟩)
      · intro n htaken
        refine (taken_iff (by exact ha) (by exact hb)).mpr
          (((taken_iff ha hb).mp htaken).imp_left ?_)
        rintro ⟨t', ht', hn⟩
        rw [alive_iff] at ht'
        have hne : t' ≠ t := by
          rintro rfl
          rw [hunused] at ht'
          cases ht'.2
        exact ⟨t', by simp [alive, hne, ht'], hn⟩
      · intro t' ht'
        by_cases htt : t' = t
        · subst htt
          simpa using hbuilt
        · simp only [alive, Function.update_of_ne htt] at ht' ⊢
          exact h.live ht'
      · exact ⟨a, ha, halow, hahigh⟩
      · exact ⟨b, hb, hblow, by dsimp only; omega⟩

theorem length_pagesFrom (base i n : Nat) : (pagesFrom base i n).length = n := by
  simp [pagesFrom]

theorem Valid.caller_alive {t : Tid} (h : Valid k call) (ht : call.caller = some t) :
    alive k.sys t = true := by
  have hall := h.caller
  rwa [ht, Option.all_some] at hall

theorem mmap_serving (h : Serving k own) {tid : Tid} (hvalid : Valid k (.mmap tid n))
    (hclear : Clear k (.mmap tid n)) : ∃ own', Serving (k.mmap tid n) own' := by
  have hdir := h.live (hvalid.caller_alive rfl)
  have hroot := h.dirs _ hdir
  have hframes := hvalid.frames
  have hnonzero := h.inv.root_pos hroot
  obtain ⟨b, hnext, hlow, hhigh⟩ := h.anon
  obtain ⟨c, hfile, hclow, hchigh⟩ := h.file
  unfold mmap
  by_cases hrefused : n = 0 ∨ 256 < n ∨ mmapAnonLimit < k.sys.mmapNextVa + n * 0x1000
  · have heq : Vmm.mmap k.sys tid n = k.sys := by
      rw [Vmm.mmap]
      exact if_pos (by tauto)
    refine ⟨own, ?_⟩
    simp only [heq, Nat.sub_self, Nat.zero_div]
    exact h
  · rw [hnext] at hrefused
    simp only [Call.fresh, Call.mapped, Call.dir, if_neg hrefused, length_pagesFrom, hnext]
      at hframes
    have hpages : ∀ va ∈ pagesFrom (pageVa b) 0 n, va / 2 ^ 21 ∉ kernelPages := by
      intro va hva
      apply hclear
      simp only [Call.pages, Call.mapped, hnext, if_neg hrefused, List.append_nil]
      exact hva
    simp only [pageVa, mmapAnonLimit, not_or] at hrefused
    obtain ⟨own', hrun⟩ := mapPages_run h.inv h.kernel hroot (i := 0)
      (by simp only [userPages]; omega) hpages hframes
    have heq : Vmm.mmap k.sys tid n = { k.sys with
        vm := (mapPages k.sys.vm (k.sys.tasks tid).pageDir (pageVa b) 0 n).1
        mmapNextVa := pageVa (b + n) } := by
      rw [Vmm.mmap]
      dsimp only
      rw [hnext, if_neg, mmapLoop_eq fun f hf => hrun.ne_zero hf]
      · simp [pageVa_add]
      · simp only [pageVa, mmapAnonLimit, not_or]
        exact ⟨hrefused.1, hrefused.2.1, hnonzero, hrefused.2.2⟩
    have hcount : (pageVa (b + n) - pageVa b) / 0x1000 = n := by
      simp only [pageVa]
      omega
    have hlen := length_mapPages k.sys.vm (k.sys.tasks tid).pageDir (pageVa b) 0 n
    have hcost := hrun.cost
    refine ⟨own', ?_⟩
    simp only [heq, hnext, hcount]
    apply h.hand hrun hdir
    · simp only [hlen, userPages]
      omega
    · exact fun i hi => by cases hi
    · intro m hm hmn
      rw [hlen] at hmn
      rw [taken_iff hnext hfile]
      rintro (⟨t, -, hn⟩ | ⟨-, hn⟩ | ⟨hn, -⟩)
      · have hlt := tlsPage_lt t
        omega
      · omega
      · omega
    · intro m hm hmn
      rw [hlen] at hmn
      have hplace : 0x900 ≤ m ∧ m < b + n := by omega
      exact (taken_iff rfl (by exact hfile)).mpr (Or.inr (Or.inl hplace))
    · intro m htaken
      exact (taken_iff rfl (by exact hfile)).mpr (((taken_iff hnext hfile).mp htaken).imp_right
        (Or.imp_left fun hm => ⟨hm.1, Nat.lt_add_right n hm.2⟩))
    · exact h.live
    · exact ⟨b + n, rfl, by omega, by omega⟩
    · exact ⟨c, hfile, hclow, by dsimp only; omega⟩

theorem mmapFile_serving (h : Serving k own) {tid : Tid} {full : Nat}
    (hvalid : Valid k (.mmapFile tid n full)) (hclear : Clear k (.mmapFile tid n full)) :
    ∃ own', Serving (k.mmapFile tid n full) own' := by
  have hdir := h.live (hvalid.caller_alive rfl)
  have hroot := h.dirs _ hdir
  have hframes := hvalid.frames
  have hpages := hclear
  obtain ⟨b, hnext, hlow, hhigh⟩ := h.file
  obtain ⟨a, hanon, halow, hahigh⟩ := h.anon
  simp only [Clear, Call.pages, Call.fresh, Call.mapped, Call.dir, length_pagesFrom, hnext,
    List.append_nil] at hframes hpages
  have hpos : 0 < min (full + 1) (if n = 0 ∨ 256 < n then 256 else n) := by
    split <;> omega
  obtain ⟨npages, hnpages⟩ : ∃ npages,
      min (full + 1) (if n = 0 ∨ 256 < n then 256 else n) = npages := ⟨_, rfl⟩
  rw [hnpages] at hframes hpages hpos
  simp only [totalFrames, reservedFrames] at hhigh
  obtain ⟨own', hrun⟩ := mapPages_run h.inv h.kernel hroot (i := 0)
    (by simp only [userPages]; omega) hpages hframes
  have heq : Vmm.mmapFile k.sys tid n full = { k.sys with
      vm := (mapPages k.sys.vm (k.sys.tasks tid).pageDir (pageVa b) 0 npages).1
      mmapFileNextVa := pageVa (b + (npages + 1)) } := by
    rw [Vmm.mmapFile]
    dsimp only
    rw [if_neg (h.inv.root_pos hroot), hnext, mmapFileLoop_eq, hnpages, Nat.zero_add,
      if_neg (by omega), pageVa_add]
    rw [hnpages]
    exact fun f hf => hrun.ne_zero hf
  have hcount : (pageVa (b + (npages + 1)) - pageVa b) / 0x1000 - 1 = npages := by
    simp only [pageVa]
    omega
  have hlen := length_mapPages k.sys.vm (k.sys.tasks tid).pageDir (pageVa b) 0 npages
  have hcost := hrun.cost
  refine ⟨own', ?_⟩
  unfold mmapFile
  simp only [heq, hnext, hcount]
  apply h.hand hrun hdir
  · simp only [hlen, userPages]
    omega
  · exact fun i hi => by cases hi
  · intro m hm hmn
    rw [hlen] at hmn
    rw [taken_iff hanon hnext]
    rintro (⟨t, -, hn⟩ | ⟨-, hn⟩ | ⟨-, hn⟩)
    · have hlt := tlsPage_lt t
      omega
    · omega
    · omega
  · intro m hm hmn
    rw [hlen] at hmn
    have hplace : 0xB00 ≤ m ∧ m < b + (npages + 1) := by omega
    exact (taken_iff (by exact hanon) rfl).mpr (Or.inr (Or.inr hplace))
  · intro m htaken
    exact (taken_iff (by exact hanon) rfl).mpr (((taken_iff hanon hnext).mp htaken).imp_right
      (Or.imp_right fun hm => ⟨hm.1, Nat.lt_add_right (npages + 1) hm.2⟩))
  · exact h.live
  · exact ⟨a, hanon, halow, hahigh⟩
  · rw [hlen] at hcost
    exact ⟨b + (npages + 1), rfl, by omega, by dsimp only [totalFrames, reservedFrames]; omega⟩

/-! ## Every run -/

/-- One call that stays clear of the pages of the kernel. -/
theorem step_serving (h : Serving k own) (hg : Guard k call) :
    ∃ own', Serving (k.step call) own' := by
  obtain ⟨hvalid, hclear⟩ := hg
  cases call with
  | createPageDir => exact createPageDir_serving h
  | shmCreate key => exact ⟨own, shmCreate_serving h key⟩
  | shmAttach id dir => exact ⟨own, shmAttach_serving h hclear⟩
  | createUser dir => exact createUser_serving h hvalid
  | createThread parent => exact ⟨own, createThread_serving h hclear⟩
  | mmap tid n => exact mmap_serving h hvalid hclear
  | mmapFile tid n full => exact mmapFile_serving h hvalid hclear

end Kernel

/-- In every run whose calls give out no page inside a 2 MB page of the kernel, all
pages that were given out are backed by their frames. -/
theorem regions_ok {k : Kernel} (r : Reach Kernel.Start Kernel.Guard Kernel.step k) :
    k.RegionsOk := by
  obtain ⟨own, h⟩ := r.invariant (P := fun k => ∃ own, k.Serving own)
    (fun _ h => ⟨_, h.serving⟩) fun _ _ ⟨_, h⟩ hg => Kernel.step_serving h hg
  exact h.regionsOk

namespace Kernel

/-- The kernel after boot. -/
def boot : Kernel := ⟨Vmm.boot, fun _ => ⟨CString.empty, 0, 0⟩, [], []⟩

theorem boot_start : boot.Start where
  sys := Vmm.boot_start
  shm := fun _ => rfl
  dirs := rfl
  handed := rfl

/-- A call that maps nothing is always valid. -/
theorem Valid.of_unmapped {k : Kernel} (hcaller : call.caller = none)
    (hmapped : call.mapped k = []) (hfresh : call.fresh k = 0) : Valid k call := by
  refine ⟨by simp [hcaller], Or.inl hmapped, ?_⟩
  simp [hfresh, hmapped, newTables]

/-- Frames that are free, and twice as many as the pages. -/
theorem Valid.of_free {k : Kernel} (hcaller : call.caller.all (alive k.sys) = true)
    (hbuilt : call.dir k ∈ k.dirs) (frames : List Nat) (hnodup : frames.Nodup)
    (hfree : ∀ f ∈ frames, (reservedFrames ≤ f ∧ f < totalFrames) ∧ k.sys.vm.used f = false)
    (hcount : call.fresh k + (call.mapped k).length ≤ frames.length) : Valid k call := by
  refine ⟨hcaller, Or.inr hbuilt, ?_⟩
  have htables : (newTables k.sys.vm (call.dir k) (call.mapped k)).card ≤ (call.mapped k).length :=
    (List.toFinset_card_le _).trans (by rw [List.length_map]; exact List.length_filter_le _ _)
  have hsub : frames.toFinset ⊆ freeFrames k.sys.vm :=
    fun f hf => mem_freeFrames.mpr (hfree f (List.mem_toFinset.mp hf))
  have hcard := Finset.card_le_card hsub
  rw [List.toFinset_card_of_nodup hnodup] at hcard
  omega

end Kernel

/-- A program gets a TLS page, maps two pages and a file of one page. -/
def privateRun : List Kernel.Call :=
  [.createPageDir, .createUser 2048, .mmap 1 2, .mmapFile 1 1 0]

theorem regions_ok_private :
    (privateRun.foldl Kernel.step Kernel.boot).RegionsOk ∧
      (privateRun.foldl Kernel.step Kernel.boot).handed.map Handed.va =
        [0xB00000, 0x900000, 0x901000, 0x801000] := by
  refine ⟨?_, by decide +kernel⟩
  simp only [privateRun, List.foldl_cons, List.foldl_nil]
  apply regions_ok
  refine Reach.next _ (Reach.next _ (Reach.next _ (Reach.next _
    (Reach.start Kernel.boot_start) ?_) ?_) ?_) ?_
  · exact ⟨Kernel.Valid.of_unmapped rfl rfl rfl, by simp [Kernel.Clear, Kernel.Call.pages,
      Kernel.Call.mapped]⟩
  · exact ⟨Kernel.Valid.of_free rfl (by decide +kernel) [5000, 5001] (by decide)
      (by decide +kernel) (by decide +kernel), by unfold Kernel.Clear; decide +kernel⟩
  · exact ⟨Kernel.Valid.of_free (by decide +kernel) (by decide +kernel)
      [5000, 5001, 5002, 5003] (by decide) (by decide +kernel) (by decide +kernel),
      by unfold Kernel.Clear; decide +kernel⟩
  · exact ⟨Kernel.Valid.of_free (by decide +kernel) (by decide +kernel) [5000, 5001]
      (by decide) (by decide +kernel) (by decide +kernel), by unfold Kernel.Clear; decide +kernel⟩

/-- A program creates a region of shared memory and attaches it. -/
def attachRun : List Kernel.Call :=
  [.createPageDir, .shmCreate CString.empty, .shmAttach 0 2048]

/-- It is given the address of a page of the kernel heap. -/
theorem attached_page_is_heap :
    ¬ ∀ k, Reach Kernel.Start Kernel.Valid Kernel.step k → k.RegionsOk := by
  intro h
  have hrun : Reach Kernel.Start Kernel.Valid Kernel.step
      (attachRun.foldl Kernel.step Kernel.boot) := by
    simp only [attachRun, List.foldl_cons, List.foldl_nil]
    refine Reach.next _ (Reach.next _ (Reach.next _ (Reach.start Kernel.boot_start) ?_) ?_) ?_
    · exact Kernel.Valid.of_unmapped rfl rfl rfl
    · exact Kernel.Valid.of_unmapped rfl rfl rfl
    · exact Kernel.Valid.of_free rfl (by decide +kernel) [5000] (by decide)
        (by decide +kernel) (by decide +kernel)
  have hheap : ∃ e ∈ (attachRun.foldl Kernel.step Kernel.boot).handed, e.frame = 2051 ∧
      getPhys (attachRun.foldl Kernel.step Kernel.boot).sys.vm e.dir e.va = 0x500 := by
    decide +kernel
  obtain ⟨e, he, hframe, hphys⟩ := hheap
  have hbacked := (h _ hrun).backed e he
  rw [hframe, hphys] at hbacked
  cases hbacked

end OriaOS.Vmm
