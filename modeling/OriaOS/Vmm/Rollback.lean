import OriaOS.Vmm.Taking

/-!
# Calls that give back what they took

Loading an image and tearing the new address space down again leaves the bitmap as it was exactly
if each page that got a frame went to a place of its own in user space, found room for its page
table, and has a counter of zero. A fork that is taken back always does: its pages are all
counted. A rollback of `SYS_MMAP` clears the page-table entries that it used and keeps the page
tables.
-/

namespace OriaOS.Vmm

variable {roots : Finset Nat} {rest : List Nat} {g i j pt : Nat}
variable {v v₀ v' w : Vm} {own own₀ own' : Owners} {dir pd f : Nat}

/-! ## Lost frames -/

/-- The frame is in use, and the teardown of `r` does not find it. -/
structure Lost (v : Vm) (own : Owners) (r f : Nat) : Prop where
  low : reservedFrames ≤ f
  high : f < totalFrames
  used : v.used f = true
  missed : ¬ Returns v own r f

theorem Lost.leaks (h : Lost v own dir f) (hinv : Inv v own) (hr : IsRoot own dir) :
    (freeUserMemory v dir).used f = true :=
  (freeUserMemory_used hinv hr f).mpr ⟨h.used, h.missed⟩

/-- A frame that is held and mapped nowhere. -/
theorem Inv.lost_of_held (h : Inv v own) (hf : Held v own f) (r : Nat) : Lost v own r f := by
  refine ⟨hf.low, hf.high, hf.used, ?_⟩
  rintro (⟨path, ho, -⟩ | ⟨p, i, d, hp, hpres, hframe, -, -⟩)
  · rw [hf.unowned] at ho
    cases ho
  · exact h.not_mapped hf.unowned hf.low hp rfl hpres hframe

/-- What is lost stays lost while more pages are loaded. -/
theorem Lost.loads {va : Nat} (h : Lost v own dir g) (hl : Loads v own v' own' dir va f)
    (hf : v.used f = false) : Lost v' own' dir g := by
  have hkept := hl.kept h.used h.low h.high
  refine ⟨h.low, h.high, hl.used (Or.inl h.used), fun hret => h.missed ?_⟩
  rcases hret with ⟨path, ho, hpath⟩ | ⟨p, i, d, hp, hpres, hframe, hlow, hcow⟩
  · exact Or.inl ⟨path, hkept ▸ ho, hpath⟩
  · rcases hl.maps rfl hp hpres with ⟨hp', he⟩ | ⟨-, -, -, he⟩
    · rw [he] at hpres hframe
      exact Or.inr ⟨p, i, d, hp', hpres, hframe, hlow, hl.cow ▸ hcow⟩
    · rw [he] at hframe
      have hused := h.used
      rw [← hframe, show (PTE.userRW f).frame = f from rfl, hf] at hused
      cases hused

/-! ## Loading an image -/

/-- The frames that pages take, with their page tables. -/
def cost (pages : List Nat) : Nat := pages.length + (pages.map pdIdx).toFinset.card

/-- If there is a frame for the page behind the pages `done`, then the page has a place of its own
in user space and room for its page table, and the counter of the frame is zero. -/
def Fits (v : Vm) (done : List Nat) (va : Nat) : Prop :=
  ∀ f, (freeList v)[3 + cost done]? = some f →
    UserVa va ∧ pdIdx va ∉ kernelPages ∧ (∀ va' ∈ done, ¬ SamePage va' va) ∧ v.cow f = 0 ∧
      (pdIdx va ∈ done.map pdIdx ∨ 3 + cost done + 1 < (freeList v).length)

/-- The pages `done` have been loaded into the new address space `dir`, and the teardown finds
everything that has been taken since `v₀`. -/
structure Tidy (v₀ : Vm) (own₀ : Owners) (v : Vm) (own : Owners) (dir pd : Nat)
    (done : List Nat) : Prop where
  base : Inv v₀ own₀
  inv : Inv v own
  root : IsRoot own dir
  top : own pd = some (.table dir [0, 0])
  old : ∀ {f}, v₀.used f = true → v.used f = true
  fresh : ∀ {f path}, own f = some (.table dir path) → v₀.used f = false
  pages : ∀ {p path d}, own p = some (.table dir path) → path.length = 3 →
    (v.mem p d).present = true → v₀.used (v.mem p d).frame = false ∧
      ∃ va ∈ done, vaPath va = path ∧ ptIdx va = d
  mapped : ∀ va ∈ done, ∃ p, own p = some (.table dir (vaPath va)) ∧
    (v.mem p (ptIdx va)).present = true
  found : ∀ {f}, v.used f = true → v₀.used f = true ∨ Returns v own dir f
  cow : v.cow = v₀.cow
  present : ∀ k, (v.mem pd k).present = true ↔ k ∈ kernelPages ∨ k ∈ done.map pdIdx
  large : ∀ k, (v.mem pd k).large = true ↔ k ∈ kernelPages
  list : freeList v = (freeList v₀).drop (3 + cost done)
  others : ∀ {q r path}, own₀ q = some (.table r path) →
    own q = some (.table r path) ∧ r ≠ dir ∧ v.mem q = v₀.mem q
  boot : ∀ {q}, IsBootPd q → v.mem q = v₀.mem q

section Load
variable {done : List Nat} {va : Nat} {fs : List Nat}

theorem cost_append (done : List Nat) (va : Nat) :
    cost (done ++ [va]) = cost done + if pdIdx va ∈ done.map pdIdx then 1 else 2 := by
  have hset : ((done ++ [va]).map pdIdx).toFinset = insert (pdIdx va) (done.map pdIdx).toFinset := by
    ext k
    simp [eq_comm]
  rw [cost, cost, hset, List.length_append, List.length_singleton]
  split
  · next hmem =>
    rw [Finset.insert_eq_of_mem (List.mem_toFinset.mpr hmem)]
    omega
  · next hmem =>
    rw [Finset.card_insert_of_notMem fun hc => hmem (List.mem_toFinset.mp hc)]
    omega

/-- The frame that the next page gets, and the frames behind it. -/
theorem Tidy.next (h : Tidy v₀ own₀ v own dir pd done) (hl : freeList v = f :: fs) :
    (freeList v₀)[3 + cost done]? = some f ∧ fs = (freeList v₀).drop (3 + cost done + 1) ∧
      (fs ≠ [] ↔ 3 + cost done + 1 < (freeList v₀).length) := by
  have hlist := h.list
  rw [hl] at hlist
  have hfs : fs = (freeList v₀).drop (3 + cost done + 1) := by
    rw [← List.tail_drop, ← hlist, List.tail_cons]
  refine ⟨?_, hfs, ?_⟩
  · rw [← List.head?_drop, ← hlist, List.head?_cons]
  · rw [hfs, ← List.length_pos_iff, List.length_drop]
    omega

theorem Tidy.took (h : Tidy v₀ own₀ v own dir pd done) (hl : freeList v = f :: fs) :
    TookFirst v own f fs (takeZeroed v f) :=
  h.inv.tookFirst_zeroed hl

/-- A page that fits keeps the books in order. -/
theorem Tidy.load_fits (h : Tidy v₀ own₀ v own dir pd done) (hl : freeList v = f :: fs)
    (hfit : Fits v₀ done va) :
    ∃ own', Tidy v₀ own₀ (mapPage (takeZeroed v f) dir va (PTE.userRW f)) own' dir pd
      (done ++ [va]) := by
  obtain ⟨hget, hfs, hroom⟩ := h.next hl
  obtain ⟨hva, hplain, hnew, hcow, hspace⟩ := hfit f hget
  have ht := h.took hl
  rcases ht.lands h.inv h.root h.top hva with ⟨-, hlarge | ⟨hpres, hnil⟩⟩ | ⟨own', pt, hland⟩
  · exact absurd ((h.large _).mp hlarge) hplain
  · -- Without a page table and without a frame for one the page does not fit.
    have hnot : ¬ (pdIdx va ∈ kernelPages ∨ pdIdx va ∈ done.map pdIdx) := by
      rw [← h.present, hpres]
      decide
    exact absurd hnil (hroom.mpr (hspace.resolve_left fun hc => hnot (Or.inr hc)))
  have hfree : v₀.used f = false := by
    cases hu : v₀.used f with
    | false => rfl
    | true => exact absurd (h.old hu) (by simp [ht.not_used])
  have hkeep {p path d} (hp : own p = some (.table dir path)) (hlen : path.length = 3)
      (hpres : (v.mem p d).present = true) :
      (mapPage (takeZeroed v f) dir va (PTE.userRW f)).mem p d = v.mem p d := by
    apply hland.old hp hlen
    rintro ⟨rfl, rfl⟩
    obtain ⟨-, va', hva', hpath, hidx⟩ := h.pages hp hlen hpres
    have htab := hland.table
    rw [hland.grow.tables hp] at htab
    cases htab
    exact hnew va' hva' ⟨hpath.symm, hidx.symm⟩
  refine ⟨own', h.base, hland.inv, hland.grow.tables h.root, hland.grow.tables h.top,
    fun hu => hland.used (Or.inl (h.old hu)), ?_, ?_, ?_, ?_, hland.cow.trans h.cow, ?_, ?_, ?_, ?_,
    ?_⟩
  · intro g path hg
    cases hu : v₀.used g with
    | false => rfl
    | true =>
        have hrange := hland.inv.range hg
        rw [hland.kept (h.old hu) hrange.1 hrange.2.1] at hg
        rw [h.fresh hg] at hu
        cases hu
  · intro p path d hp hlen hpres
    rcases hland.maps hlen hp hpres with ⟨hp', he⟩ | ⟨-, hpath, hidx, he⟩
    · rw [he] at hpres ⊢
      obtain ⟨hu, va', hva', hrest⟩ := h.pages hp' hlen hpres
      exact ⟨hu, va', List.mem_append_left _ hva', hrest⟩
    · rw [he]
      exact ⟨hfree, va, by simp, hpath.symm, hidx.symm⟩
  · intro va' hva'
    rcases List.mem_append.mp hva' with hva' | hva'
    · obtain ⟨p, hp, hpres⟩ := h.mapped va' hva'
      exact ⟨p, hland.grow.tables hp, by rw [hkeep hp rfl hpres]; exact hpres⟩
    · obtain rfl := List.mem_singleton.mp hva'
      exact ⟨pt, hland.table, by rw [hland.entry]; rfl⟩
  · intro g hg
    have hpath := hva.path
    rcases hland.taken hg with hold | rfl | htab
    · refine (h.found hold).imp_right ?_
      rintro (⟨path, ho, hpath⟩ | ⟨p, i, d, hp, hpres, hframe, hlow, hzero⟩)
      · exact Or.inl ⟨path, hland.grow.tables ho, hpath⟩
      · have he := hkeep hp rfl hpres
        exact Or.inr ⟨p, i, d, hland.grow.tables hp, by rwa [he], by rwa [he], hlow,
          hland.cow ▸ hzero⟩
    · right
      right
      refine ⟨pt, pdIdx va, ptIdx va, hpath ▸ hland.table, ?_, ?_, ht.held.low, ?_⟩
      · rw [hland.entry]
        rfl
      · rw [hland.entry]
        rfl
      · rw [hland.cow, h.cow]
        exact hcow
    · exact Or.inr (Or.inl ⟨_, htab, Or.inr ⟨pdIdx va, hpath⟩⟩)
  · intro k
    rw [hland.pdPresent, h.present, List.map_append, List.mem_append, List.map_singleton,
      List.mem_singleton, or_assoc]
  · intro k
    rw [hland.pdLarge, h.large]
  · rw [hland.list, cost_append]
    by_cases hk : pdIdx va ∈ done.map pdIdx
    · rw [if_pos ((h.present _).mpr (Or.inr hk)), if_pos hk]
      exact hfs
    · rw [if_neg fun hc => ((h.present _).mp hc).elim hplain hk, if_neg hk, hfs, List.tail_drop]
      rfl
  · intro q r path hq
    obtain ⟨ho, hne, hmem⟩ := h.others hq
    refine ⟨hland.grow.tables ho, hne, ?_⟩
    rw [hland.others (h.inv.not_free ho), hmem]
    intro path' hc
    rw [ho] at hc
    cases hc
    exact hne rfl
  · intro q hq
    have hlow : q < reservedFrames := Nat.lt_of_le_of_lt hq.2 (by decide)
    rw [hland.others, h.boot hq]
    · exact fun hc => absurd (mem_freeFrames.mp hc).1.1 (Nat.not_le.mpr hlow)
    · exact fun path hc => absurd (h.inv.range hc).1 (Nat.not_le.mpr hlow)

/-- A frame that was taken since the call began. -/
theorem Tidy.free_before (h : Tidy v₀ own₀ v own dir pd done) (hf : v.used f = false) :
    v₀.used f = false := by
  cases hu : v₀.used f with
  | false => rfl
  | true => exact (h.old hu).symm.trans hf

/-- The frame of a page outside user space is not found. -/
theorem Loads.lost_outside (hl : Loads v own v' own' dir va f) (hf : f ∈ freeFrames v)
    (hva : ¬ UserVa va) : Lost v' own' dir f := by
  obtain ⟨⟨hlow, hhigh⟩, -⟩ := mem_freeFrames.mp hf
  refine ⟨hlow, hhigh, hl.used (Or.inr rfl), ?_⟩
  rintro (⟨path, ho, -⟩ | ⟨p, i, d, hp, hpres, hframe, -, -⟩)
  · rcases hl.self with hs | hs
    · rw [hs] at ho
      cases ho
    · rw [hs] at ho
      cases ho
  · have hpage := hl.inv.page_of_entry hp rfl hpres hframe hlow
    rcases hl.self with hs | hs
    · rw [hs] at hpage
      cases hpage
    · rw [hs] at hpage
      simp only [vaPath, Option.some.injEq, Owner.page.injEq, List.cons.injEq] at hpage
      exact hva ⟨hpage.1.1, hpage.1.2.1⟩

/-- The page that was at the address before is not found any more. -/
theorem Lands.lost_behind (hl : Lands v own v' own' dir pd va f fs pt) (h : Inv v own)
    (hf : v.used f = false) {p : Nat} (hp : own p = some (.table dir (vaPath va)))
    (hpres : (v.mem p (ptIdx va)).present = true)
    (hlow : reservedFrames ≤ (v.mem p (ptIdx va)).frame) :
    Lost v' own' dir (v.mem p (ptIdx va)).frame := by
  have hpage := h.page_of_entry hp rfl hpres rfl hlow
  have hrange := h.range hpage
  have hkept := hl.kept hrange.2.2 hlow hrange.2.1
  rw [hpage] at hkept
  refine ⟨hlow, hrange.2.1, hl.used (Or.inl hrange.2.2), ?_⟩
  rintro (⟨path, ho, -⟩ | ⟨q, i, d, hq, hpres', hframe, -, -⟩)
  · rw [hkept] at ho
    cases ho
  · have hpage' := hl.inv.page_of_entry hq rfl hpres' hframe hlow
    rw [hkept] at hpage'
    simp only [Option.some.injEq, Owner.page.injEq] at hpage'
    obtain ⟨hpath, rfl⟩ := hpage'
    rw [← hpath] at hq
    obtain rfl := hl.inv.table_unique hq hl.table
    rw [hl.entry] at hframe
    have hused := hrange.2.2
    rw [← hframe, show (PTE.userRW f).frame = f from rfl, hf] at hused
    cases hused

/-- A page that does not fit costs a frame. -/
theorem Tidy.load_misfit (h : Tidy v₀ own₀ v own dir pd done) (hl : freeList v = f :: fs)
    (hmisfit : ¬ Fits v₀ done va) :
    ∃ own' g, Inv (mapPage (takeZeroed v f) dir va (PTE.userRW f)) own' ∧ IsRoot own' dir ∧
      Lost (mapPage (takeZeroed v f) dir va (PTE.userRW f)) own' dir g ∧ v₀.used g = false := by
  obtain ⟨hget, -, hroom⟩ := h.next hl
  have ht := h.took hl
  have hf₀ : v₀.used f = false := h.free_before ht.not_used
  by_cases hva : UserVa va
  · rcases ht.lands h.inv h.root h.top hva with ⟨heq, -⟩ | ⟨own', pt, hland⟩
    · rw [heq]
      exact ⟨own, f, ht.inv, h.root, ht.inv.lost_of_held ht.held dir, hf₀⟩
    · have hroot := hland.grow.tables h.root
      by_cases hcow : v₀.cow f = 0
      · -- The page lies where another one was.
        have hplain : pdIdx va ∉ kernelPages := by
          intro hc
          have hlarge := (h.large _).mpr hc
          rw [hland.plain] at hlarge
          cases hlarge
        have hspace : pdIdx va ∈ done.map pdIdx ∨ 3 + cost done + 1 < (freeList v₀).length :=
          hland.room.imp (fun hp => ((h.present _).mp hp).resolve_left hplain) hroom.mp
        have hagain : ¬ ∀ va' ∈ done, ¬ SamePage va' va := by
          intro hnew
          refine hmisfit fun f' hf' => ?_
          rw [hget] at hf'
          cases hf'
          exact ⟨hva, hplain, hnew, hcow, hspace⟩
        simp only [not_forall, not_not] at hagain
        obtain ⟨va', hva', hpath, hidx⟩ := hagain
        obtain ⟨p, hp, hpres⟩ := h.mapped va' hva'
        rw [← hpath] at hp
        rw [← hidx] at hpres
        have hu := (h.pages hp rfl hpres).1
        have hlow : reservedFrames ≤ (v.mem p (ptIdx va)).frame := by
          by_contra hc
          exact absurd (h.base.reserved _ (Nat.lt_of_not_le hc)) (by simp [hu])
        exact ⟨own', _, hland.inv, hroot, hland.lost_behind h.inv ht.not_used hp hpres hlow, hu⟩
      · -- The counter is not zero.
        refine ⟨own', f, hland.inv, hroot, ⟨ht.held.low, ht.held.high, hland.used (Or.inr rfl), ?_⟩,
          hf₀⟩
        rintro (⟨path, ho, -⟩ | ⟨-, -, -, -, -, -, -, hzero⟩)
        · rw [hland.page] at ho
          cases ho
        · rw [hland.cow, h.cow] at hzero
          exact hcow hzero
  · obtain ⟨own', hload⟩ := ht.loads h.root va
    exact ⟨own', f, hload.inv, hload.grow.tables h.root, hload.lost_outside ht.mem_free hva, hf₀⟩

/-! ## The page loop of the loader -/

theorem elfPages_nil {entry : Nat} (hl : freeList v = []) :
    elfPages v dir entry (va :: rest) = (v, 0) := by
  rw [elfPages, allocFrame_nil hl]
  rfl

theorem elfPages_cons {entry : Nat} (hl : freeList v = f :: fs) :
    elfPages v dir entry (va :: rest) =
      elfPages (mapPage (takeZeroed v f) dir va (PTE.userRW f)) dir entry rest := by
  have hf := freeList_ne_zero hl
  rw [elfPages, allocFrame_cons hl]
  dsimp only
  rw [if_neg hf]
  rfl

/-- Each page of the list fits behind the pages before it. -/
def AllFit (v : Vm) (done pages : List Nat) : Prop :=
  ∀ before va after, pages = before ++ va :: after → Fits v (done ++ before) va

theorem allFit_nil (v : Vm) (done : List Nat) : AllFit v done [] := by
  intro before va after h
  simp at h

theorem allFit_cons :
    AllFit v done (va :: rest) ↔ Fits v done va ∧ AllFit v (done ++ [va]) rest := by
  constructor
  · intro h
    refine ⟨by simpa using h [] va rest rfl, fun before va' after hrest => ?_⟩
    simpa using h (va :: before) va' after (by simp [hrest])
  · rintro ⟨hfirst, hrest⟩ before va' after h
    cases before with
    | nil =>
        simp only [List.nil_append, List.cons.injEq] at h
        obtain ⟨rfl, -⟩ := h
        simpa using hfirst
    | cons b before =>
        simp only [List.cons_append, List.cons.injEq] at h
        obtain ⟨rfl, h⟩ := h
        simpa using hrest before va' after h

/-- Without frames every page fits, since none is loaded. -/
theorem Fits.of_short (h : (freeList v).length ≤ 3 + cost done) : Fits v done va := by
  intro f hf
  rw [List.getElem?_eq_none h] at hf
  cases hf

theorem cost_mono (done before : List Nat) : cost done ≤ cost (done ++ before) := by
  rw [cost, cost, List.map_append, List.toFinset_append, List.length_append]
  exact Nat.add_le_add (Nat.le_add_right _ _) (Finset.card_le_card Finset.subset_union_left)

/-- If all pages fit, the teardown finds everything. -/
theorem Tidy.loadAll (h : Tidy v₀ own₀ v own dir pd done) (entry : Nat)
    (hfit : AllFit v₀ done rest) :
    ∃ own' done', Tidy v₀ own₀ (elfPages v dir entry rest).1 own' dir pd done' := by
  induction rest generalizing v own done with
  | nil => exact ⟨own, done, h⟩
  | cons va rest ih =>
      cases hl : freeList v with
      | nil =>
          rw [elfPages_nil hl]
          exact ⟨own, done, h⟩
      | cons f fs =>
          obtain ⟨hfirst, hrest⟩ := allFit_cons.mp hfit
          obtain ⟨own', hnext⟩ := h.load_fits hl hfirst
          rw [elfPages_cons hl]
          exact ih hnext hrest

/-- What is lost stays lost. -/
theorem Lost.loadAll (h : Lost v own dir g) (hinv : Inv v own) (hr : IsRoot own dir) (entry : Nat) :
    ∃ own', Inv (elfPages v dir entry rest).1 own' ∧ IsRoot own' dir ∧
      Lost (elfPages v dir entry rest).1 own' dir g := by
  induction rest generalizing v own with
  | nil => exact ⟨own, hinv, hr, h⟩
  | cons va rest ih =>
      cases hl : freeList v with
      | nil =>
          rw [elfPages_nil hl]
          exact ⟨own, hinv, hr, h⟩
      | cons f fs =>
          have ht := hinv.tookFirst_zeroed hl
          obtain ⟨own', hload⟩ := ht.loads hr va
          rw [elfPages_cons hl]
          exact ih (h.loads hload ht.not_used) hload.inv (hload.grow.tables hr)

/-- If a page does not fit, a frame is lost. -/
theorem Tidy.loadAll_misfit (h : Tidy v₀ own₀ v own dir pd done) (entry : Nat)
    (hmisfit : ¬ AllFit v₀ done rest) :
    ∃ own' g, Inv (elfPages v dir entry rest).1 own' ∧ IsRoot own' dir ∧
      Lost (elfPages v dir entry rest).1 own' dir g ∧ v₀.used g = false := by
  induction rest generalizing v own done with
  | nil => exact absurd (allFit_nil v₀ done) hmisfit
  | cons va rest ih =>
      cases hl : freeList v with
      | nil =>
          refine absurd (fun before va' after _ => Fits.of_short ?_) hmisfit
          have hlist := h.list
          rw [hl, eq_comm, List.drop_eq_nil_iff] at hlist
          exact hlist.trans (Nat.add_le_add_left (cost_mono done before) 3)
      | cons f fs =>
          rw [elfPages_cons hl]
          by_cases hfirst : Fits v₀ done va
          · obtain ⟨own', hnext⟩ := h.load_fits hl hfirst
            exact ih hnext fun hrest => hmisfit (allFit_cons.mpr ⟨hfirst, hrest⟩)
          · obtain ⟨own', g, hinv, hr, hlost, hg⟩ := h.load_misfit hl hfirst
            obtain ⟨own'', hinv', hr', hlost'⟩ := hlost.loadAll hinv hr entry
            exact ⟨own'', g, hinv', hr', hlost', hg⟩

end Load

/-! ## Before and after -/

/-- The free frames and the translations of the address spaces of `own₀` are as they were, with the
bits of their entries. -/
structure Intact (v₀ : Vm) (own₀ : Owners) (v : Vm) : Prop where
  free : freeFrames v = freeFrames v₀
  phys : ∀ {r}, IsRoot own₀ r → ∀ va, getPhys v r va = getPhys v₀ r va
  leaf : ∀ {r}, IsRoot own₀ r → ∀ va, leafOf v r va = leafOf v₀ r va

theorem freeFrames_congr (h : ∀ f, v.used f = true ↔ v₀.used f = true) :
    freeFrames v = freeFrames v₀ := by
  ext f
  rw [mem_freeFrames, mem_freeFrames, ← Bool.not_eq_true, ← Bool.not_eq_true, h]

/-- A frame that stays in use is missed. -/
theorem Intact.not_used (h : Intact v₀ own₀ v) (hlow : reservedFrames ≤ f) (hhigh : f < totalFrames)
    (hf : v₀.used f = false) : v.used f = false := by
  have hmem : f ∈ freeFrames v := h.free ▸ mem_freeFrames.mpr ⟨⟨hlow, hhigh⟩, hf⟩
  exact (mem_freeFrames.mp hmem).2

/-- The tables are as they were. -/
theorem Inv.intact (h : Inv v₀ own₀) (hused : ∀ f, v.used f = true ↔ v₀.used f = true)
    (hmem : ∀ {r p path}, own₀ p = some (.table r path) → v.mem p = v₀.mem p)
    (hboot : ∀ {p}, IsBootPd p → v.mem p = v₀.mem p) : Intact v₀ own₀ v :=
  ⟨freeFrames_congr hused, fun hr va => h.getPhys_congr hr hmem hboot va,
    fun hr va => h.leafOf_congr hr hmem hboot va⟩

theorem Unchanged.intact (h : Unchanged v₀ v) (h₀ : Inv v₀ own₀) : Intact v₀ own₀ v := by
  refine h₀.intact (by simp [h.used]) (fun hp => h.mem _ (h₀.not_free hp)) fun {p} hp => ?_
  refine h.mem p fun hc => absurd (mem_freeFrames.mp hc).1.1 (Nat.not_le.mpr ?_)
  exact Nat.lt_of_le_of_lt hp.2 (by decide)

/-- Tearing down gives everything back. -/
theorem Tidy.intact {done : List Nat} (h : Tidy v₀ own₀ v own dir pd done) :
    Intact v₀ own₀ (freeUserMemory v dir) := by
  obtain ⟨own', hstage⟩ := freeUserMemory_stage h.inv h.root
  refine h.base.intact (fun f => ?_) (fun hp => ?_) fun hp => ?_
  · rw [freeUserMemory_used h.inv h.root]
    constructor
    · rintro ⟨hused, hmissed⟩
      exact (h.found hused).resolve_right hmissed
    · refine fun hu => ⟨h.old hu, ?_⟩
      rintro (⟨path, ho, -⟩ | ⟨p, i, d, hp, hpres, hframe, -, -⟩)
      · exact absurd hu (by simp [h.fresh ho])
      · have hnew := (h.pages hp rfl hpres).1
        rw [hframe, hu] at hnew
        cases hnew
  · rw [hstage.mem, (h.others hp).2.2]
  · rw [hstage.mem, h.boot hp]

/-- `vmm_create_page_dir` takes the first three frames. -/
theorem createPageDir_list {a b c : Nat} {fs : List Nat} (hl : freeList v = a :: b :: c :: fs) :
    createPageDir v = (fillPageDir (takeZeroed (takeZeroed (takeZeroed v a) b) c) a b c, a) ∧
      freeList (takeZeroed (takeZeroed (takeZeroed v a) b) c) = fs := by
  have hb : freeList (takeZeroed v a) = b :: c :: fs := freeList_taken hl rfl
  have hc : freeList (takeZeroed (takeZeroed v a) b) = c :: fs := freeList_taken hb rfl
  refine ⟨?_, freeList_taken hc rfl⟩
  unfold createPageDir
  rw [allocFrame_cons hl]
  dsimp only
  rw [if_neg (freeList_ne_zero hl), ← takeZeroed, allocFrame_cons hb]
  dsimp only
  rw [if_neg (freeList_ne_zero hb), ← takeZeroed, allocFrame_cons hc]
  dsimp only
  rw [if_neg (freeList_ne_zero hc), ← takeZeroed]

/-- With fewer frames it fails. -/
theorem createPageDir_short (hl : (freeList v).length < 3) :
    (createPageDir v).2 = 0 ∧ Unchanged v (createPageDir v).1 := by
  rcases createPageDir_cases v with hfail | ⟨a, b, c, ha, hb, hc, hab, hac, hbc, -, -⟩
  · exact hfail
  · have hsub : ({a, b, c} : Finset Nat) ⊆ freeFrames v := by
      intro f hf
      simp only [Finset.mem_insert, Finset.mem_singleton] at hf
      rcases hf with rfl | rfl | rfl <;> assumption
    have hcard := Finset.card_le_card hsub
    rw [Finset.card_eq_three.mpr ⟨a, b, c, hab, hac, hbc, rfl⟩, ← length_freeList] at hcard
    omega

/-- A new address space owes its three tables. -/
theorem tidy_created (h₀ : Inv v₀ own₀) {a b c : Nat} {fs : List Nat}
    (hl : freeList v₀ = a :: b :: c :: fs) :
    Tidy v₀ own₀ (createPageDir v₀).1 (addSpace own₀ a b c) a c [] := by
  have hmem {f : Nat} (hf : f ∈ a :: b :: c :: fs) : f ∈ freeFrames v₀ := mem_freeList.mp (hl ▸ hf)
  have hnodup : (a :: b :: c :: fs).Nodup := hl ▸ nodup_freeList v₀
  simp only [List.nodup_cons, List.mem_cons, not_or] at hnodup
  obtain ⟨⟨hab, hac, -⟩, ⟨hbc, -⟩, -⟩ := hnodup
  have ha : a ∈ freeFrames v₀ := hmem (by simp)
  have hb : b ∈ freeFrames v₀ := hmem (by simp)
  have hc : c ∈ freeFrames v₀ := hmem (by simp)
  obtain ⟨heq, hrest⟩ := createPageDir_list hl
  have hmade := fill_created h₀ ha hb hc hab hac hbc
  rw [heq]
  have hw (q k : Nat) : (takeZeroed (takeZeroed (takeZeroed v₀ a) b) c).mem q k =
      if q = a ∨ q = b ∨ q = c then PTE.zero else v₀.mem q k := by
    simp only [takeZeroed, zeroFrame_mem]
    split_ifs <;> simp_all
  have hwused {g : Nat} (hg : v₀.used g = true) :
      (takeZeroed (takeZeroed (takeZeroed v₀ a) b) c).used g = true := by
    simp [takeZeroed, zeroFrame, Function.update_apply, hg]
  generalize takeZeroed (takeZeroed (takeZeroed v₀ a) b) c = u at *
  have hfill : Filled u (fillPageDir u a b c) a b c := by
    apply fillPageDir_filled (Ne.intro hab) (Ne.intro hac) (Ne.intro hbc)
    · intro q k
      by_cases hq : q = a ∨ q = b ∨ q = c
      · simp only [hw, hq, if_true]
      · simp only [hq, if_false]
    · rfl
    · rfl
    · rfl
  have hpd (k : Nat) := fillPageDir_pd (Ne.symm hac) (Ne.symm hbc) u (fun k => by simp [hw]) k
  -- No table was there before.
  have hnot {q : Nat} {path : List Nat} : own₀ q ≠ some (.table a path) := by
    intro hq
    have hroot := h₀.rooted hq
    rw [h₀.unowned_of_free ha] at hroot
    cases hroot
  have hthree {q : Nat} {path : List Nat} (hq : addSpace own₀ a b c q = some (.table a path)) :
      path ∈ [[], [0], [0, 0]] :=
    (hmade.tables hq).elim (fun ho => absurd ho hnot) And.right
  refine ⟨h₀, hmade.inv, hmade.root, by simp [addSpace, addTable], ?_, ?_, ?_, by simp, ?_,
    hmade.cow, ?_, ?_, ?_, ?_, ?_⟩
  · intro g hg
    rw [hfill.used]
    exact hwused hg
  · intro q path hq
    by_cases hnew : q = a ∨ q = b ∨ q = c
    · rcases hnew with rfl | rfl | rfl
      · exact (mem_freeFrames.mp ha).2
      · exact (mem_freeFrames.mp hb).2
      · exact (mem_freeFrames.mp hc).2
    · simp only [not_or] at hnew
      simp only [addSpace, addTable, Function.update_of_ne hnew.1, Function.update_of_ne hnew.2.1,
        Function.update_of_ne hnew.2.2] at hq
      exact absurd hq hnot
  · intro p path d hp hlen
    have := hthree hp
    simp only [List.mem_cons, List.not_mem_nil, or_false] at this
    rcases this with rfl | rfl | rfl <;> cases hlen
  · intro g hg
    rcases hmade.taken hg with hold | ⟨path, ho⟩
    · exact Or.inl hold
    · exact Or.inr (Or.inl ⟨path, ho, Or.inl (hthree ho)⟩)
  · intro k
    rw [hpd, mem_kernelPages]
    split_ifs with h₃₂ h₀
    · simp [h₃₂, PTE.kernelLarge]
    · simp [h₀, PTE.userLarge]
    · simp [h₃₂, h₀, PTE.zero]
  · intro k
    rw [hpd, mem_kernelPages]
    split_ifs with h₃₂ h₀
    · simp [h₃₂, PTE.kernelLarge]
    · simp [h₀, PTE.userLarge]
    · simp [h₃₂, h₀, PTE.zero]
  · rw [freeList_congr hfill.used, hrest, hl]
    rfl
  · intro q r path hq
    obtain ⟨ho, he⟩ := hmade.keep hq
    refine ⟨ho, ?_, he⟩
    rintro rfl
    exact hnot hq
  · intro q hq
    have hne {g : Nat} (hg : g ∈ freeFrames v₀) : q ≠ g := by
      rintro rfl
      exact free_not_boot hg hq
    funext k
    rw [hfill.other q (hne ha) (hne hb) (hne hc), hw,
      if_neg (by simp [hne ha, hne hb, hne hc])]

theorem exists_three {l : List Nat} (h : 3 ≤ l.length) : ∃ a b c fs, l = a :: b :: c :: fs := by
  match l, h with
  | a :: b :: c :: fs, _ => exact ⟨a, b, c, fs, rfl⟩

/-- Loading an image into a new address space and tearing it down leaves everything as it was if
and only if its pages fit. -/
theorem load_intact_iff (h₀ : Inv v₀ own₀) (hl : 3 ≤ (freeList v₀).length) (img : Image) :
    Intact v₀ own₀ (freeUserMemory
      (elfLoad (createPageDir v₀).1 (createPageDir v₀).2 img).1 (createPageDir v₀).2) ↔
      AllFit v₀ [] img.pages := by
  obtain ⟨a, b, c, fs, hl⟩ := exists_three hl
  have hstart := tidy_created h₀ hl
  rw [(congrArg Prod.snd (createPageDir_list hl).1 : (createPageDir v₀).2 = a)]
  constructor
  · intro hintact
    by_contra hmisfit
    obtain ⟨own', g, hinv, hr, hlost, hg⟩ := hstart.loadAll_misfit img.entry hmisfit
    have hleak := hlost.leaks hinv hr
    rw [show elfPages _ a img.entry img.pages = elfLoad _ a img from rfl,
      hintact.not_used hlost.low hlost.high hg] at hleak
    cases hleak
  · intro hfit
    obtain ⟨own', done, hend⟩ := hstart.loadAll img.entry hfit
    exact hend.intact

/-! ## Taking a fork back -/

/-- What `vmm_copy_cow` makes of an entry of the parent. -/
def marked (e : PTE) : PTE := if e.frame < reservedFrames then e else PTE.userCOW e.frame

theorem marked_marked (e : PTE) : marked (marked e) = marked e := by
  unfold marked
  by_cases hlow : e.frame < reservedFrames
  · simp only [if_pos hlow]
  · simp only [if_neg hlow, PTE.userCOW]

/-- The parent's entry for the page is marked. -/
def Marked (v : Vm) (parent va : Nat) : Prop := (leafOf v parent va).map marked = leafOf v parent va

/-- A point of `vmm_copy_cow`, seen from the frames: what has been taken since `v₀` are tables of
the child, and the pages of the child are counted. -/
structure Copying (v₀ : Vm) (own₀ : Owners) (v : Vm) (own : Owners) (parent child : Nat) :
    Prop where
  base : Inv v₀ own₀
  inv : Inv v own
  root : IsRoot own child
  old : ∀ {f}, v₀.used f = true → v.used f = true
  fresh : ∀ {f path}, own f = some (.table child path) → v₀.used f = false
  found : ∀ {f}, v.used f = true →
    v₀.used f = true ∨ ∃ path, own f = some (.table child path) ∧ UserPath path
  counted : ∀ {p i d}, own p = some (.table child [0, 0, i]) → (v.mem p d).present = true →
    0 < v.cow (v.mem p d).frame
  others : ∀ {q r path}, own₀ q = some (.table r path) → own q = some (.table r path) ∧ r ≠ child
  phys : ∀ {r}, IsRoot own₀ r → ∀ va, getPhys v r va = getPhys v₀ r va
  leaf : ∀ {r}, IsRoot own₀ r → ∀ va, leafOf v r va = leafOf v₀ r va ∨
    r = parent ∧ UserVa va ∧ leafOf v r va = (leafOf v₀ r va).map marked

section Copy
variable {parent child : Nat}

/-- A page table of the child is added. -/
theorem Copying.addTable (h : Copying v₀ own₀ v own parent child) {pd : Nat}
    (hpd : own pd = some (.table child [0, 0])) (hg : g ∈ freeFrames v)
    (hgrown : Grown v own (Tree.addPt v g pd i) (addTable own g child [0, 0, i])) :
    Copying v₀ own₀ (Tree.addPt v g pd i) (addTable own g child [0, 0, i]) parent child := by
  have hfree := (mem_freeFrames.mp hg).2
  have hused {f : Nat} : (Tree.addPt v g pd i).used f = true ↔ v.used f = true ∨ f = g := by
    change Function.update v.used g true f = true ↔ _
    by_cases hf : f = g
    · simp [hf]
    · simp [hf]
  have hne {f : Nat} {o : Owner} (hf : own f = some o) : f ≠ g := by
    rintro rfl
    exact h.inv.not_free hf hg
  have hself : Vmm.addTable own g child [0, 0, i] g = some (.table child [0, 0, i]) := by
    simp [Vmm.addTable]
  have hpg : pd ≠ g := hne hpd
  refine ⟨h.base, hgrown.inv, hgrown.grow.tables h.root, fun hf => hused.mpr (Or.inl (h.old hf)),
    ?_, ?_, ?_, fun hq => ⟨hgrown.grow.tables (h.others hq).1, (h.others hq).2⟩, ?_, ?_⟩
  · intro f path hf
    by_cases hfg : f = g
    · subst hfg
      cases hu : v₀.used f with
      | false => rfl
      | true => exact (h.old hu).symm.trans hfree
    · rw [addTable_of_ne hfg] at hf
      exact h.fresh hf
  · intro f hf
    rcases hused.mp hf with hf | rfl
    · rcases h.found hf with hold | ⟨path, ho, hpath⟩
      · exact Or.inl hold
      · exact Or.inr ⟨path, hgrown.grow.tables ho, hpath⟩
    · exact Or.inr ⟨_, hself, Or.inr ⟨i, rfl⟩⟩
  · intro p i' d hp hpres
    rw [Tree.addPt_mem] at hpres ⊢
    by_cases hpg' : p = g
    · rw [if_neg (fun hc => hpg (hc.1.symm.trans hpg')), if_pos hpg'] at hpres
      cases hpres
    · rw [addTable_of_ne hpg'] at hp
      have hppd : ¬ (p = pd ∧ d = i) := by
        rintro ⟨rfl, -⟩
        rw [hpd] at hp
        cases hp
      rw [if_neg hppd, if_neg hpg'] at hpres ⊢
      exact h.counted hp hpres
  · intro r hr va
    obtain ⟨hr', hrc⟩ := h.others hr
    rw [h.inv.getPhys_congr hr' (fun {p _} hp => ?_) (fun hp => ?_), h.phys hr]
    · funext k
      have hppd : ¬ (p = pd ∧ k = i) := by
        rintro ⟨rfl, -⟩
        rw [hpd] at hp
        cases hp
        exact hrc rfl
      rw [Tree.addPt_mem, if_neg hppd, if_neg (hne hp)]
    · funext k
      have hlow := Nat.lt_of_le_of_lt hp.2 (show 6 < reservedFrames by decide)
      rw [Tree.addPt_mem, if_neg, if_neg]
      · rintro rfl
        exact absurd (mem_freeFrames.mp hg).1.1 (Nat.not_le.mpr hlow)
      · rintro ⟨rfl, -⟩
        exact absurd (h.inv.range hpd).1 (Nat.not_le.mpr hlow)
  · intro r hr va
    rw [hgrown.leafOf h.inv (h.others hr).1]
    exact h.leaf hr va

/-- The counter of a page goes up. -/
theorem Copying.bump (h : Copying v₀ own₀ v own parent child) (hroots : RootsIn own roots)
    (hcard : roots.card ≤ 254) (f : Nat) : Copying v₀ own₀ (bumpCow v f) own parent child :=
  { h with
    inv := (h.inv.bump hroots hcard f).1
    counted := fun hp hpres => (h.counted hp hpres).trans_le (bumpCow_ge h.inv.byte f _) }

/-- The child gets a page of its parent, with the counter up. -/
theorem Copying.share (h : Copying v₀ own₀ v own parent child) (hroots : RootsIn own roots)
    (hcard : roots.card ≤ 254) {p : Nat} (hp : own p = some (.table child [0, 0, i]))
    (hj : j < 512) (hf : own f = some (.page [0, 0, i] j)) :
    Copying v₀ own₀ (bumpCow (setEntry v p j (PTE.userCOW f)) f) own parent child := by
  obtain ⟨hbump, hcover⟩ := h.inv.bump hroots hcard f
  have hbumped := h.bump hroots hcard f
  rw [bumpCow_setEntry]
  have hinv : Inv (setEntry (bumpCow v f) p j (PTE.userCOW f)) own :=
    hbump.setLeaf hp rfl fun _ => Or.inr ⟨hf, fun _ => (Finset.card_insert_le _ _).trans (hcover hf)⟩
  refine { h with inv := hinv, counted := ?_, phys := ?_, leaf := ?_ }
  · intro q i' d hq hpres
    by_cases hat : q = p ∧ d = j
    · obtain ⟨rfl, rfl⟩ := hat
      rw [setEntry_same]
      exact Nat.lt_of_lt_of_le (by decide) (bumpCow_self_ge v f)
    · rw [setEntry_other hat] at hpres ⊢
      exact hbumped.counted hq hpres
  · intro r hr va
    obtain ⟨hr', hne⟩ := h.others hr
    rw [hbump.getPhys_setEntry hp rfl hr', if_neg fun hc => hne hc.1]
    exact h.phys hr va
  · intro r hr va
    obtain ⟨hr', hne⟩ := h.others hr
    rw [hbump.leafOf_setEntry hp rfl hr', if_neg fun hc => hne hc.1, bumpCow_leafOf]
    exact h.leaf hr va

/-- The parent keeps the frame, read only. -/
theorem Copying.mark (h : Copying v₀ own₀ v own parent child)
    (hpt : own pt = some (.table parent [0, 0, i])) (hne : parent ≠ child)
    (hpres : (v.mem pt j).present = true) (hlow : ¬ (v.mem pt j).frame < reservedFrames) :
    Copying v₀ own₀ (setEntry v pt j (PTE.userCOW (v.mem pt j).frame)) own parent child ∧
      ∀ va, Marked v parent va ∨ (vaPath va = [0, 0, i] ∧ ptIdx va = j) →
        Marked (setEntry v pt j (PTE.userCOW (v.mem pt j).frame)) parent va := by
  have hroot := h.inv.rooted hpt
  have hself : marked (v.mem pt j) = PTE.userCOW (v.mem pt j).frame := if_neg hlow
  have hentry {va : Nat} (hat : vaPath va = [0, 0, i] ∧ ptIdx va = j) :
      leafOf v parent va = some (v.mem pt j) := by
    obtain ⟨hpath, rfl⟩ := hat
    rw [h.inv.leafOf_of_own (hpath ▸ hpt), if_pos hpres]
  refine ⟨{ h with inv := h.inv.reflag hpt rfl hpres rfl, counted := ?_, phys := ?_, leaf := ?_ },
    ?_⟩
  · intro q i' d hq hpres'
    have hat : ¬ (q = pt ∧ d = j) := by
      rintro ⟨rfl, -⟩
      rw [hpt] at hq
      cases hq
      exact hne rfl
    rw [setEntry_other hat] at hpres' ⊢
    exact h.counted hq hpres'
  · intro r hr va
    obtain ⟨hr', -⟩ := h.others hr
    rw [h.inv.getPhys_setEntry hpt rfl hr', ← h.phys hr]
    split
    · next hat =>
      obtain ⟨rfl, hpath, rfl⟩ := hat
      rw [h.inv.getPhys_of_entry (hpath ▸ hpt) hpres]
      rfl
    · rfl
  · intro r hr va
    obtain ⟨hr', -⟩ := h.others hr
    rw [h.inv.leafOf_setEntry hpt rfl hr']
    split
    · next hat =>
      obtain ⟨rfl, hat⟩ := hat
      have hva : UserVa va := by
        simp only [vaPath, List.cons.injEq, and_true] at hat
        exact ⟨hat.1.1, hat.1.2.1⟩
      have hnew : (leafOf v r va).map marked = some (PTE.userCOW (v.mem pt j).frame) := by
        rw [hentry hat, Option.map_some, hself]
      refine Or.inr ⟨rfl, hva, Eq.trans (by rfl) (hnew.symm.trans ?_)⟩
      rcases h.leaf hr va with hold | ⟨-, -, hold⟩
      · rw [hold]
      · rw [hold, Option.map_map]
        exact congrArg (fun f => (leafOf v₀ r va).map f) (funext marked_marked)
    · exact h.leaf hr va
  · intro va hva
    unfold Marked
    rw [h.inv.leafOf_setEntry hpt rfl hroot]
    by_cases hat : vaPath va = [0, 0, i] ∧ ptIdx va = j
    · rw [if_pos ⟨rfl, hat⟩]
      change (some (PTE.userCOW (v.mem pt j).frame)).map marked = some (PTE.userCOW (v.mem pt j).frame)
      rw [← hself, Option.map_some, marked_marked]
    · rw [if_neg fun hc => hat hc.2]
      exact hva.resolve_right hat

/-- The body of the inner loop of `vmm_copy_cow`. -/
theorem Copying.sharePage (h : Copying v₀ own₀ v own parent child) (hroots : RootsIn own roots)
    (hcard : roots.card ≤ 254) (hpt : own pt = some (.table parent [0, 0, i]))
    (hne : parent ≠ child) (hi : i < 512) (hj : j < 512) :
    ∃ own', Copying v₀ own₀ (Vmm.sharePage v child pt i j) own' parent child ∧ Grow own own' ∧
      ∀ va, Marked v parent va ∨ (vaPath va = [0, 0, i] ∧ ptIdx va = j) →
        Marked (Vmm.sharePage v child pt i j) parent va := by
  have hroot := h.inv.rooted hpt
  unfold Vmm.sharePage
  dsimp only
  split
  · next hskip =>
    refine ⟨own, h, Grow.refl own, fun va hva => hva.elim id ?_⟩
    rintro ⟨hpath, rfl⟩
    rw [Marked, h.inv.leafOf_of_own (hpath ▸ hpt)]
    split
    · next hpres =>
      rw [hpres, Bool.not_true, Bool.false_or, decide_eq_true_eq] at hskip
      rw [Option.map_some, marked, if_pos hskip]
    · rfl
  next hskip =>
  simp only [Bool.or_eq_true, Bool.not_eq_true', decide_eq_true_eq, not_or, Bool.not_eq_false]
    at hskip
  obtain ⟨hpres, hlow⟩ := hskip
  have hpage := (h.inv.leaf hpt rfl hpres).resolve_left hlow
  obtain ⟨h₁, hmarked⟩ := h.mark hpt hne hpres hlow
  generalize (v.mem pt j).frame = f at *
  rw [if_pos (h.inv.range hpage).2.1]
  obtain ⟨hpath, hidx⟩ := vaPath_of_indices hi hj
  obtain ⟨-, hpd⟩ := h₁.inv.first_tables h₁.root
  have hva : UserVa (i * 2 ^ 21 + j * 2 ^ 12) := by
    simp only [vaPath, List.cons.injEq, and_true] at hpath
    exact ⟨hpath.1, hpath.2.1⟩
  have hdir : pdIdx (i * 2 ^ 21 + j * 2 ^ 12) = i := by
    simp only [vaPath, List.cons.injEq, and_true] at hpath
    exact hpath.2.2
  rcases mapPage_outcomes h₁.inv h₁.root hpd hva (PTE.userCOW f) with
    ⟨heq, -⟩ | ⟨-, ⟨p, -, hp, heq⟩ | ⟨g, gs, -, hlist, hgrown, heq⟩⟩
  · rw [heq]
    refine ⟨own, h₁.bump hroots hcard f, Grow.refl own, fun va hva => ?_⟩
    rw [Marked, bumpCow_leafOf]
    exact hmarked va hva
  · rw [hpath] at hp
    rw [heq, hidx]
    refine ⟨own, h₁.share hroots hcard hp hj hpage, Grow.refl own, fun va hva => ?_⟩
    rw [Marked, bumpCow_leafOf, h₁.inv.leafOf_setEntry hp rfl hroot, if_neg fun hc => hne hc.1]
    exact hmarked va hva
  · rw [hpath, hdir] at hgrown
    have h₂ := h₁.addTable hpd (mem_freeList.mp (hlist ▸ List.mem_cons_self)) hgrown
    have hself : Vmm.addTable own g child [0, 0, i] g = some (.table child [0, 0, i]) := by
      simp [Vmm.addTable]
    rw [heq, hidx, hdir]
    refine ⟨_, h₂.share (hroots.of_grow hgrown.grow) hcard hself hj (hgrown.pages hpage),
      hgrown.grow, fun va hva => ?_⟩
    rw [Marked, bumpCow_leafOf, h₂.inv.leafOf_setEntry hself rfl (hgrown.grow.tables hroot),
      if_neg fun hc => hne hc.1, hgrown.leafOf h₁.inv hroot]
    exact hmarked va hva

/-- A loop whose body keeps a property and lets the ownership grow, and which settles something
with each item. -/
theorem foldl_settles {α : Type*} {P : Vm → Owners → Prop} {R : Nat → Vm → Prop}
    {S : α → Nat → Prop} {body : Vm → α → Vm} {l : List α}
    (hbody : ∀ {w o a}, a ∈ l → P w o → Grow own o → ∃ o', P (body w a) o' ∧ Grow o o' ∧
      ∀ x, R x w ∨ S a x → R x (body w a)) (h : P v own) :
    ∃ own', P (l.foldl body v) own' ∧ Grow own own' ∧
      ∀ x, (R x v ∨ ∃ a ∈ l, S a x) → R x (l.foldl body v) := by
  suffices hmain : ∀ {w : Vm} {o : Owners} (k : List α), (∀ a ∈ k, a ∈ l) → P w o →
      Grow own o → ∃ own', P (k.foldl body w) own' ∧ Grow own own' ∧
        ∀ x, (R x w ∨ ∃ a ∈ k, S a x) → R x (k.foldl body w) from
    hmain l (fun _ ha => ha) h (Grow.refl own)
  intro w o k
  induction k generalizing w o with
  | nil => exact fun _ hw hgrow => ⟨o, hw, hgrow, fun x hx => hx.elim id (by simp)⟩
  | cons a k ih =>
      intro hl hw hgrow
      obtain ⟨o', hw', hgrow', hset⟩ := hbody (hl a (by simp)) hw hgrow
      obtain ⟨own', hend, hgrown, hall⟩ :=
        ih (fun b hb => hl b (List.mem_cons_of_mem _ hb)) hw' (hgrow.trans hgrow')
      refine ⟨own', hend, hgrown, fun x hx => hall x ?_⟩
      rcases hx with hx | ⟨b, hb, hx⟩
      · exact Or.inl (hset x (Or.inl hx))
      · rcases List.mem_cons.mp hb with rfl | hb
        · exact Or.inl (hset x (Or.inr hx))
        · exact Or.inr ⟨b, hb, hx⟩

theorem Copying.shareTable (h : Copying v₀ own₀ v own parent child) (hroots : RootsIn own roots)
    (hcard : roots.card ≤ 254) {pd : Nat} (hpd : own pd = some (.table parent [0, 0]))
    (hne : parent ≠ child) (hi : i < 512) :
    ∃ own', Copying v₀ own₀ (Vmm.shareTable v child pd i) own' parent child ∧ Grow own own' ∧
      ∀ va, Marked v parent va ∨ vaPath va = [0, 0, i] →
        Marked (Vmm.shareTable v child pd i) parent va := by
  unfold Vmm.shareTable
  dsimp only
  split
  · next hskip =>
    refine ⟨own, h, Grow.refl own, fun va hva => hva.elim id fun hpath => ?_⟩
    rw [Marked, h.inv.leafOf_eq_none (h.inv.rooted hpd)]
    · rfl
    · intro p hp
      obtain ⟨hpres, -, hplain⟩ := h.inv.entry [0, 0] (hpath ▸ hp) hpd
      simp [hpres, hplain] at hskip
  next hskip =>
  simp only [Bool.or_eq_true, Bool.not_eq_true', not_or, Bool.not_eq_false,
    Bool.not_eq_true] at hskip
  have hpt : own (v.mem pd i).frame = some (.table parent [0, 0, i]) := by
    rcases h.inv.child hpd (by simp) hskip.1 hskip.2 with hp | ⟨-, hbad, -⟩
    · exact hp
    · cases hbad
  obtain ⟨own', hend, hgrow, hall⟩ :=
    foldl_settles (P := fun w o => Copying v₀ own₀ w o parent child)
      (R := fun va w => Marked w parent va)
      (S := fun j va => vaPath va = [0, 0, i] ∧ ptIdx va = j)
      (l := List.range 512) (fun {w o j} hj hw hgrow =>
        hw.sharePage (hroots.of_grow hgrow) hcard (hgrow.tables hpt) hne hi (List.mem_range.mp hj)) h
  refine ⟨own', hend, hgrow, fun va hva => hall va (hva.imp_right fun hpath => ?_)⟩
  exact ⟨ptIdx va, List.mem_range.mpr (Nat.mod_lt _ (by decide)), hpath, rfl⟩

theorem Copying.copyCow (h : Copying v₀ own₀ v own parent child) (hroots : RootsIn own roots)
    (hcard : roots.card ≤ 254) (hparent : IsRoot own parent) (hne : parent ≠ child) :
    ∃ own', Copying v₀ own₀ (Vmm.copyCow v parent child) own' parent child ∧
      ∀ va, UserVa va → Marked (Vmm.copyCow v parent child) parent va := by
  unfold Vmm.copyCow
  rw [if_neg (by simp [h.inv.root_pos hparent, h.inv.root_pos h.root])]
  obtain ⟨hpdpt, hpd⟩ := h.inv.first_tables hparent
  simp only [h.inv.spine (Or.inl hparent), h.inv.spine (Or.inr hpdpt), Bool.not_true,
    Bool.false_eq_true, if_false]
  obtain ⟨own', hend, -, hall⟩ :=
    foldl_settles (P := fun w o => Copying v₀ own₀ w o parent child)
      (R := fun va w => Marked w parent va) (S := fun i va => vaPath va = [0, 0, i])
      (l := List.range 512) (fun {w o i} hi hw hgrow =>
        hw.shareTable (hroots.of_grow hgrow) hcard (hgrow.tables hpd) hne (List.mem_range.mp hi)) h
  refine ⟨own', hend, fun va hva => hall va (Or.inr ⟨pdIdx va, ?_, hva.path⟩)⟩
  exact List.mem_range.mpr (Nat.mod_lt _ (by decide))

/-- The teardown of the child gives everything back, and leaves the marks. -/
theorem Copying.intact_iff (h : Copying v₀ own₀ v own parent child) (hr : IsRoot own₀ parent)
    (hmarked : ∀ va, UserVa va → Marked v parent va) :
    Intact v₀ own₀ (freeUserMemory v child) ↔ ∀ va, UserVa va → Marked v₀ parent va := by
  obtain ⟨own', hstage⟩ := freeUserMemory_stage h.inv h.root
  have hleaf (r va : Nat) : leafOf (freeUserMemory v child) r va = leafOf v r va :=
    leafOf_of_mem hstage.mem r va
  constructor
  · intro hintact va hva
    have hsame := hintact.leaf hr va
    rw [hleaf] at hsame
    have hend := hmarked va hva
    rwa [Marked, hsame] at hend
  · intro hbefore
    constructor
    · refine freeFrames_congr fun f => ?_
      rw [freeUserMemory_used h.inv h.root]
      constructor
      · rintro ⟨hused, hmissed⟩
        exact (h.found hused).resolve_right fun hret => hmissed (Or.inl hret)
      · refine fun hu => ⟨h.old hu, ?_⟩
        rintro (⟨path, ho, -⟩ | ⟨p, i, d, hp, hpres, hframe, -, hzero⟩)
        · exact absurd hu (by simp [h.fresh ho])
        · have hpos := h.counted hp hpres
          rw [hframe, hzero] at hpos
          exact absurd hpos (Nat.lt_irrefl 0)
    · intro r hr va
      rw [← h.phys hr]
      simp only [getPhys, pdOf, tableAt, hstage.mem]
    · intro r hr va
      rw [hleaf]
      rcases h.leaf hr va with hold | ⟨rfl, hva, hold⟩
      · exact hold
      · rw [hold]
        exact hbefore va hva

/-- A new address space without pages. -/
theorem Tidy.copying (h : Tidy v₀ own₀ v own dir pd []) (parent : Nat) :
    Copying v₀ own₀ v own parent dir where
  base := h.base
  inv := h.inv
  root := h.root
  old := h.old
  fresh := h.fresh
  found := by
    intro f hf
    refine (h.found hf).imp_right fun hret => hret.resolve_right ?_
    rintro ⟨p, i, d, hp, hpres, -⟩
    obtain ⟨-, va, hva, -⟩ := h.pages hp rfl hpres
    cases hva
  counted := by
    intro p i d hp hpres
    obtain ⟨-, va, hva, -⟩ := h.pages hp rfl hpres
    cases hva
  others := fun hq => ⟨(h.others hq).1, (h.others hq).2.1⟩
  phys := fun hr va => h.base.getPhys_congr hr (fun hp => (h.others hp).2.2) h.boot va
  leaf := fun hr va => Or.inl (h.base.leafOf_congr hr (fun hp => (h.others hp).2.2) h.boot va)

/-- A new address space to which the pages of a parent are copied, and which is torn down, leaves
the frames and the translations as they were, and the entries if and only if all pages of the
parent were copy-on-write before. -/
theorem copy_intact_iff (h₀ : Inv v₀ own₀) (hl : 3 ≤ (freeList v₀).length)
    (hroots : RootsIn own₀ roots) (hcard : roots.card < 254) (hparent : IsRoot own₀ parent) :
    Intact v₀ own₀ (freeUserMemory
      (copyCow (createPageDir v₀).1 parent (createPageDir v₀).2) (createPageDir v₀).2) ↔
      ∀ va, UserVa va → Marked v₀ parent va := by
  obtain ⟨a, b, c, fs, hl⟩ := exists_three hl
  have hstart := (tidy_created h₀ hl).copying parent
  rw [(congrArg Prod.snd (createPageDir_list hl).1 : (createPageDir v₀).2 = a)]
  obtain ⟨hold, hne⟩ := hstart.others hparent
  have hroots' : RootsIn (addSpace own₀ a b c) (insert a roots) := by
    intro r hr
    by_cases hra : r = a
    · exact hra ▸ Finset.mem_insert_self a roots
    · refine Finset.mem_insert_of_mem (hroots ?_)
      by_cases hrc : r = c
      · simp [IsRoot, addSpace, addTable, hrc] at hr
      · by_cases hrb : r = b
        · subst hrb
          simp [IsRoot, addSpace, addTable, hrc] at hr
        · simpa [IsRoot, addSpace, addTable, hra, hrb, hrc] using hr
  obtain ⟨own', hcopy, hmarked⟩ := hstart.copyCow hroots'
    ((Finset.card_insert_le a roots).trans hcard) hold hne
  exact hcopy.intact_iff hparent hmarked

end Copy

/-! ## The rollback of SYS_MMAP -/

/-- Page `k` of a region. -/
def regionVa (base k : Nat) : Nat := base + k * 0x1000

/-- The page has no entry, and its page table is there. -/
def Clear (v : Vm) (dir va : Nat) : Prop := (ptOf v dir va).isSome = true ∧ leafOf v dir va = none

/-- The first `i` pages of a region have been mapped since `v₀`, all of them clear before. -/
structure Partway (v₀ : Vm) (own₀ : Owners) (v : Vm) (own : Owners) (dir base i : Nat) :
    Prop where
  start : Inv v₀ own₀
  inv : Inv v own
  grow : Grow own₀ own
  list : freeList v = (freeList v₀).drop i
  old : ∀ {f}, v₀.used f = true → v.used f = true
  found : ∀ {f}, v.used f = true →
    v₀.used f = true ∨ ∃ k < i, f = getPhys v dir (regionVa base k)
  fresh : ∀ k < i, reservedFrames ≤ getPhys v dir (regionVa base k) ∧
    getPhys v dir (regionVa base k) < totalFrames ∧
    v₀.used (getPhys v dir (regionVa base k)) = false
  walk : ∀ va, ptOf v dir va = ptOf v₀ dir va
  phys : ∀ {r va}, IsRoot own₀ r → ¬ (r = dir ∧ ∃ k < i, SamePage (regionVa base k) va) →
    getPhys v r va = getPhys v₀ r va
  leaf : ∀ {r va}, IsRoot own₀ r → ¬ (r = dir ∧ ∃ k < i, SamePage (regionVa base k) va) →
    leafOf v r va = leafOf v₀ r va
  clear : ∀ k < i, Clear v₀ dir (regionVa base k)
  sole : ∀ k < i, Sole v own dir (regionVa base k)

section Mmap
variable {base i n : Nat} {fs : List Nat}

theorem mmapLoop_nil (hl : freeList v = []) :
    mmapLoop v dir base i (n + 1) = (unmapRange v dir base i, false) := by
  rw [mmapLoop, allocFrame_nil hl]
  rfl

theorem mmapLoop_cons (hl : freeList v = f :: fs) :
    mmapLoop v dir base i (n + 1) = mmapLoop (mapPage { v with
      used := Function.update v.used f true } dir (regionVa base i) (PTE.userRW f)) dir base
        (i + 1) n := by
  have hf := freeList_ne_zero hl
  rw [mmapLoop, allocFrame_cons hl]
  dsimp only
  rw [if_neg hf]
  rfl

theorem Partway.free_before (h : Partway v₀ own₀ v own dir base i) (hf : v.used f = false) :
    v₀.used f = false := by
  cases hu : v₀.used f with
  | false => rfl
  | true => exact (h.old hu).symm.trans hf

/-- The pages of a region in user space are different. -/
theorem regionVa_user (hbound : regionVa base n ≤ 2 ^ 30) {k : Nat} (hk : k < n) :
    UserVa (regionVa base k) ∧ ∀ j < n, SamePage (regionVa base j) (regionVa base k) → j = k := by
  simp only [regionVa, UserVa, SamePage, vaPath, pml4Idx, pdptIdx, pdIdx, ptIdx, List.cons.injEq,
    and_true] at hbound ⊢
  refine ⟨by omega, fun j hj hsame => by omega⟩

/-- The rollback of pages that were clear leaves everything as it was. -/
theorem Partway.intact (h : Partway v₀ own₀ v own dir base i) (hr : IsRoot own₀ dir) :
    Intact v₀ own₀ (unmapRange v dir base i) := by
  have heffect := unmapRange_effect h.inv (h.grow.tables hr) h.sole
  constructor
  · refine freeFrames_congr fun f => ?_
    rw [heffect.used]
    constructor
    · rintro ⟨hused, hnot⟩
      refine (h.found hused).resolve_right ?_
      rintro ⟨k, hk, rfl⟩
      obtain ⟨hlow, hhigh, -⟩ := h.fresh k hk
      exact hnot ⟨⟨k, hk, rfl⟩, hlow, hhigh⟩
    · refine fun hu => ⟨h.old hu, ?_⟩
      rintro ⟨⟨k, hk, rfl⟩, -⟩
      have hnew := (h.fresh k hk).2.2
      rw [regionVa, hu] at hnew
      cases hnew
  · intro r hr' va
    rw [heffect.phys (h.grow.tables hr')]
    by_cases hat : r = dir ∧ ∃ k < i, SamePage (regionVa base k) va
    · obtain ⟨rfl, k, hk, hsame⟩ := hat
      obtain ⟨htable, hnone⟩ := h.clear k hk
      rw [if_pos ⟨rfl, k, hk, hsame, by rw [h.walk]; exact htable⟩, getPhys_samePage hsame,
        getPhys_of_leaf_none htable hnone]
    · rw [if_neg, h.phys hr' hat]
      rintro ⟨hdir, k, hk, hsame, -⟩
      exact hat ⟨hdir, k, hk, hsame⟩
  · intro r hr' va
    rw [heffect.leaf (h.grow.tables hr')]
    by_cases hat : r = dir ∧ ∃ k < i, SamePage (regionVa base k) va
    · obtain ⟨rfl, k, hk, hsame⟩ := hat
      obtain ⟨htable, hnone⟩ := h.clear k hk
      rw [if_pos ⟨rfl, k, hk, hsame, by rw [h.walk]; exact htable⟩, leafOf_samePage hsame, hnone]
    · rw [if_neg, h.leaf hr' hat]
      rintro ⟨hdir, k, hk, hsame, -⟩
      exact hat ⟨hdir, k, hk, hsame⟩

/-- One more clear page. -/
theorem Partway.step (h : Partway v₀ own₀ v own dir base i) (hr : IsRoot own₀ dir)
    (hl : freeList v = f :: fs) (hin : i < n) (hbound : regionVa base n ≤ 2 ^ 30)
    (hclear : Clear v₀ dir (regionVa base i)) :
    ∃ own', Partway v₀ own₀ (mapPage { v with used := Function.update v.used f true } dir
      (regionVa base i) (PTE.userRW f)) own' dir base (i + 1) := by
  have ht := h.inv.tookFirst hl
  have hroot := h.grow.tables hr
  obtain ⟨hva, hdistinct⟩ := regionVa_user hbound hin
  obtain ⟨pt, hpt⟩ := Option.isSome_iff_exists.mp hclear.1
  rw [← h.walk] at hpt
  have hown := h.inv.ptOf_spec hroot hpt
  generalize hw : ({ v with used := Function.update v.used f true } : Vm) = w at *
  have hmem : w.mem = v.mem := by rw [← hw]
  have heq : mapPage w dir (regionVa base i) (PTE.userRW f) =
      setEntry w pt (ptIdx (regionVa base i)) (PTE.userRW f) := mapPage_found ht.inv hva hown _
  have hload := ht.places ht.inv.prep id hown
  rw [heq]
  have hfree : v₀.used f = false := h.free_before ht.not_used
  have hphys {r va : Nat} (hr' : IsRoot own r) :
      getPhys (setEntry w pt (ptIdx (regionVa base i)) (PTE.userRW f)) r va =
        if r = dir ∧ SamePage (regionVa base i) va then f else getPhys v r va := by
    rw [ht.inv.getPhys_setEntry hown rfl hr']
    have hsame : getPhys w r va = getPhys v r va := by simp only [getPhys, pdOf, tableAt, hmem]
    rw [hsame]
    rfl
  have hself : getPhys (setEntry w pt (ptIdx (regionVa base i)) (PTE.userRW f)) dir
      (regionVa base i) = f := by
    rw [hphys hroot, if_pos ⟨rfl, rfl, rfl⟩]
  have hbefore {k : Nat} (hk : k < i) :
      getPhys (setEntry w pt (ptIdx (regionVa base i)) (PTE.userRW f)) dir (regionVa base k) =
        getPhys v dir (regionVa base k) := by
    rw [hphys hroot, if_neg]
    rintro ⟨-, hsame⟩
    have := hdistinct k (hk.trans hin) ⟨hsame.1.symm, hsame.2.symm⟩
    omega
  refine ⟨_, h.start, hload.inv, h.grow.trans hload.grow, ?_,
    fun hu => hload.used (Or.inl (h.old hu)), ?_, ?_, ?_, ?_, ?_, ?_, ?_⟩
  · have hlist := h.list
    rw [hl] at hlist
    rw [← List.tail_drop, ← hlist]
    exact freeList_taken hl ht.usedEq
  · intro g hg
    rcases ht.used_iff.mp hg with hg | rfl
    · rcases h.found hg with hold | ⟨k, hk, rfl⟩
      · exact Or.inl hold
      · exact Or.inr ⟨k, Nat.lt_succ_of_lt hk, (hbefore hk).symm⟩
    · exact Or.inr ⟨i, Nat.lt_succ_self i, hself.symm⟩
  · intro k hk
    rcases Nat.lt_succ_iff_lt_or_eq.mp hk with hk | rfl
    · rw [hbefore hk]
      exact h.fresh k hk
    · rw [hself]
      exact ⟨ht.held.low, ht.held.high, hfree⟩
  · intro va
    rw [ht.inv.ptOf_setEntry hown rfl hroot, ← h.walk]
    simp only [ptOf, pdOf, tableAt, hmem]
  · intro r va hr' hnot
    rw [hphys (h.grow.tables hr'), if_neg]
    · exact h.phys hr' fun hc =>
        hnot ⟨hc.1, hc.2.imp fun k hk => ⟨Nat.lt_succ_of_lt hk.1, hk.2⟩⟩
    · exact fun hc => hnot ⟨hc.1, i, Nat.lt_succ_self i, hc.2⟩
  · intro r va hr' hnot
    rw [ht.inv.leafOf_setEntry hown rfl (h.grow.tables hr'), if_neg, leafOf_of_mem hmem]
    · exact h.leaf hr' fun hc =>
        hnot ⟨hc.1, hc.2.imp fun k hk => ⟨Nat.lt_succ_of_lt hk.1, hk.2⟩⟩
    · exact fun hc => hnot ⟨hc.1, i, Nat.lt_succ_self i, hc.2⟩
  · intro k hk
    rcases Nat.lt_succ_iff_lt_or_eq.mp hk with hk | rfl
    · exact h.clear k hk
    · exact hclear
  · intro k hk
    rcases Nat.lt_succ_iff_lt_or_eq.mp hk with hk | rfl
    · exact hload.soles _ (h.sole k hk)
    · exact hload.sole

/-- A frame is in use that the rollback does not release, or a page had an entry before that the
rollback clears. -/
structure Spoiled (v₀ v : Vm) (own : Owners) (dir base i : Nat) : Prop where
  inv : Inv v own
  root : IsRoot own dir
  sole : ∀ k < i, Sole v own dir (regionVa base k)
  cause : (∃ g, reservedFrames ≤ g ∧ g < totalFrames ∧ v₀.used g = false ∧ v.used g = true ∧
      ∀ path d, own g ≠ some (.page path d)) ∨
    ∃ k < i, leafOf v₀ dir (regionVa base k) ≠ none ∧ (ptOf v dir (regionVa base k)).isSome = true

/-- The rollback does not mend it. -/
theorem Spoiled.not_intact (h : Spoiled v₀ v own dir base i) (hr : IsRoot own₀ dir) :
    ¬ Intact v₀ own₀ (unmapRange v dir base i) := by
  intro hintact
  have heffect := unmapRange_effect h.inv h.root h.sole
  rcases h.cause with ⟨g, hlow, hhigh, hfree, hused, hpage⟩ | ⟨k, hk, hne, htable⟩
  · have hstill : (unmapRange v dir base i).used g = true := by
      refine (heffect.used g).mpr ⟨hused, ?_⟩
      rintro ⟨⟨k, -, hg⟩, -⟩
      rcases h.inv.getPhys_spec h.root (regionVa base k) with hout | ⟨pt, hpt, -, hpres, hframe⟩
      · rw [regionVa, ← hg] at hout
        rcases hout with hout | hout <;> omega
      · exact hpage _ _ (h.inv.page_of_entry hpt rfl hpres (hframe.trans hg.symm) hlow)
    rw [hintact.not_used hlow hhigh hfree] at hstill
    cases hstill
  · refine hne ?_
    rw [← hintact.leaf hr, heffect.leaf h.root, if_pos ⟨rfl, k, hk, ⟨rfl, rfl⟩, htable⟩]

/-- It stays while more pages are mapped. -/
theorem Spoiled.step {w : Vm} (h : Spoiled v₀ v own dir base i)
    (hl : Loads v own w own' dir (regionVa base i) f) : Spoiled v₀ w own' dir base (i + 1) := by
  refine ⟨hl.inv, hl.grow.tables h.root, fun k hk => ?_, ?_⟩
  · rcases Nat.lt_succ_iff_lt_or_eq.mp hk with hk | rfl
    · exact hl.soles _ (h.sole k hk)
    · exact hl.sole
  · rcases h.cause with ⟨g, hlow, hhigh, hfree, hused, hpage⟩ | ⟨k, hk, hne, htable⟩
    · refine Or.inl ⟨g, hlow, hhigh, hfree, hl.used (Or.inl hused), fun path d => ?_⟩
      rw [hl.kept hused hlow hhigh]
      exact hpage path d
    · obtain ⟨pt, hpt⟩ := Option.isSome_iff_exists.mp htable
      refine Or.inr ⟨k, Nat.lt_succ_of_lt hk, hne, ?_⟩
      rw [hl.inv.ptOf_of_own (hl.grow.tables (h.inv.ptOf_spec h.root hpt))]
      rfl

theorem Spoiled.loop (h : Spoiled v₀ v own dir base i) (hr : IsRoot own₀ dir)
    (hfail : (mmapLoop v dir base i n).2 = false) :
    ¬ Intact v₀ own₀ (mmapLoop v dir base i n).1 := by
  induction n generalizing v own i with
  | zero => cases hfail
  | succ n ih =>
      cases hl : freeList v with
      | nil =>
          rw [mmapLoop_nil hl]
          exact h.not_intact hr
      | cons f fs =>
          obtain ⟨own', hload⟩ := (h.inv.tookFirst hl).loads h.root (regionVa base i)
          rw [mmapLoop_cons hl] at hfail ⊢
          exact ih (h.step hload) hfail

/-- A page that was not clear spoils it. -/
theorem Partway.spoil (h : Partway v₀ own₀ v own dir base i) (hr : IsRoot own₀ dir)
    (hl : freeList v = f :: fs) (hin : i < n) (hbound : regionVa base n ≤ 2 ^ 30)
    (hnot : ¬ Clear v₀ dir (regionVa base i)) :
    ∃ own', Spoiled v₀ (mapPage { v with used := Function.update v.used f true } dir
      (regionVa base i) (PTE.userRW f)) own' dir base (i + 1) := by
  have ht := h.inv.tookFirst hl
  have hroot := h.grow.tables hr
  obtain ⟨hva, -⟩ := regionVa_user hbound hin
  have hspoil {v' : Vm} {own' : Owners} (hload : Loads v own v' own' dir (regionVa base i) f)
      (hcause : (∃ g, reservedFrames ≤ g ∧ g < totalFrames ∧ v₀.used g = false ∧
          v'.used g = true ∧ ∀ path d, own' g ≠ some (.page path d)) ∨
        ∃ k < i + 1, leafOf v₀ dir (regionVa base k) ≠ none ∧
          (ptOf v' dir (regionVa base k)).isSome = true) : Spoiled v₀ v' own' dir base (i + 1) := by
    refine ⟨hload.inv, hload.grow.tables hroot, fun k hk => ?_, hcause⟩
    rcases Nat.lt_succ_iff_lt_or_eq.mp hk with hk | rfl
    · exact hload.soles _ (h.sole k hk)
    · exact hload.sole
  cases hpt : ptOf v₀ dir (regionVa base i) with
  | some pt =>
      -- A page was mapped there, and the rollback clears the entry.
      obtain ⟨own', hload⟩ := ht.loads hroot (regionVa base i)
      have hown := h.inv.ptOf_spec hroot ((h.walk _).trans hpt)
      refine ⟨own', hspoil hload (Or.inr ⟨i, Nat.lt_succ_self i, fun hnone => hnot ?_, ?_⟩)⟩
      · exact ⟨by rw [hpt]; rfl, hnone⟩
      · rw [hload.inv.ptOf_of_own (hload.grow.tables hown)]
        rfl
  | none =>
      have hnone (p : Nat) : own p ≠ some (.table dir (vaPath (regionVa base i))) := by
        intro hp
        have hwalk := h.walk (regionVa base i)
        rw [hpt, h.inv.ptOf_of_own hp] at hwalk
        cases hwalk
      obtain ⟨-, hpd⟩ := h.inv.first_tables hroot
      rcases ht.lands h.inv hroot hpd hva with ⟨heq, -⟩ | ⟨own', pt, hland⟩
      · -- The page is mapped nowhere.
        rw [heq]
        refine ⟨own, hspoil (ht.stops ht.inv.prep id hnone) (Or.inl ⟨f, ht.held.low, ht.held.high,
          h.free_before ht.not_used, ht.held.used, ?_⟩)⟩
        intro path d ho
        rw [ht.held.unowned] at ho
        cases ho
      · -- The next frame became a page table.
        obtain ⟨hlow, hhigh, hused⟩ := hland.inv.range hland.table
        refine ⟨own', hspoil hland.toLoads (Or.inl ⟨pt, hlow, hhigh, h.free_before ?_, hused, ?_⟩)⟩
        · by_contra hc
          have hkept := hland.kept (Bool.eq_true_of_not_eq_false hc) hlow hhigh
          exact hnone pt (hkept ▸ hland.table)
        · intro path d ho
          rw [hland.table] at ho
          cases ho

/-- A call that fails leaves everything as it was if and only if the pages for which there were
frames were clear. -/
theorem Partway.loop_intact_iff (h : Partway v₀ own₀ v own dir base i) (hr : IsRoot own₀ dir)
    (hbound : regionVa base (i + n) ≤ 2 ^ 30) (hfail : (mmapLoop v dir base i n).2 = false) :
    Intact v₀ own₀ (mmapLoop v dir base i n).1 ↔
      ∀ k < (freeList v₀).length, i ≤ k → Clear v₀ dir (regionVa base k) := by
  induction n generalizing v own i with
  | zero => cases hfail
  | succ n ih =>
      have hin : i < i + (n + 1) := by omega
      have hlist := h.list
      cases hl : freeList v with
      | nil =>
          rw [mmapLoop_nil hl]
          rw [hl, eq_comm, List.drop_eq_nil_iff] at hlist
          exact iff_of_true (h.intact hr) fun k hk hik => by omega
      | cons f fs =>
          have hlt : i < (freeList v₀).length := by
            by_contra hc
            rw [hl, List.drop_eq_nil_of_le (Nat.le_of_not_lt hc)] at hlist
            cases hlist
          rw [mmapLoop_cons hl] at hfail ⊢
          by_cases hclear : Clear v₀ dir (regionVa base i)
          · obtain ⟨own', hnext⟩ := h.step hr hl hin hbound hclear
            rw [ih hnext (by rwa [Nat.add_assoc, Nat.add_comm 1]) hfail]
            refine forall_congr' fun k => imp_congr_right fun _ => ?_
            refine ⟨fun hrest hik => ?_, fun hall hik => hall (Nat.le_of_succ_le hik)⟩
            rcases Nat.eq_or_lt_of_le hik with rfl | hik
            · exact hclear
            · exact hrest hik
          · obtain ⟨own', hspoiled⟩ := h.spoil hr hl hin hbound hclear
            refine iff_of_false (hspoiled.loop hr hfail) fun hall => hclear (hall i hlt (Nat.le_refl i))

end Mmap

end OriaOS.Vmm
