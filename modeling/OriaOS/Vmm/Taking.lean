import OriaOS.Vmm.Teardown
import OriaOS.Vmm.Tree

/-!
# Taking frames in order

The bitmap hands out its free frames in ascending order, so which frame a page gets follows from
the state before. A frame that was just taken is mapped, or lost on the way; in user space what
happens to it, and to the next frame when the page table is missing, can be said exactly.
-/

namespace OriaOS.Vmm

variable {fs : List Nat} {g pd pt : Nat}
variable {v w : Vm} {own own' : Owners} {r f : Nat}

/-! ## The order of the frames -/

/-- The frames that `pmm_alloc_frame` hands out, in this order. -/
def freeList (v : Vm) : List Nat :=
  (List.range' reservedFrames (totalFrames - reservedFrames)).filter fun f => !v.used f

theorem mem_freeList : f ∈ freeList v ↔ f ∈ freeFrames v := by
  simp only [freeList, List.mem_filter, List.mem_range'_1, mem_freeFrames, reservedFrames,
    totalFrames, Bool.not_eq_true', Nat.reduceSub, Nat.reduceAdd]

theorem freeList_ne_zero (h : freeList v = f :: fs) : f ≠ 0 :=
  free_ne_zero (mem_freeList.mp (h ▸ List.mem_cons_self))

theorem nodup_freeList (v : Vm) : (freeList v).Nodup := List.Nodup.filter _ List.nodup_range'

theorem length_freeList (v : Vm) : (freeList v).length = (freeFrames v).card := by
  have hset : (freeList v).toFinset = freeFrames v := by
    ext f
    rw [List.mem_toFinset, mem_freeList]
  rw [← hset, List.toFinset_card_of_nodup (nodup_freeList v)]

theorem freeList_congr (h : w.used = v.used) : freeList w = freeList v := by
  rw [freeList, freeList, h]

theorem allocFrame_nil (h : freeList v = []) : allocFrame v = (v, 0) := by
  have hfind := List.head?_filter.symm.trans (congrArg List.head? h)
  rw [allocFrame, hfind]
  rfl

theorem allocFrame_cons (h : freeList v = f :: fs) :
    allocFrame v = ({ v with used := Function.update v.used f true }, f) := by
  have hfind := List.head?_filter.symm.trans (congrArg List.head? h)
  rw [allocFrame, hfind]
  rfl

/-- What is left when the first frame has been taken. -/
theorem freeList_taken (h : freeList v = f :: fs) (hw : w.used = Function.update v.used f true) :
    freeList w = fs := by
  have hnodup : (f :: fs).Nodup := h ▸ nodup_freeList v
  have hfilter : freeList w = (freeList v).filter fun g => g ≠ f := by
    rw [freeList, freeList, List.filter_filter, hw]
    apply List.filter_congr
    intro g _
    by_cases hg : g = f
    · simp [hg]
    · simp [hg]
  rw [hfilter, h, List.filter_cons_of_neg (by simp), List.filter_eq_self]
  intro g hg
  have hne : g ≠ f := by
    rintro rfl
    exact (List.nodup_cons.mp hnodup).1 hg
  simpa using hne

/-! ## Frames in use stay in use -/

theorem allocFrame_used (hf : v.used f = true) : (allocFrame v).1.used f = true := by
  rcases allocFrame_cases v with heq | ⟨g, -, -, -, heq⟩
  · rwa [heq]
  · rw [heq]
    by_cases hfg : f = g
    · simp [hfg]
    · simpa [hfg] using hf

theorem nextTable_used {p i : Nat} (hf : v.used f = true) : (nextTable v p i).1.used f = true := by
  unfold nextTable
  split
  · exact hf
  · dsimp only
    split
    · exact allocFrame_used hf
    · exact allocFrame_used (v := v) hf

theorem mapPage_used {va : Nat} {e : PTE} (hf : v.used f = true) :
    (mapPage v r va e).used f = true := by
  have h₁ := nextTable_used (p := r) (i := pml4Idx va) hf
  unfold mapPage
  split
  · next heq => rwa [heq] at h₁
  · next v₁ pdpt heq =>
    rw [heq] at h₁
    have h₂ := nextTable_used (p := pdpt) (i := pdptIdx va) h₁
    split
    · next heq₂ => rwa [heq₂] at h₂
    · next v₂ pd heq₂ =>
      rw [heq₂] at h₂
      split
      · exact h₂
      · have h₃ := nextTable_used (p := pd) (i := pdIdx va) h₂
        split
        · next heq₃ => rwa [heq₃] at h₃
        · next heq₃ => rwa [heq₃] at h₃

theorem elfPages_used {dir entry : Nat} {pages : List Nat} (hf : v.used f = true) :
    (elfPages v dir entry pages).1.used f = true := by
  induction pages generalizing v with
  | nil => exact hf
  | cons va pages ih =>
      rw [elfPages]
      dsimp only
      split
      · exact allocFrame_used hf
      · exact ih (mapPage_used (v := zeroFrame (allocFrame v).1 _) (allocFrame_used hf))

/-! ## Mapping a frame that was just taken -/

/-- `w` is `v` with its first free frame taken, whatever was written to it. -/
structure TookFirst (v : Vm) (own : Owners) (f : Nat) (fs : List Nat) (w : Vm) : Prop extends
    Took v own f w where
  list : freeList v = f :: fs
  usedEq : w.used = Function.update v.used f true
  memEq : ∀ {q}, q ≠ f → w.mem q = v.mem q

theorem Inv.tookFirst (h : Inv v own) (hl : freeList v = f :: fs) :
    TookFirst v own f fs { v with used := Function.update v.used f true } :=
  { h.took (mem_freeList.mp (hl ▸ List.mem_cons_self)) with
    list := hl
    usedEq := rfl
    memEq := fun _ => rfl }

theorem Inv.tookFirst_zeroed (h : Inv v own) (hl : freeList v = f :: fs) :
    TookFirst v own f fs (Vmm.takeZeroed v f) :=
  { h.took_zeroed (mem_freeList.mp (hl ▸ List.mem_cons_self)) with
    list := hl
    usedEq := rfl
    memEq := fun hq => Function.update_of_ne hq _ _ }

/-- The frame `f` has been taken and mapped at `va` in `r`, or lost on the way. Nothing has
happened to the frames that were in use. -/
structure Loads (v : Vm) (own : Owners) (v' : Vm) (own' : Owners) (r va f : Nat) : Prop where
  inv : Inv v' own'
  grow : Grow own own'
  cow : v'.cow = v.cow
  used : ∀ {g}, v.used g = true ∨ g = f → v'.used g = true
  kept : ∀ {g}, v.used g = true → reservedFrames ≤ g → g < totalFrames → own' g = own g
  maps : ∀ {p r' path d}, path.length = 3 → own' p = some (.table r' path) →
    (v'.mem p d).present = true → (own p = some (.table r' path) ∧ v'.mem p d = v.mem p d) ∨
      r' = r ∧ path = vaPath va ∧ d = ptIdx va ∧ v'.mem p d = PTE.userRW f
  self : own' f = none ∨ own' f = some (.page (vaPath va) (ptIdx va))
  sole : Sole v' own' r va
  soles : ∀ va', Sole v own r va' → Sole v' own' r va'

section Load
variable {fs : List Nat} {va : Nat}

theorem TookFirst.mem_free (ht : TookFirst v own f fs w) : f ∈ freeFrames v :=
  mem_freeList.mp (ht.list ▸ List.mem_cons_self)

theorem TookFirst.not_used (ht : TookFirst v own f fs w) : v.used f = false :=
  (mem_freeFrames.mp ht.mem_free).2

theorem TookFirst.list_eq (ht : TookFirst v own f fs w) : freeList w = fs :=
  freeList_taken ht.list ht.usedEq

theorem TookFirst.used_iff (ht : TookFirst v own f fs w) :
    w.used g = true ↔ v.used g = true ∨ g = f := by
  rw [ht.usedEq]
  by_cases hg : g = f
  · simp [hg]
  · simp [hg]

/-- The owner of a frame that is in use stays the same. -/
theorem Prep.kept {v' : Vm} (h : Prep v own v' own') (hg : v.used g = true)
    (hlow : reservedFrames ≤ g) (hhigh : g < totalFrames) : own' g = own g := by
  cases hown : own g with
  | none => exact (h.held ⟨hlow, hhigh, hg, hown⟩).unowned
  | some o =>
      cases o with
      | table r path => exact h.grow.tables hown
      | page path d => exact h.pages hown

/-- Page-table entries of `w` are those of `v`. -/
theorem TookFirst.fewer (ht : TookFirst v own f fs w) : Fewer v own w own :=
  fun _ _ _ _ _ hq _ => ⟨hq, by rw [ht.mem hq]⟩

/-- A mapping that comes to nothing. -/
theorem TookFirst.stops (ht : TookFirst v own f fs w) {v₁ : Vm} {own₁ : Owners}
    (hprep : Prep w own v₁ own₁) (hused : ∀ {g}, w.used g = true → v₁.used g = true)
    (hnone : ∀ p, own p ≠ some (.table r (vaPath va))) : Loads v own v₁ own₁ r va f := by
  have hfew : Fewer v own v₁ own₁ := by
    intro q r' path d hlen hq hpres
    obtain ⟨hq₁, he⟩ := hprep.fewer q r' path d hlen hq hpres
    exact ⟨hq₁, he.trans (by rw [ht.mem hq₁])⟩
  refine ⟨hprep.inv, hprep.grow, hprep.cow.trans ht.cow, fun hg => hused (ht.used_iff.mpr hg), ?_,
    ?_, Or.inl (hprep.held ht.held).unowned, ?_, fun _ hs => hs.of_fewer hfew⟩
  · exact fun hg => hprep.kept (ht.used_iff.mpr (Or.inl hg))
  · exact fun hlen hp hpres => Or.inl (hfew _ _ _ _ hlen hp hpres)
  · have hvac : Sole v own r va := fun p hp => absurd hp (hnone p)
    exact hvac.of_fewer hfew

/-- A held frame is mapped at the place of an entry. -/
theorem Inv.place (h : Inv v own) (hf : Held v own f) {p d : Nat} {path : List Nat}
    (hp : own p = some (.table r path)) (hlen : path.length = 3) (hd : d < 512) :
    Inv (setEntry v p d (PTE.userRW f)) (Function.update own f (some (.page path d))) := by
  obtain ⟨hinv, hempty⟩ := h.adopt hf hp hlen hd
  refine hinv.setLeaf ((adopt_table hf.unowned).mpr hp) hlen fun _ => ?_
  refine Or.inr ⟨by simp [PTE.userRW], fun htwo => ?_⟩
  rw [show (PTE.userRW f).frame = f from rfl, hempty] at htwo
  simp at htwo

/-- A mapping that comes to a page table. -/
theorem TookFirst.places (ht : TookFirst v own f fs w) {v₁ : Vm} {own₁ : Owners}
    (hprep : Prep w own v₁ own₁) (hused : ∀ {g}, w.used g = true → v₁.used g = true)
    (hpt : own₁ pt = some (.table r (vaPath va))) :
    Loads v own (setEntry v₁ pt (ptIdx va) (PTE.userRW f))
      (Function.update own₁ f (some (.page (vaPath va) (ptIdx va)))) r va f := by
  have hheld := hprep.held ht.held
  have hinv := hprep.inv.place hheld hpt rfl (Nat.mod_lt (va / 2 ^ 12) (by decide))
  have htable {q r' : Nat} {path : List Nat} :
      Function.update own₁ f (some (.page (vaPath va) (ptIdx va))) q = some (.table r' path) ↔
        own₁ q = some (.table r' path) := adopt_table hheld.unowned
  have hfew : Fewer v own v₁ own₁ := by
    intro q r' path d hlen hq hpres
    obtain ⟨hq₁, he⟩ := hprep.fewer q r' path d hlen hq hpres
    exact ⟨hq₁, he.trans (by rw [ht.mem hq₁])⟩
  refine ⟨hinv, hprep.grow.trans ⟨htable.mpr, htable.mp⟩, hprep.cow.trans ht.cow,
    fun hg => hused (ht.used_iff.mpr hg), ?_, ?_, Or.inr (by simp), ?_, ?_⟩
  · intro g hg hlow hhigh
    have hgf : g ≠ f := by
      rintro rfl
      rw [ht.not_used] at hg
      cases hg
    rw [Function.update_of_ne hgf]
    exact hprep.kept (ht.used_iff.mpr (Or.inl hg)) hlow hhigh
  · intro p r' path d hlen hp hpres
    have hp₁ := htable.mp hp
    by_cases hat : p = pt ∧ d = ptIdx va
    · obtain ⟨rfl, rfl⟩ := hat
      rw [hpt] at hp₁
      cases hp₁
      exact Or.inr ⟨rfl, rfl, rfl, setEntry_same⟩
    · rw [setEntry_other hat] at hpres ⊢
      exact Or.inl (hfew _ _ _ _ hlen hp₁ hpres)
  · exact Sole.setFresh hprep.inv hpt (Or.inr hheld) htable.mp (Or.inr ⟨rfl, rfl, rfl⟩)
  · exact fun va' hs =>
      Sole.setFresh hprep.inv hpt (Or.inr hheld) htable.mp (Or.inl (hs.of_fewer hfew))

/-- Mapping a frame that was just taken, at any address. -/
theorem TookFirst.loads (ht : TookFirst v own f fs w) (hr : IsRoot own r) (va : Nat) :
    ∃ own', Loads v own (mapPage w r va (PTE.userRW f)) own' r va f := by
  have hused {g : Nat} (hg : w.used g = true) :
      (mapPage w r va (PTE.userRW f)).used g = true := mapPage_used hg
  obtain ⟨v₁, own₁, hprep, ⟨heq, hnone⟩ | ⟨pt, hpt, heq⟩⟩ :=
    mapPage_cases ht.inv hr va (PTE.userRW f)
  · rw [heq] at hused ⊢
    exact ⟨own₁, ht.stops hprep hused hnone⟩
  · rw [heq] at hused ⊢
    exact ⟨_, ht.places hprep hused hpt⟩

/-! ## Mapping in user space -/

/-- A mapping in user space stops at a 2 MB page or for want of a frame, or sets the entry in the
page table of the address, or adds that table first. -/
theorem mapPage_outcomes (h : Inv v own) (hr : IsRoot own r)
    (hpd : own pd = some (.table r [0, 0])) (hva : UserVa va) (e : PTE) :
    (mapPage v r va e = v ∧ ((v.mem pd (pdIdx va)).large = true ∨
        (v.mem pd (pdIdx va)).present = false ∧ freeList v = [])) ∨
      (v.mem pd (pdIdx va)).large = false ∧
        ((∃ pt, (v.mem pd (pdIdx va)).present = true ∧ own pt = some (.table r (vaPath va)) ∧
          mapPage v r va e = setEntry v pt (ptIdx va) e) ∨
        ∃ g gs, (v.mem pd (pdIdx va)).present = false ∧ freeList v = g :: gs ∧
          Grown v own (Tree.addPt v g pd (pdIdx va)) (addTable own g r (vaPath va)) ∧
          mapPage v r va e = setEntry (Tree.addPt v g pd (pdIdx va)) g (ptIdx va) e) := by
  rw [mapPage_user h hr hpd hva]
  by_cases hl : (v.mem pd (pdIdx va)).large = true
  · rw [if_pos hl]
    exact Or.inl ⟨rfl, Or.inl hl⟩
  rw [if_neg hl]
  have hlarge := Bool.eq_false_of_not_eq_true hl
  rw [hva.path]
  by_cases hpres : (v.mem pd (pdIdx va)).present = true
  · have hpt : own (v.mem pd (pdIdx va)).frame = some (.table r [0, 0, pdIdx va]) := by
      rcases h.child hpd (by simp) hpres hlarge with hp | ⟨-, hbad, -⟩
      · exact hp
      · cases hbad
    rw [Tree.nextTable_present hpres]
    exact Or.inr ⟨hlarge, Or.inl ⟨_, hpres, hpt, rfl⟩⟩
  · have hnone := Bool.eq_false_of_not_eq_true hpres
    rw [nextTable, if_neg hpres]
    cases hlist : freeList v with
    | nil =>
        rw [allocFrame_nil hlist]
        exact Or.inl ⟨rfl, Or.inr ⟨hnone, rfl⟩⟩
    | cons g gs =>
        have hg : g ∈ freeFrames v := mem_freeList.mp (hlist ▸ List.mem_cons_self)
        rw [allocFrame_cons hlist]
        dsimp only
        rw [if_neg (free_ne_zero hg)]
        exact Or.inr ⟨hlarge, Or.inr ⟨g, gs, hnone, rfl,
          addPt_grown h hpd (Nat.mod_lt _ (by decide)) hnone hlarge hg, rfl⟩⟩

/-- With the page table there, the mapping sets its entry. -/
theorem mapPage_found (h : Inv v own) (hva : UserVa va)
    (hpt : own pt = some (.table r (vaPath va))) (e : PTE) :
    mapPage v r va e = setEntry v pt (ptIdx va) e := by
  have hr := h.rooted hpt
  obtain ⟨-, hpd⟩ := h.first_tables hr
  obtain ⟨hpres, hframe, hplain⟩ := h.entry [0, 0] (hva.path ▸ hpt) hpd
  rw [mapPage_user h hr hpd hva, if_neg (by simp [hplain]), Tree.nextTable_present hpres]
  dsimp only
  rw [hframe]

/-- The frame `f` has been taken and is mapped at `va` in user space, in the page table `pt`. -/
structure Lands (v : Vm) (own : Owners) (v' : Vm) (own' : Owners) (r pd va f : Nat)
    (fs : List Nat) (pt : Nat) : Prop extends Loads v own v' own' r va f where
  table : own' pt = some (.table r (vaPath va))
  entry : v'.mem pt (ptIdx va) = PTE.userRW f
  page : own' f = some (.page (vaPath va) (ptIdx va))
  plain : (v.mem pd (pdIdx va)).large = false
  room : (v.mem pd (pdIdx va)).present = true ∨ fs ≠ []
  pdPresent : ∀ k, (v'.mem pd k).present = true ↔ (v.mem pd k).present = true ∨ k = pdIdx va
  pdLarge : ∀ k, (v'.mem pd k).large = (v.mem pd k).large
  old : ∀ {p r' path d}, own p = some (.table r' path) → path.length = 3 →
    ¬ (p = pt ∧ d = ptIdx va) → v'.mem p d = v.mem p d
  others : ∀ {q}, q ∉ freeFrames v → (∀ path, own q ≠ some (.table r path)) → v'.mem q = v.mem q
  list : freeList v' = if (v.mem pd (pdIdx va)).present then fs else fs.tail
  taken : ∀ {g}, v'.used g = true → v.used g = true ∨ g = f ∨ own' g = some (.table r (vaPath va))

/-- The page table was there. -/
theorem TookFirst.lands_found (ht : TookFirst v own f fs w)
    (hpd : own pd = some (.table r [0, 0])) (hplain : (v.mem pd (pdIdx va)).large = false)
    (hpres : (v.mem pd (pdIdx va)).present = true) (hpt : own pt = some (.table r (vaPath va)))
    (hpath : vaPath va = [0, 0, pdIdx va]) :
    ∃ own', Lands v own (setEntry w pt (ptIdx va) (PTE.userRW f)) own' r pd va f fs pt := by
  have hload := ht.places ht.inv.prep id hpt
  have hne : pd ≠ pt := by
    rintro rfl
    rw [hpd, hpath] at hpt
    cases hpt
  have hpdmem (k : Nat) :
      (setEntry w pt (ptIdx va) (PTE.userRW f)).mem pd k = v.mem pd k := by
    rw [setEntry_other fun hc => hne hc.1, ht.mem hpd]
  refine ⟨_, { hload with
    table := hload.grow.tables hpt
    entry := setEntry_same
    page := by simp
    plain := hplain
    room := Or.inl hpres
    pdPresent := ?_
    pdLarge := fun k => by rw [hpdmem]
    old := ?_
    others := ?_
    list := ?_
    taken := ?_ }⟩
  · intro k
    rw [hpdmem]
    refine ⟨Or.inl, fun hk => hk.elim id ?_⟩
    rintro rfl
    exact hpres
  · intro p r' path d hp _ hat
    rw [setEntry_other hat, ht.mem hp]
  · intro q hq hnone
    have hqf : q ≠ f := fun hc => hq (hc ▸ ht.mem_free)
    rw [← ht.memEq hqf]
    funext k
    refine setEntry_other fun hc => hnone (vaPath va) ?_
    rw [hc.1]
    exact hpt
  · rw [if_pos hpres]
    exact freeList_taken ht.list ht.usedEq
  · intro g hg
    rcases ht.used_iff.mp hg with hg | rfl
    · exact Or.inl hg
    · exact Or.inr (Or.inl rfl)

/-- The page table was missing, and the next frame became one. -/
theorem TookFirst.lands_added (ht : TookFirst v own f fs w) (h : Inv v own) {gs : List Nat}
    (hpd : own pd = some (.table r [0, 0])) (hlist : fs = g :: gs)
    (hplain : (v.mem pd (pdIdx va)).large = false) (hpres : (v.mem pd (pdIdx va)).present = false)
    (hgrown : Grown w own (Tree.addPt w g pd (pdIdx va)) (addTable own g r (vaPath va))) :
    ∃ own', Lands v own (setEntry (Tree.addPt w g pd (pdIdx va)) g (ptIdx va) (PTE.userRW f)) own' r
      pd va f fs g := by
  have hlist' : freeList w = g :: gs := ht.list_eq.trans hlist
  have hg : g ∈ freeFrames w := mem_freeList.mp (hlist' ▸ List.mem_cons_self)
  have hgv : g ∈ freeFrames v := by
    rw [ht.free] at hg
    exact Finset.mem_of_mem_erase hg
  have hused {q : Nat} : (Tree.addPt w g pd (pdIdx va)).used q = true ↔
      w.used q = true ∨ q = g := by
    change Function.update w.used g true q = true ↔ _
    by_cases hq : q = g
    · simp [hq]
    · simp [hq]
  have hself : addTable own g r (vaPath va) g = some (.table r (vaPath va)) := by simp [addTable]
  have hload := ht.places hgrown.toPrep (fun hq => hused.mpr (Or.inl hq)) hself
  have hpg : pd ≠ g := by
    rintro rfl
    exact h.not_free hpd hgv
  have hpdmem (k : Nat) :
      (setEntry (Tree.addPt w g pd (pdIdx va)) g (ptIdx va) (PTE.userRW f)).mem pd k =
        if k = pdIdx va then PTE.userRW g else v.mem pd k := by
    rw [setEntry_other fun hc => hpg hc.1, Tree.addPt_mem, if_neg hpg, ht.mem hpd]
    simp only [true_and]
  refine ⟨_, { hload with
    table := (adopt_table (hgrown.held ht.held).unowned).mpr hself
    entry := setEntry_same
    page := by simp
    plain := hplain
    room := Or.inr (by simp [hlist])
    pdPresent := ?_
    pdLarge := ?_
    old := ?_
    others := ?_
    list := ?_
    taken := ?_ }⟩
  · intro k
    rw [hpdmem]
    by_cases hk : k = pdIdx va
    · simp [hk, PTE.userRW]
    · simp [hk]
  · intro k
    rw [hpdmem]
    by_cases hk : k = pdIdx va
    · rw [if_pos hk, hk, hplain]
      rfl
    · rw [if_neg hk]
  · intro p r' path d hp hlen hat
    have hpg' : p ≠ g := by
      rintro rfl
      exact h.not_free hp hgv
    have hppd : ¬ (p = pd ∧ d = pdIdx va) := by
      rintro ⟨rfl, -⟩
      rw [hpd] at hp
      cases hp
      cases hlen
    rw [setEntry_other fun hc => hpg' hc.1, Tree.addPt_mem, if_neg hppd, if_neg hpg', ht.mem hp]
  · intro q hq hnone
    have hqf : q ≠ f := fun hc => hq (hc ▸ ht.mem_free)
    have hqg : q ≠ g := fun hc => hq (hc ▸ hgv)
    have hqpd : q ≠ pd := by
      rintro rfl
      exact hnone _ hpd
    funext k
    rw [setEntry_other fun hc => hqg hc.1, Tree.addPt_mem, if_neg fun hc => hqpd hc.1, if_neg hqg,
      ht.memEq hqf]
  · rw [hpres, if_neg (by decide), hlist, List.tail_cons]
    exact freeList_taken hlist' rfl
  · intro q hq
    rcases hused.mp hq with hq | rfl
    · exact (ht.used_iff.mp hq).imp_right Or.inl
    · exact Or.inr (Or.inr ((adopt_table (hgrown.held ht.held).unowned).mpr hself))

/-- Mapping a frame that was just taken in user space. -/
theorem TookFirst.lands (ht : TookFirst v own f fs w) (h : Inv v own) (hr : IsRoot own r)
    (hpd : own pd = some (.table r [0, 0])) (hva : UserVa va) :
    (mapPage w r va (PTE.userRW f) = w ∧ ((v.mem pd (pdIdx va)).large = true ∨
        (v.mem pd (pdIdx va)).present = false ∧ fs = [])) ∨
      ∃ own' pt, Lands v own (mapPage w r va (PTE.userRW f)) own' r pd va f fs pt := by
  have hmem : w.mem pd = v.mem pd := ht.mem hpd
  rcases mapPage_outcomes ht.inv hr hpd hva (PTE.userRW f) with
    ⟨heq, hstop⟩ | ⟨hplain, ⟨pt, hpres, hpt, heq⟩ | ⟨g, gs, hpres, hlist, hgrown, heq⟩⟩
  · rw [hmem, ht.list_eq] at hstop
    exact Or.inl ⟨heq, hstop⟩
  · rw [hmem] at hplain hpres
    obtain ⟨own', hlands⟩ := ht.lands_found hpd hplain hpres hpt hva.path
    exact Or.inr ⟨own', pt, heq ▸ hlands⟩
  · rw [hmem] at hplain hpres
    rw [ht.list_eq] at hlist
    obtain ⟨own', hlands⟩ := ht.lands_added h hpd hlist hplain hpres hgrown
    exact Or.inr ⟨own', g, heq ▸ hlands⟩

end Load

end OriaOS.Vmm
