import OriaOS.Vmm.Ownership
import OriaOS.Vmm.Process

/-!
# Mapping and unmapping under the invariant

What `vmm_map_page`, `vmm_unmap_page` and `vmm_get_phys` do in terms of owners.
A mapping either finds or creates the page table of its address, or stops with
the mappings as they were.
-/

namespace OriaOS.Vmm

open OriaOS.Lib

variable {path : List Nat} {d f i p pt r root va : Nat} {own own' : Owners} {e : PTE} {v : Vm}

/-- The place of the page table of an address. -/
def vaPath (va : Nat) : List Nat := [pml4Idx va, pdptIdx va, pdIdx va]

/-- A live address space. -/
abbrev IsRoot (own : Owners) (r : Nat) : Prop := own r = some (.table r [])

/-! ## Preparing the tables -/

/-- The tables may have grown, but nothing new is mapped. -/
structure Prep (v : Vm) (own : Owners) (v' : Vm) (own' : Owners) : Prop where
  inv : Inv v' own'
  grow : Grow own own'
  fewer : Fewer v own v' own'
  cow : v'.cow = v.cow
  held : ∀ {f}, Held v own f → Held v' own' f
  pages : ∀ {f path d}, own f = some (.page path d) → own' f = some (.page path d)

theorem Inv.prep (h : Inv v own) : Prep v own v own :=
  ⟨h, Grow.refl own, fun _ _ _ _ _ hq _ => ⟨hq, rfl⟩, rfl, id, id⟩

theorem Prep.trans {v₁ v₂ v₃ : Vm} {own₁ own₂ own₃ : Owners} (h : Prep v₁ own₁ v₂ own₂)
    (h' : Prep v₂ own₂ v₃ own₃) : Prep v₁ own₁ v₃ own₃ where
  inv := h'.inv
  grow := h.grow.trans h'.grow
  fewer := by
    intro q r path d hlen hq hpres
    obtain ⟨hq₂, he₂⟩ := h'.fewer q r path d hlen hq hpres
    obtain ⟨hq₁, he₁⟩ := h.fewer q r path d hlen hq₂ (by rwa [he₂] at hpres)
    exact ⟨hq₁, he₂.trans he₁⟩
  cow := h'.cow.trans h.cow
  held := fun hf => h'.held (h.held hf)
  pages := fun hf => h'.pages (h.pages hf)

/-- The table above a table. -/
theorem Inv.above (h : Inv v own) (path : List Nat) (hf : own f = some (.table r (path ++ [i]))) :
    ∃ p, own p = some (.table r path) :=
  (h.linked hf).imp fun _ hp => hp.1

/-- The entry that leads to a table. -/
theorem Inv.entry (h : Inv v own) (path : List Nat) (hf : own f = some (.table r (path ++ [i])))
    (hp : own p = some (.table r path)) :
    (v.mem p i).present = true ∧ (v.mem p i).frame = f ∧ (v.mem p i).large = false := by
  obtain ⟨q, hq, hpres, hframe⟩ := h.linked hf
  obtain rfl := h.table_unique hq hp
  refine ⟨hpres, hframe, ?_⟩
  by_contra hlarge
  have hdepth := h.tableDepth hf
  rw [List.length_append, List.length_singleton] at hdepth
  -- A 2 MB page lies outside the frames that can be tables.
  have hout := (h.large hp (by omega) (Bool.eq_true_of_not_eq_false hlarge)).2
  rw [hframe] at hout
  rcases hout with hout | hout
  · exact absurd (h.range hf).1 (Nat.not_le.mpr hout)
  · exact absurd (h.range hf).2.1 (Nat.not_lt.mpr hout)

/-- The two upper levels hold no 2 MB pages. -/
theorem Inv.not_large (h : Inv v own) (hp : own p = some (.table r path)) (hlen : path.length < 2) :
    (v.mem p i).large = false := by
  by_contra hl
  have := (h.large hp (by omega) (Bool.eq_true_of_not_eq_false hl)).1
  omega

/-- The first page directory is always there. -/
theorem Inv.first_tables (h : Inv v own) (hr : IsRoot own r) :
    own (v.mem r 0).frame = some (.table r [0]) ∧
      own (v.mem (v.mem r 0).frame 0).frame = some (.table r [0, 0]) := by
  have hpdpt : own (v.mem r 0).frame = some (.table r [0]) := by
    rcases h.child hr (by simp) (h.spine (Or.inl hr)) (h.not_large hr (by simp)) with
      hp | ⟨-, hbad, -⟩
    · exact hp
    · cases hbad
  refine ⟨hpdpt, ?_⟩
  rcases h.child hpdpt (by simp) (h.spine (Or.inr hpdpt)) (h.not_large hpdpt (by simp)) with
    hp | ⟨-, -, hbad⟩
  · exact hp
  · exact absurd rfl hbad

/-- A property of the tables that taking a frame and hanging an empty table on an entry
keep. -/
structure KeptByTables (P : Vm → Owners → Prop) : Prop where
  alloc : ∀ {v own}, Inv v own → P v own → P (allocFrame v).1 own
  table : ∀ {v own p r i f path}, Inv v own → own p = some (.table r path) →
    path.length < 3 → (v.mem p i).present = false → Held v own f → P v own →
      P (setEntry (zeroFrame v f) p i (PTE.userRW f)) (addTable own f r (path ++ [i]))

/-- `nextTable` keeps the mappings; what it returns is the table at its place, or
a boot directory. -/
theorem nextTable_keeps {P : Vm → Owners → Prop} (hP : KeptByTables P) (h : Inv v own)
    (hp : own p = some (.table r path)) (hlen : path.length < 3) (hi : i < 512)
    (hlarge : (v.mem p i).large = false) :
    ∃ own', Prep v own (nextTable v p i).1 own' ∧ (P v own → P (nextTable v p i).1 own') ∧
      ((nextTable v p i).2 = none → (v.mem p i).present = false) ∧
      ∀ q, (nextTable v p i).2 = some q → own' q = some (.table r (path ++ [i])) ∨
        IsBootPd q ∧ (v.mem p i).present = true ∧ (v.mem p i).frame = q ∧ path = [0] := by
  unfold nextTable
  by_cases hpres : (v.mem p i).present = true
  · rw [if_pos hpres]
    refine ⟨own, h.prep, id, (by simp), ?_⟩
    rintro q ⟨⟩
    exact (h.child hp hlen hpres hlarge).imp_right fun hb => ⟨hb.1, hpres, rfl, hb.2.1⟩
  · rw [if_neg hpres]
    have hnone : (v.mem p i).present = false := Bool.eq_false_of_not_eq_true hpres
    obtain ⟨hinv, hmem, hcow, hheld, hres⟩ := inv_allocFrame h
    dsimp only
    by_cases hzero : (allocFrame v).2 = 0
    · rw [if_pos hzero]
      refine ⟨own, ⟨hinv, Grow.refl own, ?_, hcow, fun hf => (hheld _ hf).1, id⟩, hP.alloc h,
        fun _ => hnone, fun q hq => by cases hq⟩
      intro q r' path' d _ hq _
      exact ⟨hq, by rw [hmem]⟩
    · rw [if_neg hzero]
      have hf := hres.resolve_left hzero
      have hne : p ≠ (allocFrame v).2 := by
        intro heq
        rw [heq, hf.unowned] at hp
        cases hp
      have hnone' : ((allocFrame v).1.mem p i).present = false := by rwa [hmem]
      have hnew := hinv.newTable hp hlen hi hnone' hf
      refine ⟨_, ⟨hnew, ?_, ?_, hcow, ?_, ?_⟩,
        fun hpv => hP.table hinv hp hlen hnone' hf (hP.alloc h hpv), (by simp), ?_⟩
      · constructor
        · intro g r' path' hg
          rw [addTable_of_ne]
          · exact hg
          · rintro rfl
            rw [hf.unowned] at hg
            cases hg
        · intro r' hr'
          by_cases hrf : r' = (allocFrame v).2
          · rw [hrf] at hr'
            simp [addTable] at hr'
          · rwa [addTable_of_ne hrf] at hr'
      · intro q r' path' d hlen' hq hpres'
        obtain ⟨hq', he⟩ := newTable_fewer hp hlen hne q r' path' d hlen' hq hpres'
        exact ⟨hq', by rw [he, hmem]⟩
      · intro g hg
        obtain ⟨hg', hgne⟩ := hheld g hg
        exact ⟨hg'.low, hg'.high, hg'.used, by rw [addTable_of_ne hgne]; exact hg'.unowned⟩
      · intro g path' d hg
        rw [addTable_of_ne]
        · exact hg
        · rintro rfl
          rw [hf.unowned] at hg
          cases hg
      · rintro q ⟨⟩
        exact Or.inl (by simp [addTable])

/-- A mapping stops, because the address has no page table and gets none, or sets
the entry in the page table of the address. -/
theorem mapPage_keeps {P : Vm → Owners → Prop} (hP : KeptByTables P) (h : Inv v own)
    (hr : IsRoot own root) (va : Nat) (e : PTE) :
    ∃ v₁ own₁, Prep v own v₁ own₁ ∧ (P v own → P v₁ own₁) ∧
      ((mapPage v root va e = v₁ ∧ ∀ p, own p ≠ some (.table root (vaPath va))) ∨
        ∃ pt, own₁ pt = some (.table root (vaPath va)) ∧
          mapPage v root va e = setEntry v₁ pt (ptIdx va) e) := by
  obtain ⟨own₁, hprep₁, hkeep₁, hfail₁, hsome₁⟩ := nextTable_keeps hP h (i := pml4Idx va) hr (by simp)
    (Nat.mod_lt _ (by decide)) (h.not_large hr (by simp))
  unfold mapPage
  cases hn₁ : nextTable v root (pml4Idx va) with
  | mk v₁ t₁ =>
    simp only [hn₁] at hprep₁ hkeep₁ hfail₁ hsome₁
    cases t₁ with
    | none =>
        refine ⟨v₁, own₁, hprep₁, hkeep₁, Or.inl ⟨rfl, ?_⟩⟩
        intro p hp
        obtain ⟨pd, hpd⟩ := h.above [pml4Idx va, pdptIdx va] hp
        obtain ⟨pdpt, hpdpt⟩ := h.above [pml4Idx va] hpd
        have hentry := h.entry [] hpdpt hr
        exact absurd hentry.1 (by simp [hfail₁ rfl])
    | some pdpt =>
        have hpdpt : own₁ pdpt = some (.table root [pml4Idx va]) := by
          rcases hsome₁ pdpt rfl with hq | ⟨-, -, -, hbad⟩
          · exact hq
          · cases hbad
        obtain ⟨own₂, hprep₂, hkeep₂, hfail₂, hsome₂⟩ := nextTable_keeps hP hprep₁.inv
          (i := pdptIdx va) hpdpt (by simp) (Nat.mod_lt _ (by decide)) (hprep₁.inv.not_large hpdpt (by simp))
        dsimp only
        cases hn₂ : nextTable v₁ pdpt (pdptIdx va) with
        | mk v₂ t₂ =>
          simp only [hn₂] at hprep₂ hkeep₂ hfail₂ hsome₂
          cases t₂ with
          | none =>
              refine ⟨v₂, own₂, hprep₁.trans hprep₂, hkeep₂ ∘ hkeep₁, Or.inl ⟨rfl, ?_⟩⟩
              intro p hp
              obtain ⟨pd, hpd⟩ := hprep₁.inv.above [pml4Idx va, pdptIdx va]
                (hprep₁.grow.tables hp)
              have hentry := hprep₁.inv.entry [pml4Idx va] hpd hpdpt
              exact absurd hentry.1 (by simp [hfail₂ rfl])
          | some pd =>
              have hprep := hprep₁.trans hprep₂
              dsimp only
              rcases hsome₂ pd rfl with hpd | ⟨hboot, -, hframe, -⟩
              · by_cases hl : (v₂.mem pd (pdIdx va)).large = true
                · rw [if_pos hl]
                  refine ⟨v₂, own₂, hprep, hkeep₂ ∘ hkeep₁, Or.inl ⟨rfl, ?_⟩⟩
                  intro p hp
                  have hentry := hprep.inv.entry [pml4Idx va, pdptIdx va]
                    (hprep.grow.tables hp) hpd
                  exact absurd hl (by simp [hentry.2.2])
                · rw [if_neg hl]
                  obtain ⟨own₃, hprep₃, hkeep₃, hfail₃, hsome₃⟩ := nextTable_keeps hP hprep.inv
                    (i := pdIdx va) hpd (by simp) (Nat.mod_lt _ (by decide))
                    (Bool.eq_false_of_not_eq_true hl)
                  cases hn₃ : nextTable v₂ pd (pdIdx va) with
                  | mk v₃ t₃ =>
                    simp only [hn₃] at hprep₃ hkeep₃ hfail₃ hsome₃
                    cases t₃ with
                    | none =>
                        refine ⟨v₃, own₃, hprep.trans hprep₃, hkeep₃ ∘ hkeep₂ ∘ hkeep₁,
                          Or.inl ⟨rfl, ?_⟩⟩
                        intro p hp
                        have hentry := hprep.inv.entry [pml4Idx va, pdptIdx va]
                          (hprep.grow.tables hp) hpd
                        exact absurd hentry.1 (by simp [hfail₃ rfl])
                    | some pt =>
                        refine ⟨v₃, own₃, hprep.trans hprep₃, hkeep₃ ∘ hkeep₂ ∘ hkeep₁,
                          Or.inr ⟨pt, ?_, rfl⟩⟩
                        rcases hsome₃ pt rfl with hpt | ⟨-, -, -, hbad⟩
                        · exact hpt
                        · simp at hbad
              · -- Above 1 GB the boot directories hold 2 MB pages only.
                have hl := (hprep.inv.boot (i := pdIdx va) hboot (Nat.mod_lt _ (by decide))).2.1
                rw [if_pos hl]
                refine ⟨v₂, own₂, hprep, hkeep₂ ∘ hkeep₁, Or.inl ⟨rfl, ?_⟩⟩
                intro p hp
                obtain ⟨q, hq⟩ := hprep₁.inv.above [pml4Idx va, pdptIdx va]
                  (hprep₁.grow.tables hp)
                have hentry := hprep₁.inv.entry [pml4Idx va] hq hpdpt
                rw [hframe] at hentry
                have hlow := (hprep₁.inv.range hq).1
                rw [← hentry.2.1] at hlow
                exact absurd (Nat.le_trans hlow hboot.2) (by decide)

theorem mapPage_cases (h : Inv v own) (hr : IsRoot own root) (va : Nat) (e : PTE) :
    ∃ v₁ own₁, Prep v own v₁ own₁ ∧
      ((mapPage v root va e = v₁ ∧ ∀ p, own p ≠ some (.table root (vaPath va))) ∨
        ∃ pt, own₁ pt = some (.table root (vaPath va)) ∧
          mapPage v root va e = setEntry v₁ pt (ptIdx va) e) := by
  obtain ⟨v₁, own₁, hprep, -, hcases⟩ := mapPage_keeps (P := fun _ _ => True)
    ⟨fun _ _ => trivial, fun _ _ _ _ _ _ => trivial⟩ h hr va e
  exact ⟨v₁, own₁, hprep, hcases⟩

/-! ## Mapping a page -/

/-- A frame that may be mapped at a place: one of the reserved frames, a held
frame, or the page of that place with a counter to spare. -/
def Ready (v : Vm) (own : Owners) (f : Nat) (path : List Nat) (d : Nat) : Prop :=
  f < reservedFrames ∨ Held v own f ∨
    own f = some (.page path d) ∧ (mappers v own f path d).card + 1 ≤ v.cow f

theorem Prep.ready {v' : Vm} (h : Prep v own v' own') (hlen : path.length = 3)
    (hf : Ready v own f path d) : Ready v' own' f path d := by
  rcases hf with hlow | hheld | ⟨hpage, hcard⟩
  · exact Or.inl hlow
  · exact Or.inr (Or.inl (h.held hheld))
  · refine Or.inr (Or.inr ⟨h.pages hpage, ?_⟩)
    rw [h.cow]
    exact (Nat.add_le_add_right (Finset.card_le_card (h.fewer.mappers_subset hlen)) 1).trans hcard

/-- A leaf entry can be set to a frame that is ready. -/
theorem setReady (h : Inv v own) (hp : own p = some (.table r path)) (hlen : path.length = 3)
    (hd : d < 512) (he : Ready v own e.frame path d) :
    ∃ own', Inv (setEntry v p d e) own' ∧ Grow own own' ∧
      ∀ {q r' path'}, own' q = some (.table r' path') → own q = some (.table r' path') := by
  rcases he with hlow | hheld | ⟨hpage, hcard⟩
  · exact ⟨own, h.setLeaf hp hlen fun _ => Or.inl hlow, Grow.refl own, id⟩
  · obtain ⟨hinv, hempty⟩ := h.adopt hheld hp hlen hd
    refine ⟨_, hinv.setLeaf ((adopt_table hheld.unowned).mpr hp) hlen fun _ => ?_,
      ⟨(adopt_table hheld.unowned).mpr, (adopt_table hheld.unowned).mp⟩,
      (adopt_table hheld.unowned).mp⟩
    refine Or.inr ⟨by simp, fun htwo => ?_⟩
    rw [hempty] at htwo
    simp at htwo
  · refine ⟨own, h.setLeaf hp hlen fun _ => Or.inr ⟨hpage, fun _ => ?_⟩, Grow.refl own, id⟩
    exact (Finset.card_insert_le _ _).trans hcard

theorem mapPage_inv (h : Inv v own) (hr : IsRoot own root)
    (he : Ready v own e.frame (vaPath va) (ptIdx va)) :
    ∃ own', Inv (mapPage v root va e) own' ∧ Grow own own' := by
  obtain ⟨v₁, own₁, hprep, ⟨heq, -⟩ | ⟨pt, hpt, heq⟩⟩ := mapPage_cases h hr va e
  · rw [heq]
    exact ⟨own₁, hprep.inv, hprep.grow⟩
  · rw [heq]
    obtain ⟨own₂, hinv, hgrow, -⟩ := setReady hprep.inv hpt rfl (Nat.mod_lt _ (by decide))
      (hprep.ready rfl he)
    exact ⟨own₂, hinv, hprep.grow.trans hgrow⟩

/-- Taking a frame and mapping it at once. -/
theorem mapFresh_inv (h : Inv v own) (va : Nat) {w : Vm} (hr : IsRoot own root)
    (hw : w = (allocFrame v).1 ∨ w = zeroFrame (allocFrame v).1 (allocFrame v).2) :
    ∃ own', Inv (mapPage w root va (PTE.userRW (allocFrame v).2)) own' ∧ Grow own own' := by
  obtain ⟨hinv, -, -, -, hres⟩ := inv_allocFrame h
  have hunowned : own (allocFrame v).2 = none := by
    rcases hres with hzero | hheld
    · cases ho : own (allocFrame v).2 with
      | none => rfl
      | some o =>
          have := (h.range ho).1
          rw [hzero] at this
          exact absurd this (by decide)
    · exact hheld.unowned
  have hready : Ready w own (allocFrame v).2 (vaPath va) (ptIdx va) := by
    rcases hres with hzero | hheld
    · rw [hzero]
      exact Or.inl (by decide)
    · rcases hw with rfl | rfl
      · exact Or.inr (Or.inl hheld)
      · exact Or.inr (Or.inl ⟨hheld.low, hheld.high, hheld.used, hheld.unowned⟩)
  have hboot : ¬ IsBootPd (allocFrame v).2 := by
    rcases hres with hzero | hheld
    · rw [hzero]
      exact fun hb => absurd hb.1 (by decide)
    · exact hheld.not_boot
  rcases hw with rfl | rfl
  · exact mapPage_inv hinv hr hready
  · exact mapPage_inv (inv_zeroFrame hinv hunowned hboot) hr hready

/-! ## Walking -/

theorem Inv.root_pos (h : Inv v own) (hr : IsRoot own r) : r ≠ 0 := by
  rintro rfl
  exact absurd (h.range hr).1 (by decide)

theorem tableAt_eq_some {q : Nat} :
    tableAt v p i = some q ↔ (v.mem p i).present = true ∧ (v.mem p i).frame = q := by
  simp [tableAt]

/-- The directory a walk finds is the one of the address space, or a boot
directory. -/
theorem Inv.pdOf_spec (h : Inv v own) {pd : Nat} (hr : IsRoot own r) (hpd : pdOf v r va = some pd) :
    own pd = some (.table r [pml4Idx va, pdptIdx va]) ∨ IsBootPd pd := by
  obtain ⟨pdpt, h₁, h₂⟩ := Option.bind_eq_some_iff.mp hpd
  obtain ⟨hpres₁, rfl⟩ := tableAt_eq_some.mp h₁
  obtain ⟨hpres₂, rfl⟩ := tableAt_eq_some.mp h₂
  rcases h.child hr (by simp) hpres₁ (h.not_large hr (by simp)) with hpdpt | ⟨-, hbad, -⟩
  · exact (h.child hpdpt (by simp) hpres₂ (h.not_large hpdpt (by simp))).imp_right And.left
  · cases hbad

theorem Inv.ptOf_spec (h : Inv v own) (hr : IsRoot own r) (hpt : ptOf v r va = some pt) :
    own pt = some (.table r (vaPath va)) := by
  obtain ⟨pd, hpd, hentry⟩ := Option.bind_eq_some_iff.mp hpt
  by_cases hl : (v.mem pd (pdIdx va)).large = true
  · rw [if_pos hl] at hentry
    cases hentry
  · rw [if_neg hl] at hentry
    obtain ⟨hpres, rfl⟩ := tableAt_eq_some.mp hentry
    rcases h.pdOf_spec hr hpd with hown | hboot
    · rcases h.child hown (by simp) hpres (Bool.eq_false_of_not_eq_true hl) with hc | ⟨-, hbad, -⟩
      · exact hc
      · simp at hbad
    · exact absurd (h.boot hboot (Nat.mod_lt _ (by decide))).2.1 hl

/-- The walk finds the page table that the address space owns. -/
theorem Inv.ptOf_of_own (h : Inv v own) (hp : own p = some (.table r (vaPath va))) :
    ptOf v r va = some p := by
  obtain ⟨pd, hpd⟩ := h.above [pml4Idx va, pdptIdx va] hp
  obtain ⟨pdpt, hpdpt⟩ := h.above [pml4Idx va] hpd
  have h₁ := h.entry [] hpdpt (h.rooted hp)
  have h₂ := h.entry [pml4Idx va] hpd hpdpt
  have h₃ := h.entry [pml4Idx va, pdptIdx va] hp hpd
  have hpdOf : pdOf v r va = some pd := by
    simp [pdOf, tableAt, h₁.1, h₁.2.1, h₂.1, h₂.2.1]
  simp [ptOf, hpdOf, tableAt, h₃.1, h₃.2.1, h₃.2.2]

/-- What `vmm_get_phys` finds: a frame outside the bitmap's range, or the page in
the page table of the address. -/
theorem Inv.getPhys_spec (h : Inv v own) (hr : IsRoot own r) (va : Nat) :
    OutOfRange (getPhys v r va) ∨ ∃ pt, own pt = some (.table r (vaPath va)) ∧
      ptOf v r va = some pt ∧ (v.mem pt (ptIdx va)).present = true ∧
      (v.mem pt (ptIdx va)).frame = getPhys v r va := by
  have hzero : OutOfRange 0 := Or.inl (by decide)
  unfold getPhys
  rw [if_neg (h.root_pos hr)]
  cases hpd : pdOf v r va with
  | none => exact Or.inl hzero
  | some pd =>
      dsimp only
      by_cases hpres : (v.mem pd (pdIdx va)).present = true
      · simp only [hpres, Bool.not_true, Bool.false_eq_true, if_false]
        by_cases hl : (v.mem pd (pdIdx va)).large = true
        · left
          simp only [hl, if_true]
          have hout : OutOfRange (v.mem pd (pdIdx va)).frame := by
            rcases h.pdOf_spec hr hpd with hown | hboot
            · exact (h.large hown (by simp) hl).2
            · exact (h.boot hboot (Nat.mod_lt _ (by decide))).2.2
          have hidx : ptIdx va < 512 := Nat.mod_lt _ (by decide)
          simp only [OutOfRange, reservedFrames, totalFrames] at hout ⊢
          omega
        · have hpt : ptOf v r va = some (v.mem pd (pdIdx va)).frame := by
            simp [ptOf, hpd, hl, tableAt, hpres]
          simp only [hl, Bool.false_eq_true, if_false]
          by_cases hleaf : (v.mem (v.mem pd (pdIdx va)).frame (ptIdx va)).present = true
          · right
            exact ⟨_, h.ptOf_spec hr hpt, hpt, hleaf, by simp [hleaf]⟩
          · left
            simpa [hleaf] using hzero
      · left
        simpa [hpres] using hzero

/-- A page found in a page table is what `vmm_get_phys` returns. -/
theorem Inv.getPhys_of_entry (h : Inv v own) (hpt : own pt = some (.table r (vaPath va)))
    (hpres : (v.mem pt (ptIdx va)).present = true) :
    getPhys v r va = (v.mem pt (ptIdx va)).frame := by
  have hwalk := h.ptOf_of_own hpt
  obtain ⟨pd, hpd, hentry⟩ := Option.bind_eq_some_iff.mp hwalk
  by_cases hl : (v.mem pd (pdIdx va)).large = true
  · rw [if_pos hl] at hentry
    cases hentry
  · rw [if_neg hl] at hentry
    obtain ⟨hpd', rfl⟩ := tableAt_eq_some.mp hentry
    simp [getPhys, h.root_pos (h.rooted hpt), hpd, hpd', hl, hpres]

/-! ## Pages with one mapping -/

/-- The page at an address, if any, is mapped nowhere else. -/
def Sole (v : Vm) (own : Owners) (r va : Nat) : Prop :=
  ∀ p, own p = some (.table r (vaPath va)) → (v.mem p (ptIdx va)).present = true →
    reservedFrames ≤ (v.mem p (ptIdx va)).frame →
      mappers v own (v.mem p (ptIdx va)).frame (vaPath va) (ptIdx va) ⊆ {p}

theorem Sole.of_fewer {v' : Vm} (h : Sole v own r va) (hfew : Fewer v own v' own') :
    Sole v' own' r va := by
  intro p hp hpres hlow
  obtain ⟨hp', he⟩ := hfew p r (vaPath va) (ptIdx va) rfl hp hpres
  rw [he] at hpres hlow ⊢
  exact (hfew.mappers_subset rfl).trans (h p hp' hpres hlow)

/-- Setting an entry to a frame that nothing maps. -/
theorem Sole.setFresh (h : Inv v own) (hp : own p = some (.table r path))
    (he : e.frame < reservedFrames ∨ Held v own e.frame)
    (hold : ∀ {q r' path'}, own' q = some (.table r' path') → own q = some (.table r' path'))
    {r' : Nat} (hs : Sole v own r' va ∨ r' = r ∧ vaPath va = path ∧ ptIdx va = d) :
    Sole (setEntry v p d e) own' r' va := by
  intro q hq hpres hlow q' hq'
  obtain ⟨-, ⟨r'', hown'⟩, hpres', hframe'⟩ := mem_mappers.mp hq'
  rw [Finset.mem_singleton]
  by_cases hqd : q = p ∧ ptIdx va = d
  · rw [hqd.1, hqd.2, setEntry_same] at hlow hframe'
    by_contra hne
    have hqd' : ¬ (q' = p ∧ ptIdx va = d) := fun hc => hne (hc.1.trans hqd.1.symm)
    rw [hqd.2] at hpres' hqd'
    rw [setEntry_other hqd'] at hpres' hframe'
    rcases he with hlt | hheld
    · exact absurd hlow (Nat.not_le.mpr hlt)
    · exact h.not_mapped hheld.unowned hheld.low (hold hown') rfl hpres' hframe'
  · rw [setEntry_other hqd] at hpres hlow hframe'
    have hs' : Sole v own r' va := by
      rcases hs with hs | ⟨rfl, rfl, rfl⟩
      · exact hs
      · exact absurd ⟨h.table_unique (hold hq) hp, rfl⟩ hqd
    by_cases hqd' : q' = p ∧ ptIdx va = d
    · rw [hqd'.1, hqd'.2, setEntry_same] at hframe'
      rw [hqd'.2] at hpres hlow
      rcases he with hlt | hheld
      · rw [hframe'] at hlt
        exact absurd hlow (Nat.not_le.mpr hlt)
      · exact absurd hframe'.symm
          (h.not_mapped hheld.unowned hheld.low (hold hq) rfl hpres)
    · rw [setEntry_other hqd'] at hpres' hframe'
      have hmem : q' ∈ mappers v own (v.mem q (ptIdx va)).frame (vaPath va) (ptIdx va) :=
        mem_mappers.mpr ⟨⟨(h.range (hold hown')).1, (h.range (hold hown')).2.1⟩,
          ⟨r'', hold hown'⟩, hpres', hframe'⟩
      exact Finset.mem_singleton.mp (hs' q (hold hq) hpres hlow hmem)

/-- Mapping a held frame leaves it, and every page that was mapped once, mapped
once. -/
theorem mapPage_sole (h : Inv v own) (va : Nat) (hr : IsRoot own root) (he : Held v own e.frame) :
    ∃ own', Inv (mapPage v root va e) own' ∧ Grow own own' ∧
      Sole (mapPage v root va e) own' root va ∧
      ∀ va', Sole v own root va' → Sole (mapPage v root va e) own' root va' := by
  obtain ⟨v₁, own₁, hprep, ⟨heq, hnone⟩ | ⟨pt, hpt, heq⟩⟩ := mapPage_cases h hr va e
  · rw [heq]
    have hvac : Sole v own root va := fun p hp => absurd hp (hnone p)
    exact ⟨own₁, hprep.inv, hprep.grow, hvac.of_fewer hprep.fewer,
      fun va' hs => hs.of_fewer hprep.fewer⟩
  · rw [heq]
    have hheld := hprep.held he
    obtain ⟨own₂, hinv, hgrow, hold⟩ := setReady hprep.inv (e := e) hpt rfl
      (Nat.mod_lt (va / 2 ^ 12) (by decide)) (Or.inr (Or.inl hheld))
    refine ⟨own₂, hinv, hprep.grow.trans hgrow, ?_, ?_⟩
    · exact Sole.setFresh hprep.inv hpt (Or.inr hheld) hold (Or.inr ⟨rfl, rfl, rfl⟩)
    · intro va' hs
      exact Sole.setFresh hprep.inv hpt (Or.inr hheld) hold (Or.inl (hs.of_fewer hprep.fewer))

/-! ## Unmapping and releasing -/

theorem Inv.unmapPage_none (h : Inv v own) (hr : IsRoot own r) (hwalk : ptOf v r va = none) :
    unmapPage v r va = v := by
  simp [unmapPage, h.root_pos hr, hwalk]

theorem Inv.unmapPage_some (h : Inv v own) (hr : IsRoot own r) (hwalk : ptOf v r va = some pt) :
    unmapPage v r va = setEntry v pt (ptIdx va) PTE.zero := by
  simp [unmapPage, h.root_pos hr, hwalk]

theorem unmapRange_succ (v : Vm) (r va n : Nat) :
    unmapRange v r va (n + 1) = unmapFree (unmapRange v r va n) r (va + n * 0x1000) := by
  simp [unmapRange, List.range_succ]

/-- Releasing the page at an address where it is the only mapping. -/
theorem unmapFree_inv (h : Inv v own) (hr : IsRoot own r) (hs : Sole v own r va) :
    ∃ own', Inv (unmapFree v r va) own' ∧ Grow own own' ∧
      Fewer v own (unmapFree v r va) own' := by
  have hskip : OutOfRange (getPhys v r va) → unmapFree v r va = unmapPage v r va := by
    intro hout
    unfold unmapFree
    dsimp only
    split
    · exact freeFrame_outOfRange hout
    · rfl
  have hclear {pt : Nat} (hpt : own pt = some (.table r (vaPath va))) :
      Inv (setEntry v pt (ptIdx va) PTE.zero) own :=
    h.setLeaf hpt rfl fun hc => by cases hc
  rcases h.getPhys_spec hr va with hout | ⟨pt, hpt, hwalk, hpres, hframe⟩
  · rw [hskip hout]
    cases hwalk : ptOf v r va with
    | none =>
        rw [h.unmapPage_none hr hwalk]
        exact ⟨own, h, Grow.refl own, h.prep.fewer⟩
    | some pt =>
        rw [h.unmapPage_some hr hwalk]
        exact ⟨own, hclear (h.ptOf_spec hr hwalk), Grow.refl own, clearLeaf_fewer⟩
  · by_cases hout : OutOfRange (getPhys v r va)
    · rw [hskip hout, h.unmapPage_some hr hwalk]
      exact ⟨own, hclear hpt, Grow.refl own, clearLeaf_fewer⟩
    · have hlow : reservedFrames ≤ getPhys v r va := Nat.le_of_not_lt fun hlt => hout (Or.inl hlt)
      have hpage : own (getPhys v r va) = some (.page (vaPath va) (ptIdx va)) := by
        have := h.leaf hpt rfl hpres
        rw [hframe] at this
        exact this.resolve_left (Nat.not_lt.mpr hlow)
      have hsole := hs pt hpt hpres (by rwa [hframe])
      rw [hframe] at hsole
      -- The only mapping is the one that is cleared.
      have hempty : mappers (setEntry v pt (ptIdx va) PTE.zero) own (getPhys v r va) (vaPath va)
          (ptIdx va) = ∅ := by
        apply Finset.eq_empty_of_forall_notMem
        intro q hq
        have hqpt : q = pt :=
          Finset.mem_singleton.mp (hsole (clearLeaf_fewer.mappers_subset rfl hq))
        have := (mem_mappers.mp hq).2.2.1
        rw [hqpt, setEntry_same] at this
        cases this
      have heq : unmapFree v r va =
          freeFrame (setEntry v pt (ptIdx va) PTE.zero) (getPhys v r va) := by
        unfold unmapFree
        dsimp only
        rw [h.unmapPage_some hr hwalk, if_pos (Nat.le_trans (by decide) hlow)]
      have htable {f r' : Nat} {path' : List Nat} (hf : own f = some (.table r' path')) :
          f ≠ getPhys v r va := by
        rintro rfl
        rw [hpage] at hf
        cases hf
      have hold {f r' : Nat} {path' : List Nat}
          (hf : Function.update own (getPhys v r va) none f = some (.table r' path')) :
          own f = some (.table r' path') := by
        by_cases hfg : f = getPhys v r va
        · subst hfg
          simp at hf
        · rwa [Function.update_of_ne hfg] at hf
      rw [heq]
      refine ⟨_, (hclear hpt).freePage hpage hempty,
        ⟨fun hf => by rwa [Function.update_of_ne (htable hf)], hold⟩, ?_⟩
      intro q r' path' d hlen hq hpres'
      have hmem : (freeFrame (setEntry v pt (ptIdx va) PTE.zero) (getPhys v r va)).mem =
          (setEntry v pt (ptIdx va) PTE.zero).mem := by
        unfold freeFrame
        split <;> rfl
      rw [hmem] at hpres' ⊢
      exact clearLeaf_fewer q r' path' d hlen (hold hq) hpres'

/-- Releasing a range of pages, each the only mapping of its frame: the mappings of the others
stay as they were, or go. -/
theorem unmapRange_fewer (h : Inv v own) {n : Nat} (hr : IsRoot own r)
    (hs : ∀ k < n, Sole v own r (va + k * 0x1000)) :
    ∃ own', Inv (unmapRange v r va n) own' ∧ Grow own own' ∧
      Fewer v own (unmapRange v r va n) own' := by
  induction n with
  | zero => exact ⟨own, h, Grow.refl own, h.prep.fewer⟩
  | succ n ih =>
      obtain ⟨own₁, hinv₁, hgrow₁, hfew₁⟩ := ih fun k hk => hs k (Nat.lt_succ_of_lt hk)
      have hsole := (hs n (Nat.lt_succ_self n)).of_fewer hfew₁
      obtain ⟨own₂, hinv₂, hgrow₂, hfew₂⟩ := unmapFree_inv hinv₁ (hgrow₁.tables hr) hsole
      rw [unmapRange_succ]
      refine ⟨own₂, hinv₂, hgrow₁.trans hgrow₂, ?_⟩
      intro q r' path d hlen hq hpres
      obtain ⟨hq₁, he₁⟩ := hfew₂ q r' path d hlen hq hpres
      obtain ⟨hq₀, he₀⟩ := hfew₁ q r' path d hlen hq₁ (by rwa [he₁] at hpres)
      exact ⟨hq₀, he₁.trans he₀⟩

theorem unmapRange_inv (h : Inv v own) {n : Nat} (hr : IsRoot own r)
    (hs : ∀ k < n, Sole v own r (va + k * 0x1000)) :
    ∃ own', Inv (unmapRange v r va n) own' ∧ Grow own own' :=
  (unmapRange_fewer h hr hs).imp fun _ ho => ⟨ho.1, ho.2.1⟩

end OriaOS.Vmm
