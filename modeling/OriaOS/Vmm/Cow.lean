import OriaOS.Vmm.Spaces

/-!
# Copy-on-write keeps the invariant

`vmm_copy_cow` adds two to the counter of a page for one more mapper, and the
byte stops at 255. That is enough because an address space maps a page at most
once, so a page has no more mappers than there are address spaces.
-/

namespace OriaOS.Vmm

variable {roots : Finset Nat} {child i parent r : Nat}
variable {v : Vm} {own : Owners}

/-! ## The number of mappers -/

/-- Every live address space is in `roots`. -/
def RootsIn (own : Owners) (roots : Finset Nat) : Prop := ∀ {r}, IsRoot own r → r ∈ roots

theorem RootsIn.of_grow {own' : Owners} (h : RootsIn own roots) (hgrow : Grow own own') :
    RootsIn own' roots :=
  fun hr => h (hgrow.roots hr)

/-- An address space has one page table at a place, so it maps a page once. -/
theorem Inv.card_mappers_le (h : Inv v own) (hroots : RootsIn own roots) (g : Nat)
    (path : List Nat) (d : Nat) : (mappers v own g path d).card ≤ roots.card := by
  classical
  have htable (p : Nat) (hp : p ∈ mappers v own g path d) : ∃ r, own p = some (.table r path) :=
    (mem_mappers.mp hp).2.1
  choose! root hroot using htable
  apply Finset.card_le_card_of_injOn root
  · intro p hp
    exact hroots (h.rooted (hroot p hp))
  · intro p hp q hq heq
    have hq' := hroot q hq
    rw [← heq] at hq'
    exact h.table_unique (hroot p hp) hq'

/-! ## Sharing -/

theorem bumpCow_setEntry (f p i : Nat) (e : PTE) :
    bumpCow (setEntry v p i e) f = setEntry (bumpCow v f) p i e := rfl

/-- The counter after a fork covers the mappers and one more. -/
theorem Inv.bump (h : Inv v own) (hroots : RootsIn own roots) (hcard : roots.card ≤ 254) (f : Nat) :
    Inv (bumpCow v f) own ∧
      ∀ {path d}, own f = some (.page path d) →
        (mappers (bumpCow v f) own f path d).card + 1 ≤ (bumpCow v f).cow f := by
  have hmany (path : List Nat) (d : Nat) :=
    (h.card_mappers_le hroots f path d).trans hcard
  have hcover {path : List Nat} {d : Nat} (hf : own f = some (.page path d)) :
      (mappers v own f path d).card + 1 ≤ if v.cow f < 254 then v.cow f + 2 else 255 := by
    have hshared := h.shared hf
    have := hmany path d
    split <;> omega
  constructor
  · apply h.setCow
    · have := h.byte f
      split <;> omega
    · intro path d hf _
      exact (Nat.le_succ _).trans (hcover hf)
  · intro path d hf
    change (mappers v own f path d).card + 1 ≤ _
    simpa [bumpCow] using hcover hf

/-- The same frame again, with other flags. -/
theorem Inv.reflag (h : Inv v own) {p d : Nat} {path : List Nat} {e : PTE}
    (hp : own p = some (.table r path)) (hlen : path.length = 3)
    (hpres : (v.mem p d).present = true) (he : e.frame = (v.mem p d).frame) :
    Inv (setEntry v p d e) own := by
  apply h.setLeaf hp hlen
  intro _
  rw [he]
  rcases h.leaf hp hlen hpres with hlow | hpage
  · exact Or.inl hlow
  · right
    rw [Finset.insert_eq_of_mem (h.mem_mappers_of_entry hp hpres)]
    exact ⟨hpage, h.shared hpage⟩

/-- The address that `vmm_copy_cow` computes from its loop counters. -/
theorem vaPath_of_indices {j : Nat} (hi : i < 512) (hj : j < 512) :
    vaPath (i * 2 ^ 21 + j * 2 ^ 12) = [0, 0, i] ∧ ptIdx (i * 2 ^ 21 + j * 2 ^ 12) = j := by
  simp only [vaPath, pml4Idx, pdptIdx, pdIdx, ptIdx, List.cons.injEq, and_true]
  omega

theorem sharePage_inv (h : Inv v own) (hroots : RootsIn own roots) (hcard : roots.card ≤ 254)
    {pt j : Nat} (hchild : IsRoot own child) (hpt : own pt = some (.table parent [0, 0, i]))
    (hi : i < 512) (hj : j < 512) :
    ∃ own', Inv (sharePage v child pt i j) own' ∧ Grow own own' := by
  unfold sharePage
  dsimp only
  split
  · exact ⟨own, h, Grow.refl own⟩
  rename_i hskip
  simp only [Bool.or_eq_true, Bool.not_eq_true', decide_eq_true_eq, not_or, Bool.not_eq_false]
    at hskip
  obtain ⟨hpres, hlow⟩ := hskip
  have hpage := (h.leaf hpt rfl hpres).resolve_left hlow
  have h₁ := h.reflag (e := PTE.userCOW (v.mem pt j).frame) hpt rfl hpres rfl
  generalize (v.mem pt j).frame = f at *
  rw [if_pos (h.range hpage).2.1]
  obtain ⟨hpath, hidx⟩ := vaPath_of_indices hi hj
  obtain ⟨v₂, own₂, hprep, ⟨heq, -⟩ | ⟨pt', hpt', heq⟩⟩ :=
    mapPage_cases h₁ hchild (i * 2 ^ 21 + j * 2 ^ 12) (PTE.userCOW f)
  · rw [heq]
    exact ⟨own₂, (hprep.inv.bump (hroots.of_grow hprep.grow) hcard f).1, hprep.grow⟩
  · rw [heq, bumpCow_setEntry]
    obtain ⟨hbump, hcover⟩ := hprep.inv.bump (hroots.of_grow hprep.grow) hcard f
    have hpage₂ := hprep.pages hpage
    rw [hpath] at hpt'
    rw [hidx]
    have hready : Ready (bumpCow v₂ f) own₂ (PTE.userCOW f).frame [0, 0, i] j :=
      Or.inr (Or.inr ⟨hpage₂, hcover hpage₂⟩)
    obtain ⟨own₃, hinv, hgrow, -⟩ := setReady hbump hpt' rfl hj hready
    exact ⟨own₃, hinv, hprep.grow.trans hgrow⟩

/-- A loop whose body keeps a property and lets the ownership grow. -/
theorem foldl_grow {α : Type*} {P : Vm → Owners → Prop} {body : Vm → α → Vm} {items : List α}
    (hbody : ∀ {w o a}, a ∈ items → P w o → Grow own o →
      ∃ o', P (body w a) o' ∧ Grow o o') (h : P v own) :
    ∃ own', P (items.foldl body v) own' ∧ Grow own own' := by
  suffices hmain : ∀ {w : Vm} {o : Owners} (l : List α), (∀ a ∈ l, a ∈ items) → P w o →
      Grow own o → ∃ own', P (l.foldl body w) own' ∧ Grow own own' from
    hmain items (fun _ ha => ha) h (Grow.refl own)
  intro w o l
  induction l generalizing w o with
  | nil => exact fun _ hw hgrow => ⟨o, hw, hgrow⟩
  | cons a l ih =>
      intro hl hw hgrow
      obtain ⟨o', hw', hgrow'⟩ := hbody (hl a (by simp)) hw hgrow
      exact ih (fun b hb => hl b (List.mem_cons_of_mem _ hb)) hw' (hgrow.trans hgrow')

theorem shareTable_inv (h : Inv v own) (hroots : RootsIn own roots) (hcard : roots.card ≤ 254)
    {pd : Nat} (hchild : IsRoot own child) (hpd : own pd = some (.table parent [0, 0]))
    (hi : i < 512) : ∃ own', Inv (shareTable v child pd i) own' ∧ Grow own own' := by
  unfold shareTable
  dsimp only
  split
  · exact ⟨own, h, Grow.refl own⟩
  rename_i hskip
  simp only [Bool.or_eq_true, Bool.not_eq_true', not_or, Bool.not_eq_false,
    Bool.not_eq_true] at hskip
  have hpt : own (v.mem pd i).frame = some (.table parent [0, 0, i]) := by
    rcases h.child hpd (by simp) hskip.1 hskip.2 with hp | ⟨-, hbad, -⟩
    · exact hp
    · cases hbad
  apply foldl_grow _ h
  intro w o j hj hw hgrow
  exact sharePage_inv hw (hroots.of_grow hgrow) hcard (hgrow.tables hchild) (hgrow.tables hpt) hi
    (List.mem_range.mp hj)

/-- `vmm_copy_cow`. -/
theorem copyCow_inv (h : Inv v own) (hroots : RootsIn own roots) (hcard : roots.card ≤ 254)
    (hparent : IsRoot own parent) (hchild : IsRoot own child) :
    ∃ own', Inv (copyCow v parent child) own' ∧ Grow own own' := by
  unfold copyCow
  rw [if_neg (by simp [h.root_pos hparent, h.root_pos hchild])]
  obtain ⟨-, hpd⟩ := h.first_tables hparent
  simp only [h.spine (Or.inl hparent), h.spine (Or.inr (h.first_tables hparent).1), Bool.not_true,
    Bool.false_eq_true, if_false]
  apply foldl_grow _ h
  intro w o i hi hw hgrow
  exact shareTable_inv hw (hroots.of_grow hgrow) hcard (hgrow.tables hchild) (hgrow.tables hpd)
    (List.mem_range.mp hi)

/-! ## The write fault -/

/-- A mapping moves to a new frame, and the old frame has one mapper less. -/
theorem Inv.replacePage (h : Inv v own) {p d : Nat} {path : List Nat} {e : PTE}
    (hp : own p = some (.table r path)) (hlen : path.length = 3) (hd : d < 512)
    (hpres : (v.mem p d).present = true) (hheld : Held v own e.frame) :
    Inv { setEntry v p d e with
          cow := Function.update v.cow (v.mem p d).frame (v.cow (v.mem p d).frame - 1) }
      (Function.update own e.frame (some (.page path d))) := by
  obtain ⟨hadopt, hempty⟩ := h.adopt hheld hp hlen hd
  have hp' : Function.update own e.frame (some (.page path d)) p = some (.table r path) :=
    (adopt_table hheld.unowned).mpr hp
  have hne := h.not_mapped hheld.unowned hheld.low hp hlen hpres
  have hset : Inv (setEntry v p d e) (Function.update own e.frame (some (.page path d))) := by
    apply hadopt.setLeaf hp' hlen
    intro _
    refine Or.inr ⟨by simp, fun htwo => ?_⟩
    rw [hempty] at htwo
    simp at htwo
  apply hset.setCow
  · exact (Nat.sub_le _ _).trans (h.byte _)
  · intro path' d' hpage' htwo
    rw [Function.update_of_ne hne] at hpage'
    have hpage := (h.leaf hp hlen hpres).resolve_left
      (Nat.not_lt.mpr (h.range hpage').1)
    rw [hpage] at hpage'
    cases hpage'
    have hsub : mappers (setEntry v p d e) (Function.update own e.frame (some (.page path d)))
        (v.mem p d).frame path d ⊆ (mappers v own (v.mem p d).frame path d).erase p := by
      intro q hq
      obtain ⟨hrange, ⟨r', hq'⟩, hentry⟩ := mem_mappers.mp hq
      by_cases hqp : q = p
      · rw [hqp, setEntry_same] at hentry
        exact absurd hentry.2.symm hne
      · rw [setEntry_other fun hc => hqp hc.1] at hentry
        exact Finset.mem_erase.mpr ⟨hqp,
          mem_mappers.mpr ⟨hrange, ⟨r', (adopt_table hheld.unowned).mp hq'⟩, hentry⟩⟩
    have := h.spare_of_lost hpage (h.mem_mappers_of_entry hp hpres) hsub (by omega)
    omega

/-- `vmm_cow_fault`. -/
theorem cowFault_inv (h : Inv v own) (hr : IsRoot own r) (va : Nat) :
    ∃ own', Inv (cowFault v r va).1 own' ∧ Grow own own' := by
  unfold cowFault
  rw [if_neg (h.root_pos hr)]
  cases hwalk : ptOf v r va with
  | none => exact ⟨own, h, Grow.refl own⟩
  | some pt =>
      have hpt := h.ptOf_spec hr hwalk
      dsimp only
      split
      · exact ⟨own, h, Grow.refl own⟩
      rename_i hflags
      simp only [Bool.or_eq_true, Bool.not_eq_true', not_or, Bool.not_eq_false] at hflags
      split
      · rename_i hshared
        obtain ⟨h₁, hmem, hcow, -, hres⟩ := inv_allocFrame h
        split
        · exact ⟨own, h₁, Grow.refl own⟩
        · rename_i hnz
          have hheld := hres.resolve_left hnz
          have hd : ptIdx va < 512 := Nat.mod_lt _ (by decide)
          have heq : (allocFrame v).1.mem pt (ptIdx va) = v.mem pt (ptIdx va) := by rw [hmem]
          have hinv := h₁.replacePage (e := PTE.userRW (allocFrame v).2) hpt rfl hd
            (by rw [heq]; exact hflags.1) hheld
          rw [heq] at hinv
          exact ⟨_, hinv, (adopt_table hheld.unowned).mpr, (adopt_table hheld.unowned).mp⟩
      · exact ⟨own, h.reflag hpt rfl hflags.1 rfl, Grow.refl own⟩

end OriaOS.Vmm
