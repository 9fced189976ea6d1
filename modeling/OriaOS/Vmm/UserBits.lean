import OriaOS.Vmm.Leaves

/-!
# The entries that a program can use

The processor lets a program through an entry only with the user bit, at every level.
What `vmm_create_page_dir` and `vmm_map_page` put into the tables of a live address space
is described entry by entry, and shown to stay so over the calls.

An ownership map is determined by the tables and the page directories in use, so the
description is carried from one state to the next for any map that fits.
-/

namespace OriaOS.Vmm

variable {path : List Nat} {child i p parent r root va : Nat}
variable {v v' : Vm} {own own' : Owners}

/-- What entry `i` of the table at a path may be. The first 8 MB are given to the user in
2 MB pages; all other frames it gets come from the bitmap. -/
structure UserBits (path : List Nat) (i : Nat) (e : PTE) : Prop where
  low : path = [0, 0] → i < 4 → e = PTE.userLarge (i * 512)
  spine : path = [] ∨ path = [0] → i = 0 → e.user = true
  table : path.length < 3 → e.present = true → e.large = false → e.user = true →
    ¬ IsBootPd e.frame
  large : path.length < 3 → e.large = true → e.user = true → path = [0, 0] ∧ i < 4
  leaf : path.length = 3 → e.present = true → reservedFrames ≤ e.frame

/-- The tables of the live address spaces have such entries only. -/
def UserTables (v : Vm) (own : Owners) : Prop :=
  ∀ ⦃p r path⦄ i, own p = some (.table r path) → UserBits path i (v.mem p i)

/-! ## One entry -/

/-- A page table may have any entry that leads to a frame of the bitmap's range. -/
theorem userBits_leaf {e : PTE} (hlen : path.length = 3)
    (he : e.present = true → reservedFrames ≤ e.frame) : UserBits path i e where
  low := by
    rintro rfl
    cases hlen
  spine := by
    rintro (rfl | rfl)
    · cases hlen
    · cases hlen
  table := fun hlt => absurd hlt (by omega)
  large := fun hlt => absurd hlt (by omega)
  leaf := fun _ => he

/-- An upper table may have an empty entry, but for those of the first page directory. -/
theorem userBits_zero (hlow : path ≠ [0, 0]) (hspine : path = [] ∨ path = [0] → i ≠ 0) :
    UserBits path i PTE.zero where
  low := fun hpath => absurd hpath hlow
  spine := fun hpath hi => absurd hi (hspine hpath)
  table := by
    rintro - ⟨⟩
  large := by
    rintro - ⟨⟩
  leaf := by
    rintro - ⟨⟩

/-- An upper table may lead to a table in the bitmap's range. -/
theorem userBits_userRW {f : Nat} (hlen : path.length < 3) (hlow : path = [0, 0] → 4 ≤ i)
    (hf : reservedFrames ≤ f) :
    UserBits path i (PTE.userRW f) where
  low := fun hpath hi => absurd hi (Nat.not_lt.mpr (hlow hpath))
  spine := fun _ _ => rfl
  table := by
    rintro - - - - hboot
    exact absurd (Nat.le_trans hf hboot.2) (by decide)
  large := by
    rintro - ⟨⟩
  leaf := fun heq => absurd hlen (by omega)

/-! ## From one state to the next -/

/-- The tables of the new map were tables before, when only page tables have changed. -/
theorem Inv.table_of_next (h : Inv v own) (h' : Inv v' own')
    (hroots : ∀ {r}, IsRoot own' r → IsRoot own r)
    (hmem : ∀ {p r path} i, own p = some (.table r path) → path.length < 3 → v'.mem p i = v.mem p i)
    (hp : own' p = some (.table r path)) : own p = some (.table r path) := by
  induction path using List.reverseRecOn generalizing p with
  | nil =>
      obtain rfl := h'.top hp
      exact hroots hp
  | append_singleton path i ih =>
      obtain ⟨q, hq, hpres, hframe⟩ := h'.linked hp
      have hsmall := (h'.entry path hp hq).2.2
      have hlen : path.length < 3 := by
        have := h'.tableDepth hp
        rw [List.length_append, List.length_singleton] at this
        omega
      have hq₀ := ih hq
      rw [hmem i hq₀ hlen] at hpres hframe hsmall
      rcases h.child hq₀ hlen hpres hsmall with hown | ⟨hboot, -⟩
      · rwa [hframe] at hown
      · rw [hframe] at hboot
        exact absurd (Nat.le_trans (h'.range hp).1 hboot.2) (by decide)

/-- A step that only writes to page tables, and there only frames of the bitmap's range. -/
theorem UserTables.next (hu : UserTables v own) (h : Inv v own) (h' : Inv v' own')
    (hroots : ∀ {r}, IsRoot own' r → IsRoot own r)
    (hmem : ∀ {p r path} i, own p = some (.table r path) → v'.mem p i = v.mem p i ∨
      path.length = 3 ∧ ((v'.mem p i).present = true → reservedFrames ≤ (v'.mem p i).frame)) :
    UserTables v' own' := by
  intro p r path i hp
  have hp₀ := h.table_of_next h' hroots
    (fun i hq hlen => (hmem i hq).resolve_right fun hc => by omega) hp
  rcases hmem i hp₀ with heq | ⟨hlen, hleaf⟩
  · rw [heq]
    exact hu i hp₀
  · exact userBits_leaf hlen hleaf

/-- A step that leaves the tables as they are. -/
theorem UserTables.same (hu : UserTables v own) (h : Inv v own) (h' : Inv v' own')
    (hroots : ∀ {r}, IsRoot own' r → IsRoot own r)
    (hmem : ∀ {p r path}, own p = some (.table r path) → v'.mem p = v.mem p) :
    UserTables v' own' :=
  hu.next h h' hroots fun i hp => Or.inl (by rw [hmem hp])

/-- An empty table is hung on an empty entry. -/
theorem UserTables.newTable (hu : UserTables v own) (h : Inv v own) {f : Nat}
    (hp : own p = some (.table r path)) (hlen : path.length < 3)
    (hnone : (v.mem p i).present = false) (hf : Held v own f) :
    UserTables (setEntry (zeroFrame v f) p i (PTE.userRW f)) (addTable own f r (path ++ [i])) := by
  intro q r' path' k hq
  rw [newTable_mem]
  by_cases hqf : q = f
  · subst hqf
    simp only [addTable, Function.update_self, Option.some.injEq, Owner.table.injEq] at hq
    obtain ⟨rfl, rfl⟩ := hq
    have hqp : q ≠ p := by
      rintro rfl
      rw [hf.unowned] at hp
      cases hp
    rw [if_neg fun hc => hqp hc.1, if_pos rfl]
    -- The spine is there already, so the new table is not on it.
    have hspine : ∀ path₀ : List Nat, path = path₀ → path₀ = [] ∨ path₀ = [0] → i ≠ 0 := by
      rintro _ rfl hpath rfl
      rcases hpath with rfl | rfl
      · rw [h.spine (Or.inl hp)] at hnone
        cases hnone
      · rw [h.spine (Or.inr hp)] at hnone
        cases hnone
    by_cases hthree : (path ++ [i]).length = 3
    · exact userBits_leaf hthree fun hpres => by cases hpres
    · apply userBits_zero
      · intro heq
        obtain ⟨rfl, hi⟩ := List.append_inj' (show path ++ [i] = [0] ++ [0] from heq) rfl
        exact hspine [0] rfl (Or.inr rfl) (List.singleton_inj.mp hi)
      · rintro (heq | heq) -
        · simp at heq
        · obtain ⟨rfl, hi⟩ := List.append_inj' (show path ++ [i] = [] ++ [0] from heq) rfl
          exact hspine [] rfl (Or.inl rfl) (List.singleton_inj.mp hi)
  · rw [addTable_of_ne hqf] at hq
    by_cases hqi : q = p ∧ k = i
    · obtain ⟨rfl, rfl⟩ := hqi
      rw [if_pos ⟨rfl, rfl⟩]
      rw [hp] at hq
      simp only [Option.some.injEq, Owner.table.injEq] at hq
      obtain ⟨rfl, rfl⟩ := hq
      apply userBits_userRW hlen _ hf.low
      intro hpath
      by_contra hlow
      rw [(hu k hp).low hpath (by omega)] at hnone
      cases hnone
    · rw [if_neg hqi, if_neg hqf]
      exact hu k hq

theorem userTables_kept : KeptByTables UserTables where
  alloc := fun h hu => by
    obtain ⟨hinv, hmem, -⟩ := inv_allocFrame h
    exact hu.same h hinv id fun _ => by rw [hmem]
  table := fun h hp hlen hnone hf hu => hu.newTable h hp hlen hnone hf

/-! ## Mapping and unmapping -/

/-- A mapping of a frame of the bitmap's range; `v'` is memory behind it, `own'` any map
that fits. -/
theorem mapPage_userTables (hu : UserTables v own) (h : Inv v own) {e : PTE}
    (hr : IsRoot own root) (he : reservedFrames ≤ e.frame)
    (hmem : v'.mem = (mapPage v root va e).mem) (h' : Inv v' own')
    (hroots : ∀ {r}, IsRoot own' r → IsRoot own r) : UserTables v' own' := by
  obtain ⟨v₁, own₁, hprep, hkeep, ⟨heq, -⟩ | ⟨pt, hpt, heq⟩⟩ :=
    mapPage_keeps userTables_kept h hr va e
  · apply (hkeep hu).same hprep.inv h' fun hr' => hprep.grow.tables (hroots hr')
    intro p r path _
    rw [hmem, heq]
  · apply (hkeep hu).next hprep.inv h' fun hr' => hprep.grow.tables (hroots hr')
    intro p r path i hp
    rw [hmem, heq]
    by_cases hpi : p = pt ∧ i = ptIdx va
    · obtain ⟨rfl, rfl⟩ := hpi
      rw [hpt] at hp
      cases hp
      rw [setEntry_same]
      exact Or.inr ⟨rfl, fun _ => he⟩
    · exact Or.inl (setEntry_other hpi)

/-- The frame that an allocation finds, and the state behind it. -/
theorem Inv.allocated (h : Inv v own) (hnz : (allocFrame v).2 ≠ 0) :
    Inv (allocFrame v).1 own ∧ (allocFrame v).1.mem = v.mem ∧
      Held (allocFrame v).1 own (allocFrame v).2 := by
  obtain ⟨hinv, hmem, -, -, hres⟩ := inv_allocFrame h
  exact ⟨hinv, hmem, hres.resolve_left hnz⟩

/-- A frame is taken and mapped, cleared or not. -/
theorem mapFresh_userTables (hu : UserTables v own) (h : Inv v own) {w : Vm}
    (hr : IsRoot own root) (hnz : (allocFrame v).2 ≠ 0)
    (hw : w = (allocFrame v).1 ∨ w = zeroFrame (allocFrame v).1 (allocFrame v).2)
    (h' : Inv (mapPage w root va (PTE.userRW (allocFrame v).2)) own')
    (hroots : ∀ {r}, IsRoot own' r → IsRoot own r) :
    UserTables (mapPage w root va (PTE.userRW (allocFrame v).2)) own' := by
  obtain ⟨hinv, hmem, hheld⟩ := h.allocated hnz
  have hinv' : Inv w own := by
    rcases hw with rfl | rfl
    · exact hinv
    · exact inv_zeroFrame hinv hheld.unowned hheld.not_boot
  have hsame : UserTables w own := by
    apply hu.same h hinv' id
    intro p r path hp
    rcases hw with rfl | rfl
    · rw [hmem]
    · have hne : p ≠ (allocFrame v).2 := by
        rintro rfl
        rw [hheld.unowned] at hp
        cases hp
      funext k
      rw [zeroFrame_mem, if_neg hne, hmem]
  exact mapPage_userTables hsame hinv' hr hheld.low rfl h' hroots

/-- The walk to a page table reads upper tables only. -/
theorem Inv.ptOf_next (h : Inv v own) (hr : IsRoot own root)
    (hmem : ∀ {p r path} i, own p = some (.table r path) → path.length < 3 → v'.mem p i = v.mem p i)
    (va : Nat) {pt : Nat} (hpt : ptOf v' root va = some pt)
    (hboot : ∀ {p}, IsBootPd p → v'.mem p = v.mem p) : ptOf v root va = some pt := by
  have htop := hmem (pml4Idx va) hr (by simp)
  have hpd : pdOf v' root va = pdOf v root va := by
    unfold pdOf tableAt
    rw [htop]
    split
    · rename_i hpres
      rcases h.child hr (by simp) hpres (h.not_large hr (by simp)) with hown | ⟨-, hbad, -⟩
      · simp only [Option.bind_some, hmem (pdptIdx va) hown (by simp)]
      · cases hbad
    · rfl
  unfold ptOf at hpt ⊢
  rw [hpd] at hpt
  obtain ⟨pd, hfind, hpt⟩ := Option.bind_eq_some_iff.mp hpt
  have hsame : v'.mem pd (pdIdx va) = v.mem pd (pdIdx va) := by
    rcases h.pdOf_spec hr hfind with hown | hb
    · exact hmem _ hown (by simp)
    · rw [hboot hb]
  rw [hfind, Option.bind_some, ← hpt]
  simp only [tableAt, hsame]

/-- Entries of page tables of `own` have been cleared, and nothing else. -/
def Cleared (v : Vm) (own : Owners) (v' : Vm) : Prop :=
  ∀ p i, v'.mem p i = v.mem p i ∨
    (∃ r path, own p = some (.table r path) ∧ path.length = 3) ∧ v'.mem p i = PTE.zero

theorem Cleared.refl (v : Vm) (own : Owners) : Cleared v own v := fun _ _ => Or.inl rfl

theorem Cleared.upper (hc : Cleared v own v') (i : Nat) (hp : own p = some (.table r path))
    (hlen : path.length < 3) : v'.mem p i = v.mem p i := by
  rcases hc p i with heq | ⟨⟨r', path', hp', hlen'⟩, -⟩
  · exact heq
  · rw [hp] at hp'
    cases hp'
    omega

theorem Cleared.boot (hc : Cleared v own v') (h : Inv v own) (hb : IsBootPd p) :
    v'.mem p = v.mem p := by
  funext i
  rcases hc p i with heq | ⟨⟨r, path, hp, -⟩, -⟩
  · exact heq
  · exact absurd (Nat.le_trans (h.range hp).1 hb.2) (by decide)

theorem Cleared.userTables (hc : Cleared v own v') (hu : UserTables v own) (h : Inv v own)
    (h' : Inv v' own') (hroots : ∀ {r}, IsRoot own' r → IsRoot own r) :
    UserTables v' own' := by
  apply hu.next h h' hroots
  intro p r path i hp
  rcases hc p i with heq | ⟨⟨r', path', hp', hlen⟩, hzero⟩
  · exact Or.inl heq
  · rw [hp] at hp'
    cases hp'
    exact Or.inr ⟨hlen, by rw [hzero]; rintro ⟨⟩⟩

theorem Cleared.free (hc : Cleared v own v') (f : Nat) : Cleared v own (freeFrame v' f) := by
  intro p i
  rw [freeFrame_mem]
  exact hc p i

theorem Cleared.unmap (hc : Cleared v own v') (h : Inv v own) (hr : IsRoot own root) (va : Nat) :
    Cleared v own (unmapPage v' root va) := by
  unfold unmapPage
  rw [if_neg (h.root_pos hr)]
  cases hpt : ptOf v' root va with
  | none => exact hc
  | some pt =>
      have hown := h.ptOf_spec hr (h.ptOf_next hr (fun i hp hlen => hc.upper i hp hlen) va hpt
        fun hb => hc.boot h hb)
      intro p i
      by_cases hpi : p = pt ∧ i = ptIdx va
      · obtain ⟨rfl, rfl⟩ := hpi
        exact Or.inr ⟨⟨root, _, hown, rfl⟩, setEntry_same⟩
      · rw [setEntry_other hpi]
        exact hc p i

theorem Cleared.unmapFree (hc : Cleared v own v') (h : Inv v own) (hr : IsRoot own root)
    (va : Nat) : Cleared v own (unmapFree v' root va) := by
  unfold Vmm.unmapFree
  dsimp only
  split
  · exact (hc.unmap h hr va).free _
  · exact hc.unmap h hr va

theorem Cleared.unmapRange (hc : Cleared v own v') (h : Inv v own) (hr : IsRoot own root)
    (va n : Nat) : Cleared v own (unmapRange v' root va n) := by
  unfold Vmm.unmapRange
  induction n with
  | zero => exact hc
  | succ n ih =>
      rw [List.range_succ, List.foldl_append, List.foldl_cons, List.foldl_nil]
      exact ih.unmapFree h hr _

/-! ## Copy-on-write -/

theorem cowFault_userTables (hu : UserTables v own) (h : Inv v own) (hr : IsRoot own root)
    (va : Nat) (h' : Inv (cowFault v root va).1 own')
    (hroots : ∀ {r}, IsRoot own' r → IsRoot own r) : UserTables (cowFault v root va).1 own' := by
  apply hu.next h h' hroots
  intro p r path i hp
  unfold cowFault
  rw [if_neg (h.root_pos hr)]
  cases hwalk : ptOf v root va with
  | none => exact Or.inl rfl
  | some pt =>
      have hpt := h.ptOf_spec hr hwalk
      -- The one entry that is set leads to the same frame, or to a new one.
      have hset {w : Vm} {f : Nat} (hw : w.mem = v.mem) (hf : reservedFrames ≤ f) :
          (setEntry w pt (ptIdx va) (PTE.userRW f)).mem p i = v.mem p i ∨ path.length = 3 ∧
            (((setEntry w pt (ptIdx va) (PTE.userRW f)).mem p i).present = true →
              reservedFrames ≤ ((setEntry w pt (ptIdx va) (PTE.userRW f)).mem p i).frame) := by
        by_cases hpi : p = pt ∧ i = ptIdx va
        · obtain ⟨rfl, rfl⟩ := hpi
          rw [hpt] at hp
          cases hp
          rw [setEntry_same]
          exact Or.inr ⟨rfl, fun _ => hf⟩
        · rw [setEntry_other hpi, hw]
          exact Or.inl rfl
      dsimp only
      split
      · exact Or.inl rfl
      rename_i hflags
      simp only [Bool.or_eq_true, Bool.not_eq_true', not_or, Bool.not_eq_false] at hflags
      split
      · split
        · exact Or.inl (by rw [(inv_allocFrame h).2.1])
        · rename_i hnz
          obtain ⟨-, hmem, hheld⟩ := h.allocated hnz
          exact hset hmem hheld.low
      · exact hset rfl ((hu _ hpt).leaf rfl hflags.1)

theorem sharePage_userTables (hu : UserTables v own) (h : Inv v own) {pt j : Nat}
    (hchild : IsRoot own child) (hpt : own pt = some (.table parent [0, 0, i]))
    (h' : Inv (sharePage v child pt i j) own') (hroots : ∀ {r}, IsRoot own' r → IsRoot own r) :
    UserTables (sharePage v child pt i j) own' := by
  unfold sharePage at h' ⊢
  dsimp only at h' ⊢
  split at h'
  · rename_i hskip
    rw [if_pos hskip]
    exact hu.same h h' hroots fun _ => rfl
  rename_i hskip
  rw [if_neg hskip]
  simp only [Bool.or_eq_true, Bool.not_eq_true', decide_eq_true_eq, not_or, Bool.not_eq_false]
    at hskip
  obtain ⟨hpres, hlow⟩ := hskip
  have h₁ := h.reflag (e := PTE.userCOW (v.mem pt j).frame) hpt rfl hpres rfl
  have hu₁ : UserTables (setEntry v pt j (PTE.userCOW (v.mem pt j).frame)) own := by
    apply hu.next h h₁ id
    intro p r path k hp
    by_cases hpk : p = pt ∧ k = j
    · obtain ⟨rfl, rfl⟩ := hpk
      rw [hpt] at hp
      cases hp
      rw [setEntry_same]
      exact Or.inr ⟨rfl, fun _ => Nat.le_of_not_lt hlow⟩
    · exact Or.inl (setEntry_other hpk)
  apply mapPage_userTables hu₁ h₁ hchild (e := PTE.userCOW (v.mem pt j).frame)
    (Nat.le_of_not_lt hlow) _ h' hroots
  · exact i * 2 ^ 21 + j * 2 ^ 12
  · split <;> rfl

/-- What the invariant and the entries are together. -/
def Walled (v : Vm) (own : Owners) : Prop := Inv v own ∧ UserTables v own

theorem shareTable_walled (h : Walled v own) {roots : Finset Nat} (hroots : RootsIn own roots)
    (hcard : roots.card ≤ 254) {pd : Nat} (hchild : IsRoot own child)
    (hpd : own pd = some (.table parent [0, 0])) (hi : i < 512) :
    ∃ own', Walled (shareTable v child pd i) own' ∧ Grow own own' := by
  unfold shareTable
  dsimp only
  split
  · exact ⟨own, h, Grow.refl own⟩
  rename_i hskip
  simp only [Bool.or_eq_true, Bool.not_eq_true', not_or, Bool.not_eq_false,
    Bool.not_eq_true] at hskip
  have hpt : own (v.mem pd i).frame = some (.table parent [0, 0, i]) := by
    rcases h.1.child hpd (by simp) hskip.1 hskip.2 with hp | ⟨-, hbad, -⟩
    · exact hp
    · cases hbad
  apply foldl_grow _ h
  intro w o j hj hw hgrow
  obtain ⟨o', hinv, hgrow'⟩ := sharePage_inv hw.1 (hroots.of_grow hgrow) hcard
    (hgrow.tables hchild) (hgrow.tables hpt) hi (List.mem_range.mp hj)
  exact ⟨o', ⟨hinv, sharePage_userTables hw.2 hw.1 (hgrow.tables hchild) (hgrow.tables hpt) hinv
    hgrow'.roots⟩, hgrow'⟩

theorem copyCow_walled (h : Walled v own) {roots : Finset Nat} (hroots : RootsIn own roots)
    (hcard : roots.card ≤ 254) (hparent : IsRoot own parent) (hchild : IsRoot own child) :
    ∃ own', Walled (copyCow v parent child) own' ∧ Grow own own' := by
  unfold copyCow
  rw [if_neg (by simp [h.1.root_pos hparent, h.1.root_pos hchild])]
  obtain ⟨hpdpt, hpd⟩ := h.1.first_tables hparent
  simp only [h.1.spine (Or.inl hparent), h.1.spine (Or.inr hpdpt), Bool.not_true,
    Bool.false_eq_true, if_false]
  apply foldl_grow _ h
  intro w o i hi hw hgrow
  exact shareTable_walled hw (hroots.of_grow hgrow) hcard (hgrow.tables hchild)
    (hgrow.tables hpd) (List.mem_range.mp hi)

/-! ## Creating and tearing down -/

/-- Three free frames, filled as `vmm_create_page_dir` fills them. -/
theorem fill_userTables (hu : UserTables v own) {a b c : Nat}
    (ha : a ∈ freeFrames v) (hb : b ∈ freeFrames v) (hc : c ∈ freeFrames v) (hab : a ≠ b)
    (hac : a ≠ c) (hbc : b ≠ c) :
    UserTables (fillPageDir (takeZeroed (takeZeroed (takeZeroed v a) b) c) a b c)
      (addSpace own a b c) := by
  have hlow {f : Nat} (hf : f ∈ freeFrames v) : reservedFrames ≤ f := (mem_freeFrames.mp hf).1.1
  have hzero (q k : Nat) : (takeZeroed (takeZeroed (takeZeroed v a) b) c).mem q k =
      if q = a ∨ q = b ∨ q = c then PTE.zero else v.mem q k := by
    simp only [takeZeroed, zeroFrame_mem]
    split_ifs <;> simp_all
  intro p r path i hp
  by_cases hpc : p = c
  · subst hpc
    have hpath : path = [0, 0] := by
      simp only [addSpace, addTable, Function.update_self, Option.some.injEq,
        Owner.table.injEq] at hp
      exact hp.2.symm
    subst hpath
    rw [fillPageDir_pd hac.symm hbc.symm _ fun k => by simp [hzero]]
    split_ifs with hkernel huser
    · have hi : ¬ i < 4 := by
        simp only [List.mem_cons, List.not_mem_nil, or_false] at hkernel
        omega
      exact ⟨fun _ hlt => absurd hlt hi, by simp, by rintro - - ⟨⟩, by rintro - - ⟨⟩, by simp⟩
    · have hi : i < 4 := by
        simp only [List.mem_cons, List.not_mem_nil, or_false] at huser
        omega
      exact ⟨fun _ _ => rfl, by simp, by rintro - - ⟨⟩, fun _ _ _ => ⟨rfl, hi⟩, by simp⟩
    · have hi : ¬ i < 4 := by
        simp only [List.mem_cons, List.not_mem_nil, or_false] at huser
        omega
      exact ⟨fun _ hlt => absurd hlt hi, by simp, by rintro - ⟨⟩, by rintro - ⟨⟩, by simp⟩
  rw [fillPageDir_other hpc]
  by_cases hpb : p = b
  · subst hpb
    have hpath : path = [0] := by
      simp only [addSpace, addTable, Function.update_of_ne hbc, Function.update_self,
        Option.some.injEq, Owner.table.injEq] at hp
      exact hp.2.symm
    subst hpath
    have hpa : ¬ (p = a ∧ i = 0) := fun heq => hab heq.1.symm
    rw [if_neg hpa, hzero, if_pos (Or.inr (Or.inl rfl))]
    split_ifs with h₃ h₂ h₁ h₀
    · exact ⟨by simp, fun _ hi => by omega, by rintro - - - ⟨⟩, by rintro - ⟨⟩, by simp⟩
    · exact ⟨by simp, fun _ hi => by omega, by rintro - - - ⟨⟩, by rintro - ⟨⟩, by simp⟩
    · exact ⟨by simp, fun _ hi => by omega, by rintro - - - ⟨⟩, by rintro - ⟨⟩, by simp⟩
    · exact userBits_userRW (by simp) (by simp) (hlow hc)
    · exact userBits_zero (by simp) fun _ hi => h₀ ⟨rfl, hi⟩
  simp only [hpb, false_and, if_false]
  by_cases hpa : p = a
  · subst hpa
    have hpath : path = [] := by
      simp only [addSpace, addTable, Function.update_of_ne hac, Function.update_of_ne hab,
        Function.update_self, Option.some.injEq, Owner.table.injEq] at hp
      exact hp.2.symm
    subst hpath
    rw [hzero, if_pos (Or.inl rfl)]
    split_ifs with h₀
    · exact userBits_userRW (by simp) (by simp) (hlow hb)
    · exact userBits_zero (by simp) fun _ hi => h₀ ⟨rfl, hi⟩
  · simp only [hpa, hpb, hpc, hzero, false_and, or_self, if_false]
    apply hu
    simpa [addSpace, addTable, hpa, hpb, hpc] using hp

/-- `vmm_create_page_dir` fails without a trace, or makes an address space. -/
theorem createPageDir_walled (h : Walled v own) :
    ((createPageDir v).2 = 0 ∧ Walled (createPageDir v).1 own) ∨
      ∃ own', Walled (createPageDir v).1 own' ∧ Born own own' (createPageDir v).2 := by
  rcases createPageDir_cases v with
    ⟨hzero, hsame⟩ | ⟨a, b, c, ha, hb, hc, hab, hac, hbc, hroot, heq⟩
  · refine Or.inl ⟨hzero, hsame.inv h.1, ?_⟩
    exact h.2.same h.1 (hsame.inv h.1) id fun hp => hsame.mem _ (h.1.not_free hp)
  · rw [hroot, heq]
    have hnew := fill_created h.1 ha hb hc hab hac hbc
    refine Or.inr ⟨_, ⟨hnew.inv, fill_userTables h.2 ha hb hc hab hac hbc⟩, ?_⟩
    exact ⟨hnew.root, hnew.fresh, fun hf => (hnew.keep hf).1,
      fun hr => (hnew.tables hr).imp_right And.left⟩

theorem freeUserMemory_userTables (hu : UserTables v own) (h : Inv v own) (hr : IsRoot own root)
    (h' : Inv (freeUserMemory v root) own') (hroots : ∀ {r}, IsRoot own' r → IsRoot own r) :
    UserTables (freeUserMemory v root) own' := by
  obtain ⟨_, hend⟩ := freeUserMemory_stage h hr
  exact hu.same h h' hroots fun _ => by rw [hend.mem]

/-! ## Loops over pages -/

section Loops
variable {dir : Nat}

theorem elfPages_userTables (entry : Nat) (pages : List Nat) (hu : UserTables v own)
    (h : Inv v own) (hr : IsRoot own dir) (h' : Inv (elfPages v dir entry pages).1 own')
    (hroots : ∀ {r}, IsRoot own' r → IsRoot own r) :
    UserTables (elfPages v dir entry pages).1 own' := by
  induction pages generalizing v own with
  | nil => exact hu.same h h' hroots fun _ => rfl
  | cons va rest ih =>
      unfold elfPages at h' ⊢
      dsimp only at h' ⊢
      split at h'
      · rename_i hz
        rw [if_pos hz]
        exact hu.same h h' hroots fun _ => by rw [(inv_allocFrame h).2.1]
      · rename_i hnz
        rw [if_neg hnz]
        obtain ⟨own₁, h₁, hgrow₁⟩ := mapFresh_inv h va hr (Or.inr rfl)
        have hu₁ := mapFresh_userTables hu h hr hnz (Or.inr rfl) h₁ hgrow₁.roots
        exact ih hu₁ h₁ (hgrow₁.tables hr) h' fun hr' => hgrow₁.tables (hroots hr')

theorem brkLoop_userTables (n pg curEnd : Nat) (hu : UserTables v own) (h : Inv v own)
    (hr : IsRoot own dir) (h' : Inv (brkLoop v dir pg curEnd n).1 own')
    (hroots : ∀ {r}, IsRoot own' r → IsRoot own r) :
    UserTables (brkLoop v dir pg curEnd n).1 own' := by
  induction n generalizing v own pg curEnd with
  | zero => exact hu.same h h' hroots fun _ => rfl
  | succ n ih =>
      unfold brkLoop at h' ⊢
      dsimp only at h' ⊢
      split at h'
      · rename_i hz
        rw [if_pos hz]
        exact hu.same h h' hroots fun _ => by rw [(inv_allocFrame h).2.1]
      · rename_i hnz
        rw [if_neg hnz]
        obtain ⟨own₁, h₁, hgrow₁⟩ := mapFresh_inv h pg hr (Or.inl rfl)
        have hu₁ := mapFresh_userTables hu h hr hnz (Or.inl rfl) h₁ hgrow₁.roots
        exact ih _ _ hu₁ h₁ (hgrow₁.tables hr) h' fun hr' => hgrow₁.tables (hroots hr')

theorem mmapLoop_userTables (n base i : Nat) (hu : UserTables v own) (h : Inv v own)
    (hr : IsRoot own dir) (h' : Inv (mmapLoop v dir base i n).1 own')
    (hroots : ∀ {r}, IsRoot own' r → IsRoot own r) :
    UserTables (mmapLoop v dir base i n).1 own' := by
  induction n generalizing v own i with
  | zero => exact hu.same h h' hroots fun _ => rfl
  | succ n ih =>
      unfold mmapLoop at h' ⊢
      dsimp only at h' ⊢
      split at h'
      · rename_i hz
        rw [if_pos hz]
        obtain ⟨hinv, hmem, -⟩ := inv_allocFrame h
        have hsame := hu.same h hinv id fun _ => by rw [hmem]
        exact ((Cleared.refl _ own).unmapRange hinv hr _ _).userTables hsame hinv h' hroots
      · rename_i hnz
        rw [if_neg hnz]
        obtain ⟨own₁, h₁, hgrow₁⟩ := mapFresh_inv h (base + i * 0x1000) hr (Or.inl rfl)
        have hu₁ := mapFresh_userTables hu h hr hnz (Or.inl rfl) h₁ hgrow₁.roots
        exact ih _ hu₁ h₁ (hgrow₁.tables hr) h' fun hr' => hgrow₁.tables (hroots hr')

theorem mmapFileLoop_userTables (n base i full : Nat) (hu : UserTables v own) (h : Inv v own)
    (hr : IsRoot own dir) (h' : Inv (mmapFileLoop v dir base i full n).1 own')
    (hroots : ∀ {r}, IsRoot own' r → IsRoot own r) :
    UserTables (mmapFileLoop v dir base i full n).1 own' := by
  induction n generalizing v own i full with
  | zero =>
      unfold mmapFileLoop at h' ⊢
      exact hu.same h h' hroots fun _ => rfl
  | succ n ih =>
      unfold mmapFileLoop at h' ⊢
      dsimp only at h' ⊢
      split at h'
      · rename_i hz
        rw [if_pos hz]
        exact hu.same h h' hroots fun _ => by rw [(inv_allocFrame h).2.1]
      · rename_i hnz
        rw [if_neg hnz]
        obtain ⟨own₁, h₁, hgrow₁⟩ := mapFresh_inv h (base + i * 0x1000) hr (Or.inl rfl)
        have hu₁ := mapFresh_userTables hu h hr hnz (Or.inl rfl) h₁ hgrow₁.roots
        have hroots₁ {r : Nat} (hr' : IsRoot own' r) : IsRoot own₁ r :=
          hgrow₁.tables (hroots hr')
        cases full with
        | zero => exact hu₁.same h₁ h' hroots₁ fun _ => rfl
        | succ full => exact ih _ _ hu₁ h₁ (hgrow₁.tables hr) h' hroots₁

end Loops

/-! ## Allocations that nobody checks -/

/-- A frame is left for the page at `va`, or there is no page table for it, and then none
to be had. -/
def Found (v : Vm) (dir va : Nat) : Prop := freeFrames v = ∅ → ptOf v dir va = none

/-- Without frames a table is there or is not made. -/
theorem nextTable_empty (hempty : freeFrames v = ∅) (p i : Nat) :
    nextTable v p i = (v, tableAt v p i) := by
  unfold nextTable tableAt
  split
  · rfl
  · rcases allocFrame_eq v with ⟨heq, -⟩ | ⟨f, hf, -⟩
    · rw [heq]
      rfl
    · rw [hempty] at hf
      cases hf

/-- Without frames and without a page table nothing is mapped. -/
theorem mapPage_empty (hempty : freeFrames v = ∅) {dir : Nat} (hnone : ptOf v dir va = none)
    (e : PTE) : mapPage v dir va e = v := by
  unfold mapPage
  rw [nextTable_empty hempty]
  cases hpdpt : tableAt v dir (pml4Idx va) with
  | none => rfl
  | some pdpt =>
      dsimp only
      rw [nextTable_empty hempty]
      cases hpd : tableAt v pdpt (pdptIdx va) with
      | none => rfl
      | some pd =>
          dsimp only
          split
          · rfl
          · rename_i hsmall
            have hpt : tableAt v pd (pdIdx va) = none := by
              simpa [ptOf, pdOf, hpdpt, hpd, hsmall] using hnone
            rw [nextTable_empty hempty, hpt]

/-- A page that is mapped whether or not a frame was had for it. -/
theorem mapFound_userTables (hu : UserTables v own) (h : Inv v own) {dir : Nat} {w : Vm}
    (hr : IsRoot own dir) (hfound : Found v dir va)
    (hw : w = (allocFrame v).1 ∨ w = zeroFrame (allocFrame v).1 (allocFrame v).2)
    (h' : Inv (mapPage w dir va (PTE.userRW (allocFrame v).2)) own')
    (hroots : ∀ {r}, IsRoot own' r → IsRoot own r) :
    UserTables (mapPage w dir va (PTE.userRW (allocFrame v).2)) own' := by
  by_cases hnz : (allocFrame v).2 = 0
  · rcases allocFrame_eq v with ⟨heq, hempty⟩ | ⟨f, hf, heq⟩
    · have hnone := hfound hempty
      have hzero : own 0 = none := by
        cases hown : own 0 with
        | none => rfl
        | some o => exact absurd (h.range hown).1 (by decide)
      rw [heq] at hw h' ⊢
      have hinv : Inv w own := by
        rcases hw with rfl | rfl
        · exact h
        · exact inv_zeroFrame h hzero fun hb => absurd (show 4 ≤ 0 from hb.1) (by decide)
      have hmem {p : Nat} (hp : p ≠ 0) : w.mem p = v.mem p := by
        rcases hw with rfl | rfl
        · rfl
        · funext k
          rw [zeroFrame_mem, if_neg hp]
      have hempty' : freeFrames w = ∅ := by
        rcases hw with rfl | rfl
        · exact hempty
        · exact hempty
      have hnone' : ptOf w dir va = none := by
        cases hwalk : ptOf w dir va with
        | none => rfl
        | some pt =>
            have hpt := hinv.ptOf_spec hr hwalk
            rw [h.ptOf_of_own hpt] at hnone
            cases hnone
      rw [mapPage_empty hempty' hnone'] at h' ⊢
      apply hu.same h h' hroots
      intro p r path hp
      apply hmem
      rintro rfl
      rw [hzero] at hp
      cases hp
    · rw [heq] at hnz
      exact absurd (mem_freeFrames.mp hf).1.1 (by rw [show f = 0 from hnz]; decide)
  · exact mapFresh_userTables hu h hr hnz hw h' hroots

end OriaOS.Vmm
