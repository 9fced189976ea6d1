import OriaOS.Vmm.Frames

/-!
# What an address space sees

The entry of an address in a page table is what decides which frame a process
reads and writes there. Each operation is described by what it does to these
entries, for all address spaces: a mapping sets one entry, a fork replaces the
entries of two address spaces, a teardown leaves those of the others alone.

User space is the first gigabyte. All its page tables hang on the page directory
at `pml4[0]` and `pdpt[0]`, the only part that `vmm_copy_cow` and
`vmm_free_user_memory` visit.
-/

namespace OriaOS.Vmm

variable {f n p r r' va : Nat} {e : PTE}
variable {v v' : Vm} {own own' : Owners}

/-- The entry that `vmm_get_pte` finds, where it is present. -/
def leafOf (v : Vm) (r va : Nat) : Option PTE :=
  (ptOf v r va).bind fun pt =>
    if (v.mem pt (ptIdx va)).present then some (v.mem pt (ptIdx va)) else none

/-- The number of pages of user space. -/
abbrev userPages : Nat := 2 ^ 18

/-- The address of a page. -/
def pageVa (n : Nat) : Nat := n * 0x1000

/-- An address below `pml4[0]` and `pdpt[0]`. -/
def UserVa (va : Nat) : Prop := pml4Idx va = 0 ∧ pdptIdx va = 0

theorem UserVa.path (h : UserVa va) : vaPath va = [0, 0, pdIdx va] := by
  rw [vaPath, h.1, h.2]

theorem pageVa_user (hn : n < userPages) : UserVa (pageVa n) := by
  simp only [UserVa, pageVa, pml4Idx, pdptIdx, userPages] at hn ⊢
  omega

theorem pageVa_pdIdx (hn : n < userPages) : pdIdx (pageVa n) = n / 512 := by
  simp only [pageVa, pdIdx, userPages] at hn ⊢
  omega

theorem pageVa_ptIdx (n : Nat) : ptIdx (pageVa n) = n % 512 := by
  simp only [pageVa, ptIdx]
  omega

theorem pageVa_path (hn : n < userPages) : vaPath (pageVa n) = [0, 0, n / 512] := by
  rw [(pageVa_user hn).path, pageVa_pdIdx hn]

/-- The path and the index of a page of user space say which page it is. -/
theorem pageVa_inj {m : Nat} (hn : n < userPages) (hm : m < userPages)
    (hpath : vaPath (pageVa n) = vaPath (pageVa m)) (hidx : ptIdx (pageVa n) = ptIdx (pageVa m)) :
    n = m := by
  rw [pageVa_path hn, pageVa_path hm] at hpath
  rw [pageVa_ptIdx, pageVa_ptIdx] at hidx
  simp only [List.cons.injEq, and_true, true_and] at hpath
  omega

/-! ## Entries and owners -/

/-- In terms of owners. -/
theorem Inv.leafOf_eq_some (h : Inv v own) (hr : IsRoot own r) :
    leafOf v r va = some e ↔ ∃ p, own p = some (.table r (vaPath va)) ∧
      (v.mem p (ptIdx va)).present = true ∧ v.mem p (ptIdx va) = e := by
  unfold leafOf
  constructor
  · intro hleaf
    obtain ⟨pt, hwalk, hpt⟩ := Option.bind_eq_some_iff.mp hleaf
    split at hpt
    · rename_i hpres
      cases hpt
      exact ⟨pt, h.ptOf_spec hr hwalk, hpres, rfl⟩
    · cases hpt
  · rintro ⟨p, hp, hpres, rfl⟩
    rw [h.ptOf_of_own hp, Option.bind_some, if_pos hpres]

/-- The entry in the page table of the address. -/
theorem Inv.leafOf_of_own (h : Inv v own) (hp : own p = some (.table r (vaPath va))) :
    leafOf v r va =
      if (v.mem p (ptIdx va)).present then some (v.mem p (ptIdx va)) else none := by
  rw [leafOf, h.ptOf_of_own hp, Option.bind_some]

theorem Inv.leafOf_eq_none (h : Inv v own) (hr : IsRoot own r)
    (hnone : ∀ p, own p ≠ some (.table r (vaPath va))) : leafOf v r va = none := by
  rw [Option.eq_none_iff_forall_ne_some]
  intro e he
  obtain ⟨p, hp, -⟩ := (h.leafOf_eq_some hr).mp he
  exact hnone p hp

/-- A page of an address space is owned at its address. -/
theorem Inv.leafOf_page (h : Inv v own) (hr : IsRoot own r) (he : leafOf v r va = some e)
    (hlow : reservedFrames ≤ e.frame) : own e.frame = some (.page (vaPath va) (ptIdx va)) := by
  obtain ⟨p, hp, hpres, rfl⟩ := (h.leafOf_eq_some hr).mp he
  exact (h.leaf hp rfl hpres).resolve_left (Nat.not_lt.mpr hlow)

/-- Two states in which an address space has the same page tables with the same
present entries. -/
theorem leafOf_congr (h : Inv v own) (h' : Inv v' own') (hr : IsRoot own r) (hr' : IsRoot own' r)
    (hold : ∀ p, own p = some (.table r (vaPath va)) →
      own' p = some (.table r (vaPath va)) ∧ v'.mem p (ptIdx va) = v.mem p (ptIdx va))
    (hnew : ∀ p, own' p = some (.table r (vaPath va)) → (v'.mem p (ptIdx va)).present = true →
      own p = some (.table r (vaPath va))) :
    leafOf v' r va = leafOf v r va := by
  ext e
  rw [h'.leafOf_eq_some hr', h.leafOf_eq_some hr]
  constructor
  · rintro ⟨p, hp, hpres, rfl⟩
    have hp₀ := hnew p hp hpres
    obtain ⟨-, hmem⟩ := hold p hp₀
    exact ⟨p, hp₀, by rwa [hmem] at hpres, hmem.symm⟩
  · rintro ⟨p, hp, hpres, rfl⟩
    obtain ⟨hp', hmem⟩ := hold p hp
    exact ⟨p, hp', by rwa [hmem], hmem⟩

/-- Setting a leaf entry changes the entry of one address. -/
theorem setEntry_leafOf (h : Inv v own) {d : Nat} {path : List Nat}
    (hp : own p = some (.table r path)) (hpres : e.present = true)
    (h' : Inv (setEntry v p d e) own')
    (htab : ∀ {q r' path'}, own' q = some (.table r' path') ↔ own q = some (.table r' path'))
    (hr' : IsRoot own r') :
    leafOf (setEntry v p d e) r' va =
      if r' = r ∧ vaPath va = path ∧ ptIdx va = d then some e else leafOf v r' va := by
  by_cases hat : r' = r ∧ vaPath va = path ∧ ptIdx va = d
  · rw [if_pos hat]
    obtain ⟨rfl, rfl, rfl⟩ := hat
    rw [h'.leafOf_of_own (htab.mpr hp), setEntry_same, if_pos hpres]
  · rw [if_neg hat]
    have hne {q : Nat} (hq : own q = some (.table r' (vaPath va))) : ¬ (q = p ∧ ptIdx va = d) := by
      rintro ⟨rfl, hd⟩
      rw [hp] at hq
      simp only [Option.some.injEq, Owner.table.injEq] at hq
      exact hat ⟨hq.1.symm, hq.2.symm, hd⟩
    apply leafOf_congr h h' hr' (htab.mpr hr')
    · exact fun q hq => ⟨htab.mpr hq, setEntry_other (hne hq)⟩
    · exact fun q hq _ => htab.mp hq

/-! ## New page tables -/

theorem freeFrames_take :
    freeFrames { v with used := Function.update v.used f true } = (freeFrames v).erase f := by
  ext g
  rw [Finset.mem_erase, mem_freeFrames, mem_freeFrames]
  by_cases hg : g = f
  · simp [hg]
  · simp [hg]

/-- An allocation fails only when no frame is free. -/
theorem allocFrame_eq (v : Vm) :
    (allocFrame v = (v, 0) ∧ freeFrames v = ∅) ∨ ∃ f ∈ freeFrames v,
      allocFrame v = ({ v with used := Function.update v.used f true }, f) := by
  rcases allocFrame_cases v with heq | ⟨f, hlow, hhigh, hfree, heq⟩
  · left
    refine ⟨heq, Finset.card_eq_zero.mp ?_⟩
    by_contra hne
    exact (allocFrame_free (n := 0) (Nat.pos_of_ne_zero hne)).1 (by rw [heq])
  · exact Or.inr ⟨f, mem_freeFrames.mpr ⟨⟨hlow, hhigh⟩, hfree⟩, heq⟩

/-- Tables have been added, and everything that was mapped is still there. -/
structure Grown (v : Vm) (own : Owners) (v' : Vm) (own' : Owners) : Prop extends
    Prep v own v' own' where
  keep : ∀ {q r path d}, own q = some (.table r path) → path.length = 3 → v'.mem q d = v.mem q d
  large : ∀ {q r path d}, own q = some (.table r path) → path.length < 3 →
    (v'.mem q d).large = (v.mem q d).large
  taken : ∀ {f}, v'.used f = true → v.used f = true ∨ ∃ r path, own' f = some (.table r path)
  above : ∀ {f r path}, own' f = some (.table r path) →
    own f = some (.table r path) ∨ ∃ i, path = [0, 0, i]

theorem Inv.grown (h : Inv v own) : Grown v own v own :=
  { h.prep with
    keep := fun _ _ => rfl
    large := fun _ _ => rfl
    taken := Or.inl
    above := Or.inl }

/-- New tables are empty, so no address space sees anything else. -/
theorem Grown.leafOf (h : Inv v own) (hg : Grown v own v' own') (hr : IsRoot own r) (va : Nat) :
    leafOf v' r va = leafOf v r va := by
  apply leafOf_congr h hg.inv hr (hg.grow.tables hr)
  · exact fun p hp => ⟨hg.grow.tables hp, hg.keep hp rfl⟩
  · exact fun p hp hpres => (hg.fewer p r (vaPath va) (ptIdx va) rfl hp hpres).1

/-- A page table is added below a page directory. -/
theorem addPt_grown (h : Inv v own) {pd i : Nat} (hpd : own pd = some (.table r [0, 0]))
    (hi : i < 512) (hnone : (v.mem pd i).present = false) (hlarge : (v.mem pd i).large = false)
    (hf : f ∈ freeFrames v) :
    Grown v own (setEntry (zeroFrame { v with used := Function.update v.used f true } f) pd i
      (PTE.userRW f)) (addTable own f r [0, 0, i]) := by
  obtain ⟨⟨hlow, hhigh⟩, hfree⟩ := mem_freeFrames.mp hf
  have hunowned : own f = none := by
    cases hown : own f with
    | none => rfl
    | some o => exact absurd (h.range hown).2.2 (by simp [hfree])
  have hne {q : Nat} {o : Owner} (hq : own q = some o) : q ≠ f := by
    rintro rfl
    rw [hunowned] at hq
    cases hq
  have hinv : Inv { v with used := Function.update v.used f true } own := by
    apply h.congr
    · exact fun _ _ => rfl
    · intro g hg
      have hgf : g ≠ f := by
        rintro rfl
        exact hg.elim (fun hn => hn hunowned) fun hlt => absurd hlow (Nat.not_le.mpr hlt)
      simp [hgf]
    · rfl
    · exact h.once
  have hheld : Held { v with used := Function.update v.used f true } own f :=
    ⟨hlow, hhigh, by simp, hunowned⟩
  have hold {q k : Nat} {o : Owner} (hq : own q = some o) (hqk : ¬ (q = pd ∧ k = i)) :
      (setEntry (zeroFrame { v with used := Function.update v.used f true } f) pd i
        (PTE.userRW f)).mem q k = v.mem q k := by
    rw [newTable_mem, if_neg hqk, if_neg (hne hq)]
  refine ⟨⟨hinv.newTable hpd (by simp) hi hnone hheld, ⟨?_, ?_⟩, ?_, rfl, ?_, ?_⟩, ?_, ?_, ?_, ?_⟩
  · intro g r' path hg
    rw [addTable_of_ne (hne hg)]
    exact hg
  · intro r' hr'
    by_cases hrf : r' = f
    · subst hrf
      simp [addTable] at hr'
    · rwa [addTable_of_ne hrf] at hr'
  · exact newTable_fewer hpd (by simp) (hne hpd)
  · intro g hg
    have hgf : g ≠ f := by
      rintro rfl
      exact absurd hg.used (by simp [hfree])
    refine ⟨hg.low, hg.high, ?_, by rw [addTable_of_ne hgf]; exact hg.unowned⟩
    change Function.update v.used f true g = true
    rw [Function.update_of_ne hgf]
    exact hg.used
  · intro g path d hg
    rw [addTable_of_ne (hne hg)]
    exact hg
  · intro q r' path d hq hlen
    exact hold hq fun hc => ne_of_short hq hlen hpd (by simp) hc.1.symm
  · intro q r' path d hq _
    by_cases hqd : q = pd ∧ d = i
    · rw [hqd.1, hqd.2, setEntry_same, hlarge]
      rfl
    · rw [hold hq hqd]
  · intro g hg
    by_cases hgf : g = f
    · exact Or.inr ⟨r, [0, 0, i], by simp [addTable, hgf]⟩
    · left
      change Function.update v.used f true g = true at hg
      rwa [Function.update_of_ne hgf] at hg
  · intro g r' path hg
    by_cases hgf : g = f
    · subst hgf
      simp only [addTable, Function.update_self, Option.some.injEq, Owner.table.injEq] at hg
      exact Or.inr ⟨i, hg.2.symm⟩
    · rw [addTable_of_ne hgf] at hg
      exact Or.inl hg

/-! ## Mapping in user space -/

/-- In user space the two upper tables are always there. -/
theorem mapPage_user (h : Inv v own) {pd : Nat} (hr : IsRoot own r)
    (hpd : own pd = some (.table r [0, 0])) (hva : UserVa va) (e : PTE) :
    mapPage v r va e =
      if (v.mem pd (pdIdx va)).large then v
      else
        match nextTable v pd (pdIdx va) with
        | (v, none) => v
        | (v, some pt) => setEntry v pt (ptIdx va) e := by
  obtain ⟨hpdpt, hpd'⟩ := h.first_tables hr
  obtain rfl := h.table_unique hpd' hpd
  have h₁ : nextTable v r 0 = (v, some (v.mem r 0).frame) := by
    rw [nextTable, if_pos (h.spine (Or.inl hr))]
  have h₂ : nextTable v (v.mem r 0).frame 0 = (v, some (v.mem (v.mem r 0).frame 0).frame) := by
    rw [nextTable, if_pos (h.spine (Or.inr hpdpt))]
  unfold mapPage
  rw [hva.1, hva.2]
  rcases hlast : nextTable v (v.mem (v.mem r 0).frame 0).frame (pdIdx va) with ⟨w, _ | pt⟩
  · simp only [h₁, h₂, hlast]
  · simp only [h₁, h₂, hlast]

/-- A mapping in user space stops at a 2 MB page or for want of a frame, or sets
the entry in the page table of the address, which it may have to add. -/
theorem mapPage_spec (h : Inv v own) {pd : Nat} (hr : IsRoot own r)
    (hpd : own pd = some (.table r [0, 0])) (hva : UserVa va) (e : PTE) :
    (mapPage v r va e = v ∧ ((v.mem pd (pdIdx va)).large = true ∨
        (v.mem pd (pdIdx va)).present = false ∧ freeFrames v = ∅)) ∨
      ∃ v₁ own₁ pt, Grown v own v₁ own₁ ∧ own₁ pt = some (.table r (vaPath va)) ∧
        mapPage v r va e = setEntry v₁ pt (ptIdx va) e ∧
        (v₁ = v ∧ (v.mem pd (pdIdx va)).present = true ∨
          (v.mem pd (pdIdx va)).present = false ∧ (v₁.mem pd (pdIdx va)).present = true ∧
            (∀ k, k ≠ pdIdx va → v₁.mem pd k = v.mem pd k) ∧
            (freeFrames v).card = (freeFrames v₁).card + 1) := by
  rw [mapPage_user h hr hpd hva]
  by_cases hl : (v.mem pd (pdIdx va)).large = true
  · rw [if_pos hl]
    exact Or.inl ⟨rfl, Or.inl hl⟩
  rw [if_neg hl]
  have hlarge := Bool.eq_false_of_not_eq_true hl
  have hi : pdIdx va < 512 := Nat.mod_lt _ (by decide)
  rw [hva.path]
  by_cases hpres : (v.mem pd (pdIdx va)).present = true
  · right
    have hpt : own (v.mem pd (pdIdx va)).frame = some (.table r [0, 0, pdIdx va]) := by
      rcases h.child hpd (by simp) hpres hlarge with hp | ⟨-, hbad, -⟩
      · exact hp
      · cases hbad
    exact ⟨v, own, _, h.grown, hpt, by rw [nextTable, if_pos hpres], Or.inl ⟨rfl, hpres⟩⟩
  · have hnone := Bool.eq_false_of_not_eq_true hpres
    rcases allocFrame_eq v with ⟨heq, hempty⟩ | ⟨f, hf, heq⟩
    · left
      refine ⟨?_, Or.inr ⟨hnone, hempty⟩⟩
      rw [nextTable, if_neg hpres, heq]
      rfl
    · right
      have hnz := free_ne_zero hf
      have hgrown := addPt_grown h hpd hi hnone hlarge hf
      refine ⟨_, _, f, hgrown, by simp [addTable], ?_, Or.inr ⟨hnone, ?_, ?_, ?_⟩⟩
      · rw [nextTable, if_neg hpres, heq]
        dsimp only
        rw [if_neg hnz]
      · rw [setEntry_same]
        rfl
      · intro k hk
        have hpf : pd ≠ f := by
          rintro rfl
          exact absurd (h.range hpd).2.2 (by simp [(mem_freeFrames.mp hf).2])
        rw [newTable_mem, if_neg (fun hc => hk hc.2), if_neg hpf]
      · change _ = (freeFrames { v with used := Function.update v.used f true }).card + 1
        rw [freeFrames_take, Finset.card_erase_add_one hf]

/-! ## Creating an address space -/

/-- The entries of a page directory that hold the 2 MB pages of the kernel. -/
def kernelPages : List Nat := [0, 1, 2, 3, 32, 33, 34, 35, 36, 37]

/-- Every address space has the pages of the kernel, and no other 2 MB pages. -/
def KernelMapped (v : Vm) (own : Owners) : Prop :=
  ∀ ⦃pd r k⦄, own pd = some (.table r [0, 0]) → ((v.mem pd k).large = true ↔ k ∈ kernelPages)

/-- A failed creation has given back what it took. -/
structure Unchanged (v v' : Vm) : Prop where
  mem : ∀ q ∉ freeFrames v, v'.mem q = v.mem q
  used : v'.used = v.used
  cow : v'.cow = v.cow
  once : v'.doubleFree = v.doubleFree

/-- `v` with a frame taken and cleared, as the first steps of a creation leave
it. -/
def takeZeroed (v : Vm) (f : Nat) : Vm :=
  zeroFrame { v with used := Function.update v.used f true } f

theorem freeFrames_takeZeroed (f : Nat) : freeFrames (takeZeroed v f) = (freeFrames v).erase f :=
  freeFrames_take

theorem Unchanged.refl (v : Vm) : Unchanged v v := ⟨fun _ _ => rfl, rfl, rfl, rfl⟩

theorem Unchanged.giveBack (hf : f ∈ freeFrames v) {w : Vm} (hw : Unchanged (takeZeroed v f) w) :
    Unchanged v (freeFrame w f) := by
  obtain ⟨⟨hlow, hhigh⟩, hfree⟩ := mem_freeFrames.mp hf
  have hused : w.used f = true := by
    rw [hw.used]
    simp [takeZeroed, zeroFrame]
  have heq : freeFrame w f = { w with used := Function.update w.used f false } := by
    simp [freeFrame, hlow, hhigh, hused]
  rw [heq]
  constructor
  · intro q hq
    have hqf : q ≠ f := by
      rintro rfl
      exact hq hf
    have := hw.mem q (by rw [freeFrames_takeZeroed]; exact fun hc => hq (Finset.mem_of_mem_erase hc))
    change w.mem q = v.mem q
    rw [this]
    funext k
    simp [takeZeroed, hqf]
  · change Function.update w.used f false = v.used
    rw [hw.used]
    funext q
    by_cases hqf : q = f
    · simp [hqf, hfree]
    · simp [takeZeroed, zeroFrame, hqf]
  · exact hw.cow
  · exact hw.once

/-- `vmm_create_page_dir` gives back what it took, or fills three frames. -/
theorem createPageDir_cases (v : Vm) :
    ((createPageDir v).2 = 0 ∧ Unchanged v (createPageDir v).1) ∨
      ∃ a b c, a ∈ freeFrames v ∧ b ∈ freeFrames v ∧ c ∈ freeFrames v ∧
        a ≠ b ∧ a ≠ c ∧ b ≠ c ∧ (createPageDir v).2 = a ∧
        (createPageDir v).1 =
          fillPageDir (takeZeroed (takeZeroed (takeZeroed v a) b) c) a b c := by
  unfold createPageDir
  rcases allocFrame_eq v with ⟨h₁, -⟩ | ⟨a, ha, h₁⟩
  · left
    rw [h₁]
    exact ⟨rfl, Unchanged.refl v⟩
  rw [h₁]
  dsimp only
  rw [if_neg (free_ne_zero ha), ← takeZeroed]
  rcases allocFrame_eq (takeZeroed v a) with ⟨h₂, -⟩ | ⟨b, hb, h₂⟩
  · left
    rw [h₂]
    exact ⟨rfl, (Unchanged.refl _).giveBack ha⟩
  rw [h₂]
  dsimp only
  rw [if_neg (free_ne_zero hb), ← takeZeroed]
  rcases allocFrame_eq (takeZeroed (takeZeroed v a) b) with ⟨h₃, -⟩ | ⟨c, hc, h₃⟩
  · left
    rw [h₃]
    exact ⟨rfl, ((Unchanged.refl _).giveBack hb).giveBack ha⟩
  rw [h₃]
  dsimp only
  rw [if_neg (free_ne_zero hc), ← takeZeroed]
  right
  rw [freeFrames_takeZeroed, Finset.mem_erase] at hb
  rw [freeFrames_takeZeroed, freeFrames_takeZeroed, Finset.mem_erase, Finset.mem_erase] at hc
  exact ⟨a, b, c, ha, hb.2, hc.2.2, hb.1.symm, hc.2.1.symm, hc.1.symm, rfl, rfl⟩

/-- A new address space that holds nothing but the kernel. -/
structure Created (v : Vm) (own : Owners) (v' : Vm) (own' : Owners) (r : Nat) : Prop where
  inv : Inv v' own'
  root : IsRoot own' r
  fresh : own r = none
  keep : ∀ {q o}, own q = some o → own' q = some o ∧ v'.mem q = v.mem q
  tables : ∀ {q r' path}, own' q = some (.table r' path) →
    own q = some (.table r' path) ∨ r' = r ∧ path ∈ [[], [0], [0, 0]]
  kernel : KernelMapped v own → KernelMapped v' own'
  free : (freeFrames v).card = (freeFrames v').card + 3
  cow : v'.cow = v.cow
  taken : ∀ {f}, v'.used f = true → v.used f = true ∨ ∃ path, own' f = some (.table r path)

/-- A free frame has no owner. -/
theorem Inv.unowned_of_free (h : Inv v own) (hf : f ∈ freeFrames v) : own f = none := by
  cases hown : own f with
  | none => rfl
  | some o => exact absurd (h.range hown).2.2 (by simp [(mem_freeFrames.mp hf).2])

theorem Inv.not_free (h : Inv v own) {q : Nat} {o : Owner} (hq : own q = some o) :
    q ∉ freeFrames v := by
  intro hf
  rw [h.unowned_of_free hf] at hq
  cases hq

/-- A frame that is taken and cleared has no owner yet. -/
theorem Inv.takeZeroed (h : Inv v own) (hf : f ∈ freeFrames v) :
    Inv (takeZeroed v f) own ∧ Held (takeZeroed v f) own f := by
  obtain ⟨⟨hlow, hhigh⟩, hfree⟩ := mem_freeFrames.mp hf
  have hunowned := h.unowned_of_free hf
  have hne {g : Nat} (hg : own g ≠ none ∨ g < reservedFrames) : g ≠ f := by
    rintro rfl
    exact hg.elim (fun hn => hn hunowned) fun hlt => absurd hlow (Nat.not_le.mpr hlt)
  refine ⟨?_, hlow, hhigh, by simp [Vmm.takeZeroed, zeroFrame], hunowned⟩
  apply h.congr
  · intro g hg
    have hgf : g ≠ f :=
      hne (hg.imp_right fun hb => Nat.lt_of_le_of_lt hb.2 (by decide))
    funext k
    simp [Vmm.takeZeroed, hgf]
  · intro g hg
    simp [Vmm.takeZeroed, zeroFrame, hne hg]
  · rfl
  · exact h.once

theorem Held.takeZeroed {g : Nat} (hg : Held v own g) (hf : f ∈ freeFrames v) :
    Held (takeZeroed v f) own g := by
  have hgf : g ≠ f := by
    rintro rfl
    exact absurd hg.used (by simp [(mem_freeFrames.mp hf).2])
  exact ⟨hg.low, hg.high, by simp [Vmm.takeZeroed, zeroFrame, hgf, hg.used], hg.unowned⟩

theorem mem_kernelPages {k : Nat} :
    k ∈ kernelPages ↔ k ∈ [32, 33, 34, 35, 36, 37] ∨ k ∈ [0, 1, 2, 3] := by
  simp only [kernelPages, List.mem_cons, List.not_mem_nil, or_false]
  omega

/-- Three free frames become an address space. -/
theorem fill_created (h : Inv v own) {a b c : Nat} (ha : a ∈ freeFrames v) (hb : b ∈ freeFrames v)
    (hc : c ∈ freeFrames v) (hab : a ≠ b) (hac : a ≠ c) (hbc : b ≠ c) :
    Created v own (fillPageDir (takeZeroed (takeZeroed (takeZeroed v a) b) c) a b c)
      (addSpace own a b c) a := by
  have hb₁ : b ∈ freeFrames (takeZeroed v a) := by
    rw [freeFrames_takeZeroed]
    exact Finset.mem_erase.mpr ⟨hab.symm, hb⟩
  have hc₂ : c ∈ freeFrames (takeZeroed (takeZeroed v a) b) := by
    rw [freeFrames_takeZeroed, freeFrames_takeZeroed]
    exact Finset.mem_erase.mpr ⟨hbc.symm, Finset.mem_erase.mpr ⟨hac.symm, hc⟩⟩
  obtain ⟨h₁, hheld₁⟩ := h.takeZeroed ha
  obtain ⟨h₂, hheld₂⟩ := h₁.takeZeroed hb₁
  obtain ⟨h₃, hheld₃⟩ := h₂.takeZeroed hc₂
  have hfree : freeFrames (takeZeroed (takeZeroed (takeZeroed v a) b) c) =
      (((freeFrames v).erase a).erase b).erase c := by
    simp only [freeFrames_takeZeroed]
  have hmem (q k : Nat) : (takeZeroed (takeZeroed (takeZeroed v a) b) c).mem q k =
      if q = a ∨ q = b ∨ q = c then PTE.zero else v.mem q k := by
    simp only [takeZeroed, zeroFrame_mem]
    split_ifs <;> simp_all
  generalize hw : takeZeroed (takeZeroed (takeZeroed v a) b) c = w at *
  have hfill : Filled w (fillPageDir w a b c) a b c := by
    apply fillPageDir_filled hab hac hbc
    · intro q k
      by_cases hq : q = a ∨ q = b ∨ q = c
      · simp only [hmem, hq, if_true]
      · simp only [hq, if_false]
    · rfl
    · rfl
    · rfl
  have hne {q : Nat} {o : Owner} (hq : own q = some o) : q ≠ a ∧ q ≠ b ∧ q ≠ c := by
    have := h.not_free hq
    refine ⟨?_, ?_, ?_⟩
    all_goals
      rintro rfl
      contradiction
  have hold {q : Nat} (hqa : q ≠ a) (hqb : q ≠ b) (hqc : q ≠ c) :
      addSpace own a b c q = own q := by
    simp [addSpace, addTable, hqa, hqb, hqc]
  have htabs : addSpace own a b c a = some (.table a []) ∧
      addSpace own a b c b = some (.table a [0]) ∧
      addSpace own a b c c = some (.table a [0, 0]) := by
    refine ⟨?_, ?_, ?_⟩
    · simp [addSpace, addTable, hab, hac]
    · simp [addSpace, addTable, hbc]
    · simp [addSpace, addTable]
  have hheld₁' : Held w own a := hw ▸ (hheld₁.takeZeroed hb₁).takeZeroed hc₂
  have hheld₂' : Held w own b := hw ▸ hheld₂.takeZeroed hc₂
  constructor
  · exact inv_addSpace h₃ hheld₁' hheld₂' hheld₃ hab hac hbc hfill
  · exact htabs.1
  · exact h.unowned_of_free ha
  · intro q o hq
    obtain ⟨hqa, hqb, hqc⟩ := hne hq
    refine ⟨by rw [hold hqa hqb hqc]; exact hq, ?_⟩
    rw [hfill.other q hqa hqb hqc]
    funext k
    rw [hmem, if_neg (by simp [hqa, hqb, hqc])]
  · intro q r' path hq
    by_cases hqa : q = a
    · rw [hqa, htabs.1] at hq
      cases hq
      exact Or.inr ⟨rfl, by simp⟩
    · by_cases hqb : q = b
      · rw [hqb, htabs.2.1] at hq
        cases hq
        exact Or.inr ⟨rfl, by simp⟩
      · by_cases hqc : q = c
        · rw [hqc, htabs.2.2] at hq
          cases hq
          exact Or.inr ⟨rfl, by simp⟩
        · rw [hold hqa hqb hqc] at hq
          exact Or.inl hq
  · intro hk pd r' k hpd
    by_cases hpc : pd = c
    · rw [hpc, fillPageDir_pd hac.symm hbc.symm w (fun k => by simp [hmem]), mem_kernelPages]
      split_ifs with h₃₂ h₀
      · simp [h₃₂, PTE.kernelLarge]
      · simp [h₀, PTE.userLarge]
      · simp [h₃₂, h₀, PTE.zero]
    · have hpd₀ : own pd = some (.table r' [0, 0]) := by
        by_cases hpa : pd = a
        · rw [hpa, htabs.1] at hpd
          cases hpd
        · by_cases hpb : pd = b
          · rw [hpb, htabs.2.1] at hpd
            cases hpd
          · rwa [hold hpa hpb hpc] at hpd
      obtain ⟨hpa, hpb, -⟩ := hne hpd₀
      rw [hfill.other pd hpa hpb hpc, hmem, if_neg (by simp [hpa, hpb, hpc])]
      exact hk hpd₀
  · have : freeFrames (fillPageDir w a b c) = freeFrames w := by
      unfold freeFrames
      rw [hfill.used]
    rw [this, hfree, ← Finset.card_erase_add_one ha,
      ← Finset.card_erase_add_one (Finset.mem_erase.mpr ⟨hab.symm, hb⟩),
      ← Finset.card_erase_add_one (Finset.mem_erase.mpr ⟨hbc.symm, Finset.mem_erase.mpr
        ⟨hac.symm, hc⟩⟩)]
  · rw [hfill.cow, ← hw]
    rfl
  · intro f hf
    rw [hfill.used, ← hw] at hf
    by_cases hfa : f = a
    · exact Or.inr ⟨_, by rw [hfa]; exact htabs.1⟩
    · by_cases hfb : f = b
      · exact Or.inr ⟨_, by rw [hfb]; exact htabs.2.1⟩
      · by_cases hfc : f = c
        · exact Or.inr ⟨_, by rw [hfc]; exact htabs.2.2⟩
        · left
          simpa [takeZeroed, zeroFrame, hfa, hfb, hfc] using hf

/-- `vmm_create_page_dir` fails without a trace, or makes an address space. -/
theorem createPageDir_created (h : Inv v own) :
    ((createPageDir v).2 = 0 ∧ Unchanged v (createPageDir v).1) ∨
      ∃ own', Created v own (createPageDir v).1 own' (createPageDir v).2 := by
  rcases createPageDir_cases v with hfail | ⟨a, b, c, ha, hb, hc, hab, hac, hbc, hroot, heq⟩
  · exact Or.inl hfail
  · rw [hroot, heq]
    exact Or.inr ⟨_, fill_created h ha hb hc hab hac hbc⟩

theorem Unchanged.inv (h : Inv v own) (hs : Unchanged v v') : Inv v' own := by
  apply h.congr
  · intro q hq
    apply hs.mem
    intro hf
    rcases hq with hq | hq
    · exact hq (h.unowned_of_free hf)
    · exact free_not_boot hf hq
  · exact fun q _ => by rw [hs.used]
  · exact hs.cow
  · rw [hs.once]
    exact h.once

theorem Unchanged.leafOf (h : Inv v own) (hs : Unchanged v v') (hr : IsRoot own r) (va : Nat) :
    leafOf v' r va = leafOf v r va := by
  apply leafOf_congr h (hs.inv h) hr hr
  · exact fun p hp => ⟨hp, by rw [hs.mem p (h.not_free hp)]⟩
  · exact fun p hp _ => hp

theorem Created.leafOf_old (h : Inv v own) (hs : Created v own v' own' r) (hr' : IsRoot own r')
    (va : Nat) : leafOf v' r' va = leafOf v r' va := by
  apply leafOf_congr h hs.inv hr' (hs.keep hr').1
  · exact fun p hp => ⟨(hs.keep hp).1, by rw [(hs.keep hp).2]⟩
  · intro p hp _
    rcases hs.tables hp with ho | ⟨-, hpath⟩
    · exact ho
    · simp [vaPath] at hpath

theorem Created.leafOf_new (h : Inv v own) (hs : Created v own v' own' r) (va : Nat) :
    leafOf v' r va = none := by
  apply hs.inv.leafOf_eq_none hs.root
  intro p hp
  rcases hs.tables hp with ho | ⟨-, hpath⟩
  · have := h.rooted ho
    rw [hs.fresh] at this
    cases this
  · simp [vaPath] at hpath

/-! ## Tearing down -/

theorem leafOf_of_mem (h : v'.mem = v.mem) (r va : Nat) : leafOf v' r va = leafOf v r va := by
  simp only [leafOf, ptOf, pdOf, tableAt, h]

/-! ## One entry -/

/-- The entry of one address of one address space has been set. -/
def SetsLeaf (v : Vm) (own : Owners) (v' : Vm) (r va : Nat) (e : PTE) : Prop :=
  ∀ {r' va'}, IsRoot own r' → leafOf v' r' va' =
    if r' = r ∧ vaPath va' = vaPath va ∧ ptIdx va' = ptIdx va then some e else leafOf v r' va'

/-- The page directory of an address space stays where it is. -/
theorem Grow.pd (hg : Grow own own') (h : Inv v own) (h' : Inv v' own') {pd : Nat}
    (hpd : own' pd = some (.table r [0, 0])) : own pd = some (.table r [0, 0]) := by
  have hold := (h.first_tables (hg.roots (h'.rooted hpd))).2
  obtain rfl := h'.table_unique (hg.tables hold) hpd
  exact hold

theorem KernelMapped.of_grow (hk : KernelMapped v own) (hg : Grow own own') (h : Inv v own)
    (h' : Inv v' own') (hlarge : ∀ {pd r k}, own pd = some (.table r [0, 0]) →
      (v'.mem pd k).large = (v.mem pd k).large) : KernelMapped v' own' := by
  intro pd r k hpd
  have hpd₀ := hg.pd h h' hpd
  rw [hlarge hpd₀]
  exact hk hpd₀

/-- A leaf entry is none of the page directory. -/
theorem setEntry_large {d : Nat} {path : List Nat} (hp : own p = some (.table r path))
    (hlen : path.length = 3) {pd k : Nat} (hpd : own pd = some (.table r' [0, 0])) :
    ((setEntry v p d e).mem pd k).large = (v.mem pd k).large := by
  rw [setEntry_other fun hc => ne_of_short hp hlen hpd (by simp) hc.1]

end OriaOS.Vmm
