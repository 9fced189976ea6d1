import OriaOS.Vmm.Leaves

/-!
# Mapping, write faults and fork, seen from every address space

A new page and a write fault set one entry. A fork sets the entries of parent and
child, one page after the other; while frames for the page tables of the child
are left, the child ends up with every page of the parent.
-/

namespace OriaOS.Vmm

variable {m n r va : Nat}
variable {v v' w : Vm} {own own' : Owners} {f : Nat}

/-! ## A new page -/

/-- A new frame has been mapped. -/
structure Mapped (v : Vm) (own : Owners) (v' : Vm) (own' : Owners) (r va f : Nat) : Prop where
  inv : Inv v' own'
  grow : Grow own own'
  sets : SetsLeaf v own v' r va (PTE.userRW f)
  kernel : KernelMapped v own → KernelMapped v' own'
  cow : v'.cow = v.cow
  taken : ∀ {g}, v'.used g = true → v.used g = true ∨ g = f ∨
    ∃ r' path, own' g = some (.table r' path)
  above : ∀ {g r' path}, own' g = some (.table r' path) →
    own g = some (.table r' path) ∨ ∃ i, path = [0, 0, i]

/-- `w` is `v` with the frame `f` taken, whatever was written to it. -/
structure Took (v : Vm) (own : Owners) (f : Nat) (w : Vm) : Prop where
  inv : Inv w own
  held : Held w own f
  mem : ∀ {p o}, own p = some o → w.mem p = v.mem p
  free : freeFrames w = (freeFrames v).erase f
  used : ∀ {g}, w.used g = true → v.used g = true ∨ g = f
  cow : w.cow = v.cow

theorem Inv.took_zeroed (h : Inv v own) {f : Nat} (hf : f ∈ freeFrames v) :
    Took v own f (Vmm.takeZeroed v f) := by
  obtain ⟨hw, hheld⟩ := h.takeZeroed hf
  refine ⟨hw, hheld, ?_, freeFrames_takeZeroed f, ?_, rfl⟩
  · intro p o hp
    have hpf : p ≠ f := by
      rintro rfl
      exact h.not_free hp hf
    funext k
    simp [Vmm.takeZeroed, hpf]
  · intro g hg
    by_cases hgf : g = f
    · exact Or.inr hgf
    · left
      simpa [Vmm.takeZeroed, zeroFrame, hgf] using hg

theorem Inv.took (h : Inv v own) {f : Nat} (hf : f ∈ freeFrames v) :
    Took v own f { v with used := Function.update v.used f true } := by
  obtain ⟨⟨hlow, hhigh⟩, -⟩ := mem_freeFrames.mp hf
  have hz := h.took_zeroed hf
  refine ⟨?_, ⟨hlow, hhigh, by simp, h.unowned_of_free hf⟩, fun _ => rfl, freeFrames_take,
    hz.used, rfl⟩
  apply h.congr
  · exact fun _ _ => rfl
  · intro g hg
    have hgf : g ≠ f := by
      rintro rfl
      exact hg.elim (fun hn => hn (h.unowned_of_free hf))
        fun hlt => absurd hlow (Nat.not_le.mpr hlt)
    simp [hgf]
  · rfl
  · exact h.once

theorem Took.leafOf (ht : Took v own f w) (h : Inv v own) (hr : IsRoot own r) (va : Nat) :
    leafOf w r va = leafOf v r va := by
  apply leafOf_congr h ht.inv hr hr
  · exact fun p hp => ⟨hp, by rw [ht.mem hp]⟩
  · exact fun p hp _ => hp

/-- Mapping a frame that was just taken. What it cost is one frame, and one more
when the page table was missing. -/
theorem Took.map (ht : Took v own f w) (h : Inv v own) {pd : Nat} (hr : IsRoot own r)
    (hpd : own pd = some (.table r [0, 0])) (hva : UserVa va) (hf : f ∈ freeFrames v) :
    (mapPage w r va (PTE.userRW f) = w ∧
        ((v.mem pd (pdIdx va)).large = true ∨
          (v.mem pd (pdIdx va)).present = false ∧ (freeFrames v).erase f = ∅)) ∨
      ∃ own', Mapped v own (mapPage w r va (PTE.userRW f)) own' r va f ∧
        (∃ pt, own' pt = some (.table r (vaPath va))) ∧
        (freeFrames v).card = (freeFrames (mapPage w r va (PTE.userRW f))).card +
          (if (v.mem pd (pdIdx va)).present then 1 else 2) := by
  have hcard := Finset.card_erase_add_one hf
  have hpdmem : w.mem pd = v.mem pd := ht.mem hpd
  rcases mapPage_spec ht.inv hr hpd hva (PTE.userRW f) with
    ⟨heq, hstop⟩ | ⟨v₁, own₁, pt, hg, hpt, heq, htab⟩
  · left
    rw [hpdmem, ht.free] at hstop
    exact ⟨heq, hstop⟩
  · right
    have hd : ptIdx va < 512 := Nat.mod_lt _ (by decide)
    obtain ⟨own₂, hinv, hgrow, hold⟩ := setReady hg.inv (e := PTE.userRW f) hpt rfl hd
      (Or.inr (Or.inl (hg.held ht.held)))
    rw [heq]
    refine ⟨own₂, ⟨hinv, hg.grow.trans hgrow, ?_, ?_, hg.cow.trans ht.cow, ?_, ?_⟩,
      ⟨pt, hgrow.tables hpt⟩, ?_⟩
    · intro r' va' hr'
      rw [setEntry_leafOf hg.inv hpt rfl hinv ⟨hold, hgrow.tables⟩ (hg.grow.tables hr'),
        hg.leafOf ht.inv hr', ht.leafOf h hr']
    · intro hk
      apply hk.of_grow (hg.grow.trans hgrow) h hinv
      intro pd' r' k hpd'
      rw [setEntry_large hpt rfl (hg.grow.tables hpd'), hg.large hpd' (by simp), ht.mem hpd']
    · intro g hgused
      rcases hg.taken hgused with hu | ⟨r', path, ho⟩
      · exact (ht.used hu).imp_right Or.inl
      · exact Or.inr (Or.inr ⟨r', path, hgrow.tables ho⟩)
    · exact fun ho => hg.above (hold ho)
    · change _ = (freeFrames v₁).card + _
      rw [hpdmem, ht.free] at htab
      rcases htab with ⟨rfl, hpres⟩ | ⟨hpres, -, -, hone⟩
      · rw [hpres, ht.free]
        exact hcard.symm
      · rw [hpres]
        change _ = (freeFrames v₁).card + 2
        omega

/-- Mapping a frame that was just taken and cleared. -/
theorem mapNew_spec (h : Inv v own) {pd f : Nat} (hr : IsRoot own r)
    (hpd : own pd = some (.table r [0, 0])) (hva : UserVa va) (hf : f ∈ freeFrames v) :
    (mapPage (takeZeroed v f) r va (PTE.userRW f) = takeZeroed v f ∧
        ((v.mem pd (pdIdx va)).large = true ∨
          (v.mem pd (pdIdx va)).present = false ∧ (freeFrames v).erase f = ∅)) ∨
      ∃ own', Mapped v own (mapPage (takeZeroed v f) r va (PTE.userRW f)) own' r va f :=
  ((h.took_zeroed hf).map h hr hpd hva hf).imp_right fun ⟨own', hm, _⟩ => ⟨own', hm⟩

/-! ## The write fault -/

/-- What a write fault can do: nothing, a copy in a new frame, or the same frame
made writable because no other entry names it. -/
theorem cowFault_spec (h : Inv v own) (hr : IsRoot own r) (va : Nat) :
    cowFault v r va = (v, false) ∨
      ∃ e, leafOf v r va = some e ∧ ∃ own', Inv (cowFault v r va).1 own' ∧ Grow own own' ∧
        (KernelMapped v own → KernelMapped (cowFault v r va).1 own') ∧
        ((∃ f ∈ freeFrames v, 1 < v.cow e.frame ∧
            SetsLeaf v own (cowFault v r va).1 r va (PTE.userRW f)) ∨
          (e.frame < totalFrames → v.cow e.frame ≤ 1) ∧ own' = own ∧
            (cowFault v r va).1.used = v.used ∧ (cowFault v r va).1.cow = v.cow ∧
            SetsLeaf v own (cowFault v r va).1 r va (PTE.userRW e.frame)) := by
  unfold cowFault
  rw [if_neg (h.root_pos hr)]
  cases hwalk : ptOf v r va with
  | none => exact Or.inl rfl
  | some pt =>
      have hpt := h.ptOf_spec hr hwalk
      dsimp only
      split
      · exact Or.inl rfl
      rename_i hflags
      simp only [Bool.or_eq_true, Bool.not_eq_true', not_or, Bool.not_eq_false] at hflags
      have hleaf : leafOf v r va = some (v.mem pt (ptIdx va)) := by
        rw [h.leafOf_of_own hpt, if_pos hflags.1]
      have hd : ptIdx va < 512 := Nat.mod_lt _ (by decide)
      split
      · rename_i hshared
        rcases allocFrame_eq v with ⟨heq, -⟩ | ⟨f, hf, heq⟩
        · rw [heq]
          exact Or.inl rfl
        rw [heq]
        rw [if_neg (free_ne_zero hf)]
        obtain ⟨h₁, -, -, -, hres⟩ := inv_allocFrame h
        rw [heq] at h₁ hres
        have hheld := hres.resolve_left (free_ne_zero hf)
        have hset := h₁.replacePage (e := PTE.userRW f) hpt rfl hd hflags.1 hheld
        refine Or.inr ⟨_, hleaf, _, hset, ?_, ?_, Or.inl ⟨f, hf, hshared.2, ?_⟩⟩
        · exact ⟨(adopt_table hheld.unowned).mpr, (adopt_table hheld.unowned).mp⟩
        · intro hk
          apply hk.of_grow ⟨(adopt_table hheld.unowned).mpr, (adopt_table hheld.unowned).mp⟩ h hset
          intro pd r' k hpd
          exact setEntry_large (v := { v with used := Function.update v.used f true }) hpt rfl hpd
        · intro r' va' hr'
          have hinv := h₁.adopt hheld hpt rfl hd
          have hset' : Inv (setEntry { v with used := Function.update v.used f true } pt (ptIdx va)
              (PTE.userRW f)) (Function.update own f (some (.page (vaPath va) (ptIdx va)))) := by
            apply hinv.1.setLeaf ((adopt_table hheld.unowned).mpr hpt) rfl
            intro _
            refine Or.inr ⟨by simp [PTE.userRW], fun htwo => ?_⟩
            rw [show (PTE.userRW f).frame = f from rfl, hinv.2] at htwo
            simp at htwo
          exact (leafOf_of_mem rfl r' va').trans
            (setEntry_leafOf h₁ hpt rfl hset' (adopt_table hheld.unowned) hr')
      · rename_i hlast
        have hset := h.reflag (e := PTE.userRW (v.mem pt (ptIdx va)).frame) hpt rfl hflags.1 rfl
        refine Or.inr ⟨_, hleaf, own, hset, Grow.refl own, ?_, Or.inr ⟨?_, rfl, rfl, rfl, ?_⟩⟩
        · exact fun hk => hk.of_grow (Grow.refl own) h hset (setEntry_large hpt rfl)
        · intro hlt
          exact Nat.le_of_not_lt fun hc => hlast ⟨hlt, hc⟩
        · exact fun hr' => setEntry_leafOf h hpt rfl hset Iff.rfl hr'

/-- A handled fault leaves the page writable. -/
theorem cowFault_handled (h : Inv v own) (hr : IsRoot own r) {va : Nat}
    (hok : (cowFault v r va).2 = true) :
    ∃ f, leafOf (cowFault v r va).1 r va = some (PTE.userRW f) := by
  rcases cowFault_spec h hr va with
    hsame | ⟨e, -, own', -, -, -, ⟨f, -, -, hsets⟩ | ⟨-, -, -, -, hsets⟩⟩
  · rw [hsame] at hok
    cases hok
  · exact ⟨f, by rw [hsets hr, if_pos ⟨rfl, rfl, rfl⟩]⟩
  · exact ⟨e.frame, by rw [hsets hr, if_pos ⟨rfl, rfl, rfl⟩]⟩

theorem Inv.getPhys_of_leaf (h : Inv v own) (hr : IsRoot own r) {e : PTE}
    (he : leafOf v r va = some e) : getPhys v r va = e.frame := by
  obtain ⟨p, hp, hpres, rfl⟩ := (h.leafOf_eq_some hr).mp he
  exact h.getPhys_of_entry hp hpres

/-- Two entries for one frame are for the same address. -/
theorem Inv.leafOf_address (h : Inv v own) {r' va' : Nat} (hr : IsRoot own r)
    (hr' : IsRoot own r') {e e' : PTE} (he : leafOf v r va = some e)
    (he' : leafOf v r' va' = some e') (hlow : reservedFrames ≤ e.frame) (hf : e'.frame = e.frame) :
    vaPath va' = vaPath va ∧ ptIdx va' = ptIdx va := by
  have hpage := h.leafOf_page hr he hlow
  have hpage' := h.leafOf_page hr' he' (by rwa [hf])
  rw [hf, hpage] at hpage'
  simp only [Option.some.injEq, Owner.page.injEq] at hpage'
  exact ⟨hpage'.1.symm, hpage'.2.symm⟩

/-- A counter of one at most means that the entry is the only one for its
frame. -/
theorem Inv.alone_of_cow (h : Inv v own) {r' va' : Nat} (hr : IsRoot own r) (hr' : IsRoot own r')
    {e e' : PTE} (he : leafOf v r va = some e) (he' : leafOf v r' va' = some e')
    (hlow : reservedFrames ≤ e.frame) (hcow : v.cow e.frame ≤ 1) (hf : e'.frame = e.frame) :
    r' = r ∧ vaPath va' = vaPath va ∧ ptIdx va' = ptIdx va := by
  obtain ⟨hpath, hidx⟩ := h.leafOf_address hr hr' he he' hlow hf
  refine ⟨?_, hpath, hidx⟩
  have hpage := h.leafOf_page hr he hlow
  obtain ⟨p, hp, hpres, rfl⟩ := (h.leafOf_eq_some hr).mp he
  obtain ⟨p', hp', hpres', rfl⟩ := (h.leafOf_eq_some hr').mp he'
  have hmem := h.mem_mappers_of_entry hp hpres
  have hmem' := h.mem_mappers_of_entry hp' hpres'
  rw [hf, hpath, hidx] at hmem'
  have hcard : (mappers v own (v.mem p (ptIdx va)).frame (vaPath va) (ptIdx va)).card ≤ 1 := by
    have := h.shared hpage
    omega
  obtain rfl := Finset.card_le_one.mp hcard p' hmem' p hmem
  rw [hp] at hp'
  simp only [Option.some.injEq, Owner.table.injEq] at hp'
  exact hp'.1.symm

/-! ## Fork -/

/-- The entry of a shared page. -/
def PTE.sharing (e : PTE) : PTE := PTE.userCOW e.frame

/-- The page tables of an address space that hold pages; a fork makes one for the
child for each of them. -/
def neededTables (v : Vm) (r : Nat) : Finset Nat :=
  (Finset.range 512).filter fun i =>
    (List.range 512).any fun j => (leafOf v r (pageVa (i * 512 + j))).isSome

/-- Those that the child does not have yet; `pd` is its page directory. -/
def missingTables (v : Vm) (r : Nat) (w : Vm) (pd : Nat) : Finset Nat :=
  (neededTables v r).filter fun i => (w.mem pd i).present = false

/-- A point of `vmm_copy_cow`: the first `k` pages of user space are done. -/
structure Sharing (v : Vm) (own : Owners) (parent child pd k : Nat) (w : Vm) (o : Owners) :
    Prop where
  inv : Inv w o
  grow : Grow own o
  kernel : KernelMapped w o
  others : ∀ {r n}, IsRoot own r → r ≠ parent → r ≠ child → n < userPages →
    leafOf w r (pageVa n) = leafOf v r (pageVa n)
  first : ∀ {n}, n < userPages → leafOf w parent (pageVa n) =
    if n < k then (leafOf v parent (pageVa n)).map PTE.sharing else leafOf v parent (pageVa n)
  second : ∀ {n}, n < userPages → leafOf w child (pageVa n) =
    if n < k then (leafOf v parent (pageVa n)).map PTE.sharing else none
  counted : ∀ {n e}, n < k → leafOf v parent (pageVa n) = some e → 2 ≤ w.cow e.frame
  frames : (missingTables v parent w pd).card ≤ (freeFrames w).card

section Share
variable {parent child pd k : Nat} {w : Vm} {o : Owners}

theorem ite_lt_succ {α : Type*} {k : Nat} {x y : α} (h : n = k → x = y) :
    (if n < k + 1 then x else y) = if n < k then x else y := by
  by_cases hk : n < k
  · rw [if_pos hk, if_pos (Nat.lt_succ_of_lt hk)]
  · rw [if_neg hk]
    split
    · exact h (by omega)
    · rfl

/-- A page that the parent does not have is passed by. -/
theorem Sharing.skip (h : Sharing v own parent child pd k w o)
    (hnone : leafOf v parent (pageVa k) = none) : Sharing v own parent child pd (k + 1) w o := by
  refine { h with first := ?_, second := ?_, counted := ?_ }
  · intro n hn
    rw [h.first hn, ite_lt_succ]
    rintro rfl
    rw [hnone]
    rfl
  · intro n hn
    rw [h.second hn, ite_lt_succ]
    rintro rfl
    rw [hnone]
    rfl
  · intro n e hn he
    have hne : n ≠ k := by
      rintro rfl
      rw [hnone] at he
      cases he
    exact h.counted (by omega) he

/-- Pages the parent does not have, up to `m` of them, are passed by. -/
theorem Sharing.skips (h : Sharing v own parent child pd k w o)
    (hnone : ∀ j < m, leafOf v parent (pageVa (k + j)) = none) :
    Sharing v own parent child pd (k + m) w o := by
  induction m with
  | zero => exact h
  | succ m ih =>
      have hih := ih fun j hj => hnone j (Nat.lt_succ_of_lt hj)
      exact hih.skip (hnone m (Nat.lt_succ_self m))

/-- The child gets the page: its page table is there, or a frame is left for it. -/
theorem Sharing.mapChild (h : Sharing v own parent child pd k w o) (hk : k < userPages)
    (hchild : IsRoot own child) (hpd : own pd = some (.table child [0, 0]))
    (hplain : k / 512 ∉ kernelPages) (hneed : k / 512 ∈ neededTables v parent) {w₁ : Vm}
    (h₁ : Inv w₁ o) (hmem : ∀ i, w₁.mem pd i = w.mem pd i) (hfree : freeFrames w₁ = freeFrames w)
    (e : PTE) :
    ∃ w₂ o₂ pt, Grown w₁ o w₂ o₂ ∧ o₂ pt = some (.table child [0, 0, k / 512]) ∧
      mapPage w₁ child (pageVa k) e = setEntry w₂ pt (k % 512) e ∧
      (missingTables v parent w₂ pd).card ≤ (freeFrames w₂).card := by
  have hroot := h.grow.tables hchild
  have hpd₁ := h.grow.tables hpd
  have hidx := pageVa_pdIdx hk
  have hspec := mapPage_spec h₁ hroot hpd₁ (pageVa_user hk) e
  rw [hidx, pageVa_path hk, pageVa_ptIdx] at hspec
  rcases hspec with ⟨-, hlarge | ⟨hpres, hempty⟩⟩ | ⟨w₂, o₂, pt, hg, hpt, heq, hnew⟩
  · rw [hmem] at hlarge
    exact absurd ((h.kernel hpd₁).mp hlarge) hplain
  · -- The table of this page is missing, so a frame is left for it.
    rw [hmem] at hpres
    have hmiss : k / 512 ∈ missingTables v parent w pd := Finset.mem_filter.mpr ⟨hneed, hpres⟩
    have hcard := h.frames
    rw [← hfree, hempty, Finset.card_empty, Nat.le_zero, Finset.card_eq_zero] at hcard
    rw [hcard] at hmiss
    cases hmiss
  · refine ⟨w₂, o₂, pt, hg, hpt, heq, ?_⟩
    rcases hnew with ⟨rfl, -⟩ | ⟨hpres, hpres₂, hother, hcard⟩
    · rw [hfree]
      have : missingTables v parent w₂ pd = missingTables v parent w pd := by
        unfold missingTables
        simp only [hmem]
      rw [this]
      exact h.frames
    · have hmiss : k / 512 ∈ missingTables v parent w pd :=
        Finset.mem_filter.mpr ⟨hneed, by rwa [hmem] at hpres⟩
      have hsub : missingTables v parent w₂ pd ⊆ (missingTables v parent w pd).erase (k / 512) := by
        intro i hi
        obtain ⟨hi, hnone⟩ := Finset.mem_filter.mp hi
        have hne : i ≠ k / 512 := by
          rintro rfl
          rw [hpres₂] at hnone
          cases hnone
        rw [hother i hne, hmem] at hnone
        exact Finset.mem_erase.mpr ⟨hne, Finset.mem_filter.mpr ⟨hi, hnone⟩⟩
      have hle := Finset.card_le_card hsub
      have herase := Finset.card_erase_add_one hmiss
      have hframes := h.frames
      rw [← hfree, hcard] at hframes
      omega

theorem bumpCow_self_ge (w : Vm) (f : Nat) : 2 ≤ (bumpCow w f).cow f := by
  simp only [bumpCow, Function.update_self]
  split <;> omega

theorem bumpCow_ge (hbyte : ∀ f, w.cow f ≤ 255) (f g : Nat) : w.cow g ≤ (bumpCow w f).cow g := by
  by_cases hgf : g = f
  · subst hgf
    have := hbyte g
    simp only [bumpCow, Function.update_self]
    split <;> omega
  · simp [bumpCow, hgf]

theorem bumpCow_leafOf (w : Vm) (f r va : Nat) : leafOf (bumpCow w f) r va = leafOf w r va :=
  leafOf_of_mem rfl r va

theorem mem_neededTables (hn : n < userPages) (hleaf : (leafOf v r (pageVa n)).isSome = true) :
    n / 512 ∈ neededTables v r := by
  have hn' : n / 512 * 512 + n % 512 = n := by omega
  refine Finset.mem_filter.mpr ⟨Finset.mem_range.mpr ?_, List.any_eq_true.mpr ⟨n % 512, ?_, ?_⟩⟩
  · simp only [userPages] at hn
    omega
  · exact List.mem_range.mpr (Nat.mod_lt _ (by decide))
  · rwa [hn']

/-- The body of the inner loop of `vmm_copy_cow`. -/
theorem Sharing.next (h : Sharing v own parent child pd k w o) {roots : Finset Nat}
    (hroots : RootsIn own roots) (hcard : roots.card ≤ 254) (hk : k < userPages)
    (hparent : IsRoot own parent) (hchild : IsRoot own child) (hne : parent ≠ child)
    (hpd : own pd = some (.table child [0, 0])) (hplain : k / 512 ∉ kernelPages)
    (hlow : ∀ {n e}, n < userPages → leafOf v parent (pageVa n) = some e →
      reservedFrames ≤ e.frame) {pt : Nat}
    (hpt : o pt = some (.table parent [0, 0, k / 512])) :
    ∃ o', Grow o o' ∧
      Sharing v own parent child pd (k + 1) (sharePage w child pt (k / 512) (k % 512)) o' := by
  have hpath := pageVa_path hk
  have hidx := pageVa_ptIdx k
  have hj : k % 512 < 512 := Nat.mod_lt _ (by decide)
  have hva : k / 512 * 2 ^ 21 + k % 512 * 2 ^ 12 = pageVa k := by
    simp only [pageVa]
    omega
  have hfirst := h.first hk
  rw [if_neg (Nat.lt_irrefl k), h.inv.leafOf_of_own (hpath ▸ hpt), hidx] at hfirst
  unfold sharePage
  rw [hva]
  dsimp only
  split
  · rename_i hskip
    refine ⟨o, Grow.refl o, h.skip ?_⟩
    rw [← hfirst]
    by_cases hpres : (w.mem pt (k % 512)).present = true
    · -- The parent maps no frame of the kernel.
      rw [if_pos hpres] at hfirst
      have := hlow hk hfirst.symm
      simp only [hpres, Bool.not_true, Bool.false_or, decide_eq_true_eq] at hskip
      omega
    · rw [if_neg hpres]
  · rename_i hskip
    simp only [Bool.or_eq_true, Bool.not_eq_true', decide_eq_true_eq, not_or, Bool.not_eq_false]
      at hskip
    obtain ⟨hpres, hlow'⟩ := hskip
    rw [if_pos hpres] at hfirst
    have hneed : k / 512 ∈ neededTables v parent := mem_neededTables hk (by rw [← hfirst]; rfl)
    have hpage := (h.inv.leaf hpt rfl hpres).resolve_left hlow'
    have h₁ := h.inv.reflag (e := PTE.userCOW (w.mem pt (k % 512)).frame) hpt rfl hpres rfl
    have hset₁ {r va : Nat} (hr : IsRoot o r) :
        leafOf (setEntry w pt (k % 512) (PTE.userCOW (w.mem pt (k % 512)).frame)) r va = _ :=
      setEntry_leafOf h.inv hpt rfl h₁ Iff.rfl hr
    have hpdne : pd ≠ pt := ne_of_short hpt rfl (h.grow.tables hpd) (by simp)
    obtain ⟨w₂, o₂, pt', hg, hpt', heq, hframes⟩ := h.mapChild hk hchild hpd hplain hneed h₁
      (fun i => setEntry_other fun hc => hpdne hc.1) rfl
      (PTE.userCOW (w.mem pt (k % 512)).frame)
    rw [if_pos (h.inv.range hpage).2.1, heq, bumpCow_setEntry]
    obtain ⟨hbump, hcover⟩ := hg.inv.bump (hroots.of_grow (h.grow.trans hg.grow)) hcard
      (w.mem pt (k % 512)).frame
    have hpage₂ := hg.pages hpage
    obtain ⟨o₃, h₃, hgrow₃, hold₃⟩ := setReady (e := PTE.userCOW (w.mem pt (k % 512)).frame) hbump
      hpt' rfl hj (Or.inr (Or.inr ⟨hpage₂, hcover hpage₂⟩))
    -- The entries of parent and child for this page, and all others as they were.
    have hleaf {r n : Nat} (hr : IsRoot o r) (hn : n < userPages) :
        leafOf (setEntry (bumpCow w₂ (w.mem pt (k % 512)).frame) pt' (k % 512)
          (PTE.userCOW (w.mem pt (k % 512)).frame)) r (pageVa n) =
        if (r = parent ∨ r = child) ∧ n = k then some (PTE.sharing (w.mem pt (k % 512)))
        else leafOf w r (pageVa n) := by
      have hat : vaPath (pageVa n) = [0, 0, k / 512] ∧ ptIdx (pageVa n) = k % 512 ↔ n = k := by
        rw [← hpath, ← hidx]
        exact ⟨fun hc => pageVa_inj hn hk hc.1 hc.2, fun hc => by simp [hc]⟩
      rw [setEntry_leafOf hbump hpt' rfl h₃ ⟨hold₃, hgrow₃.tables⟩ (hg.grow.tables hr),
        bumpCow_leafOf, hg.leafOf h₁ hr, hset₁ hr]
      simp only [hat]
      by_cases hnk : n = k
      · by_cases hrc : r = child
        · simp [hnk, hrc, PTE.sharing]
        · by_cases hrp : r = parent
          · simp [hnk, hrp, hne, PTE.sharing]
          · simp [hrc, hrp]
      · simp [hnk]
    refine ⟨o₃, hg.grow.trans hgrow₃, h₃, h.grow.trans (hg.grow.trans hgrow₃), ?_, ?_, ?_, ?_, ?_,
      ?_⟩
    · apply h.kernel.of_grow (hg.grow.trans hgrow₃) h.inv h₃
      intro pd' r' i hpd'
      rw [setEntry_large hpt' rfl (hg.grow.tables hpd')]
      exact (hg.large hpd' (by simp)).trans (setEntry_large hpt rfl hpd')
    · intro r n hr hrp hrc hn
      rw [hleaf (h.grow.tables hr) hn, if_neg (by simp [hrp, hrc])]
      exact h.others hr hrp hrc hn
    · intro n hn
      rw [hleaf (h.grow.tables hparent) hn, h.first hn]
      by_cases hnk : n = k
      · subst hnk
        rw [if_pos ⟨Or.inl rfl, rfl⟩, if_pos (Nat.lt_succ_self n), ← hfirst]
        rfl
      · rw [if_neg (fun hc => hnk hc.2), ite_lt_succ fun hc => absurd hc hnk]
    · intro n hn
      rw [hleaf (h.grow.tables hchild) hn, h.second hn]
      by_cases hnk : n = k
      · subst hnk
        rw [if_pos ⟨Or.inr rfl, rfl⟩, if_pos (Nat.lt_succ_self n), ← hfirst]
        rfl
      · rw [if_neg (fun hc => hnk hc.2), ite_lt_succ fun hc => absurd hc hnk]
    · intro n e hn he
      change 2 ≤ (bumpCow w₂ (w.mem pt (k % 512)).frame).cow e.frame
      have hcow₂ : w₂.cow = w.cow := hg.cow
      by_cases hnk : n = k
      · rw [hnk, ← hfirst] at he
        cases he
        exact bumpCow_self_ge w₂ _
      · have hold := h.counted (by omega) he
        rw [← hcow₂] at hold
        exact hold.trans (bumpCow_ge hg.inv.byte _ _)
    · have hpdne' : pd ≠ pt' :=
        ne_of_short hpt' rfl (hg.grow.tables (h.grow.tables hpd)) (by simp)
      have hsame : missingTables v parent (setEntry (bumpCow w₂ (w.mem pt (k % 512)).frame) pt'
          (k % 512) (PTE.userCOW (w.mem pt (k % 512)).frame)) pd = missingTables v parent w₂ pd := by
        unfold missingTables
        apply Finset.filter_congr
        intro i _
        rw [setEntry_other fun hc => hpdne' hc.1]
        rfl
      rw [hsame]
      exact hframes

/-- Pages below an entry that holds no page table. -/
theorem leafOf_none_of_entry (h : Inv v own) (hr : IsRoot own r) {dir : Nat}
    (hdir : own dir = some (.table r [0, 0])) (hn : n < userPages)
    (hentry : (v.mem dir (n / 512)).present = false ∨ (v.mem dir (n / 512)).large = true) :
    leafOf v r (pageVa n) = none := by
  apply h.leafOf_eq_none hr
  intro p hp
  rw [pageVa_path hn] at hp
  obtain ⟨hpres, -, hlarge⟩ := h.entry [0, 0] hp hdir
  rcases hentry with hc | hc
  · rw [hpres] at hc
    cases hc
  · rw [hlarge] at hc
    cases hc

end Share

section Loops
variable {parent child pd : Nat} {roots : Finset Nat} (hroots : RootsIn own roots)
  (hcard : roots.card ≤ 254) (hparent : IsRoot own parent) (hchild : IsRoot own child)
  (hne : parent ≠ child) (hpd : own pd = some (.table child [0, 0]))
  (hlow : ∀ {n e}, n < userPages → leafOf v parent (pageVa n) = some e →
    reservedFrames ≤ e.frame)
include hroots hcard hparent hchild hne hpd hlow

/-- The inner loop of `vmm_copy_cow`, up to page `m` of the table. -/
theorem Sharing.entries {i : Nat} (hi : i < 512) (hplain : i ∉ kernelPages) {w : Vm} {o : Owners}
    (h : Sharing v own parent child pd (i * 512) w o) {pt : Nat}
    (hpt : o pt = some (.table parent [0, 0, i])) (hm : m ≤ 512) :
    ∃ o', Grow o o' ∧ Sharing v own parent child pd (i * 512 + m)
      ((List.range m).foldl (fun w j => sharePage w child pt i j) w) o' := by
  induction m with
  | zero => exact ⟨o, Grow.refl o, by simpa using h⟩
  | succ m ih =>
      obtain ⟨o₁, hgrow, h₁⟩ := ih (Nat.le_of_succ_le hm)
      have hdiv : (i * 512 + m) / 512 = i := by omega
      have hmod : (i * 512 + m) % 512 = m := by omega
      have hk : i * 512 + m < userPages := by
        simp only [userPages]
        omega
      have hpt₁ : o₁ pt = some (.table parent [0, 0, (i * 512 + m) / 512]) := by
        rw [hdiv]
        exact hgrow.tables hpt
      have hnext := h₁.next hroots hcard hk hparent hchild hne hpd (by rwa [hdiv]) hlow hpt₁
      rw [hdiv, hmod] at hnext
      obtain ⟨o₂, hgrow₂, h₂⟩ := hnext
      rw [List.range_succ, List.foldl_append, List.foldl_cons, List.foldl_nil, ← Nat.add_assoc]
      exact ⟨o₂, hgrow.trans hgrow₂, h₂⟩

/-- The outer loop of `vmm_copy_cow`, up to table `m`. -/
theorem Sharing.tables {dir : Nat} (hdir : own dir = some (.table parent [0, 0]))
    (h : Sharing v own parent child pd 0 v own) (hm : m ≤ 512) :
    ∃ o', Sharing v own parent child pd (m * 512)
      ((List.range m).foldl (fun w i => shareTable w child dir i) v) o' := by
  induction m with
  | zero => exact ⟨own, by simpa using h⟩
  | succ m ih =>
      obtain ⟨o₁, h₁⟩ := ih (Nat.le_of_succ_le hm)
      rw [List.range_succ, List.foldl_append, List.foldl_cons, List.foldl_nil, Nat.succ_mul]
      generalize (List.range m).foldl (fun w i => shareTable w child dir i) v = w at *
      have hdir₁ := h₁.grow.tables hdir
      unfold shareTable
      dsimp only
      split
      · rename_i hskip
        refine ⟨o₁, h₁.skips ?_⟩
        intro j hj
        have hk : m * 512 + j < userPages := by
          simp only [userPages]
          omega
        have hnone : leafOf w parent (pageVa (m * 512 + j)) = none := by
          apply leafOf_none_of_entry h₁.inv (h₁.grow.tables hparent) hdir₁ hk
          rw [show (m * 512 + j) / 512 = m by omega]
          simpa using hskip
        rw [h₁.first hk, if_neg (by omega)] at hnone
        exact hnone
      · rename_i hskip
        simp only [Bool.or_eq_true, Bool.not_eq_true', not_or, Bool.not_eq_false,
          Bool.not_eq_true] at hskip
        have hplain : m ∉ kernelPages := by
          intro hc
          rw [(h₁.kernel hdir₁).mpr hc] at hskip
          cases hskip.2
        have hpt : o₁ (w.mem dir m).frame = some (.table parent [0, 0, m]) := by
          rcases h₁.inv.child hdir₁ (by simp) hskip.1 hskip.2 with hp | ⟨-, hbad, -⟩
          · exact hp
          · cases hbad
        obtain ⟨o₂, -, h₂⟩ := h₁.entries hroots hcard hparent hchild hne hpd hlow
          (Nat.lt_of_succ_le hm) hplain hpt (Nat.le_refl 512)
        exact ⟨o₂, h₂⟩

/-- `vmm_copy_cow` with frames for the page tables of the child: both address
spaces end up with the pages of the parent, write-protected. -/
theorem copyCow_spec (h : Inv v own) (hkernel : KernelMapped v own)
    (hempty : ∀ va, leafOf v child va = none)
    (hframes : (neededTables v parent).card ≤ (freeFrames v).card) :
    ∃ own', Inv (copyCow v parent child) own' ∧ Grow own own' ∧
      KernelMapped (copyCow v parent child) own' ∧
      (∀ {n e}, n < userPages → leafOf v parent (pageVa n) = some e →
        2 ≤ (copyCow v parent child).cow e.frame) ∧
      ∀ {r n}, IsRoot own r → n < userPages → leafOf (copyCow v parent child) r (pageVa n) =
        if r = parent ∨ r = child then (leafOf v parent (pageVa n)).map PTE.sharing
        else leafOf v r (pageVa n) := by
  obtain ⟨hpdpt, hdir⟩ := h.first_tables hparent
  have hstart : Sharing v own parent child pd 0 v own := by
    refine ⟨h, Grow.refl own, hkernel, fun _ _ _ _ => rfl, ?_, ?_, ?_, ?_⟩
    · exact fun _ => by rw [if_neg (Nat.not_lt_zero _)]
    · exact fun _ => by rw [if_neg (Nat.not_lt_zero _), hempty]
    · exact fun hn => absurd hn (Nat.not_lt_zero _)
    · exact (Finset.card_le_card (Finset.filter_subset _ _)).trans hframes
  obtain ⟨own', hend⟩ := hstart.tables hroots hcard hparent hchild hne hpd hlow hdir
    (Nat.le_refl 512)
  have heq : copyCow v parent child = (List.range 512).foldl
      (fun w i => shareTable w child (v.mem (v.mem parent 0).frame 0).frame i) v := by
    unfold copyCow
    rw [if_neg (by simp [h.root_pos hparent, h.root_pos hchild])]
    simp only [h.spine (Or.inl hparent), h.spine (Or.inr hpdpt), Bool.not_true, Bool.false_eq_true,
      if_false]
  rw [heq]
  have hlast {n : Nat} (hn : n < userPages) : n < 512 * 512 := by
    simpa [userPages] using hn
  refine ⟨own', hend.inv, hend.grow, hend.kernel, fun hn he => hend.counted (hlast hn) he, ?_⟩
  intro r n hr hn
  by_cases hrp : r = parent
  · rw [if_pos (Or.inl hrp), hrp, hend.first hn, if_pos (hlast hn)]
  · by_cases hrc : r = child
    · rw [if_pos (Or.inr hrc), hrc, hend.second hn, if_pos (hlast hn)]
    · rw [if_neg (by simp [hrp, hrc]), hend.others hr hrp hrc hn]

end Loops

end OriaOS.Vmm
