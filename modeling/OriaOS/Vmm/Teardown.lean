import OriaOS.Vmm.Leak

/-!
# What a teardown gives back

The teardown of an address space releases its page tables below `pml4[0]` and `pdpt[0]`, and the
pages that it finds in them with a counter of zero. Every other frame stays as it is. What this
means for the free frames after a call that took frames and tore down again is a matter of which
frames the teardown can still find.
-/

namespace OriaOS.Vmm

variable {path : List Nat} {d p pd r' va : Nat} {e : PTE}
variable {v w : Vm} {own own' : Owners} {r : Nat}

/-! ## Translations -/

/-- A walk reads the tables of its address space and the boot directories. -/
theorem Inv.pdOf_congr (h : Inv v own) (hr : IsRoot own r)
    (hmem : ∀ {p path i}, own p = some (.table r path) → path.length < 2 → w.mem p i = v.mem p i)
    (va : Nat) : pdOf w r va = pdOf v r va := by
  have htop : tableAt w r (pml4Idx va) = tableAt v r (pml4Idx va) := by
    rw [tableAt, tableAt, hmem hr (by simp)]
  rw [pdOf, pdOf, htop]
  cases hpdpt : tableAt v r (pml4Idx va) with
  | none => rfl
  | some pdpt =>
      obtain ⟨hpres, rfl⟩ := tableAt_eq_some.mp hpdpt
      have hown : own (v.mem r (pml4Idx va)).frame = some (.table r [pml4Idx va]) := by
        rcases h.child hr (by simp) hpres (h.not_large hr (by simp)) with hp | ⟨-, hbad, -⟩
        · exact hp
        · cases hbad
      rw [Option.bind_some, Option.bind_some, tableAt, tableAt, hmem hown (by simp)]

theorem Inv.getPhys_congr (h : Inv v own) (hr : IsRoot own r)
    (hmem : ∀ {p path}, own p = some (.table r path) → w.mem p = v.mem p)
    (hboot : ∀ {p}, IsBootPd p → w.mem p = v.mem p) (va : Nat) :
    getPhys w r va = getPhys v r va := by
  have hdir : pdOf w r va = pdOf v r va := h.pdOf_congr hr (fun hp _ => by rw [hmem hp]) va
  unfold getPhys
  rw [hdir]
  split
  · rfl
  cases hpd : pdOf v r va with
  | none => rfl
  | some pd =>
      have hsame : w.mem pd = v.mem pd := (h.pdOf_spec hr hpd).elim hmem hboot
      dsimp only
      rw [hsame]
      split
      · rfl
      split
      · rfl
      · next hpres hlarge =>
        have hwalk : ptOf v r va = some (v.mem pd (pdIdx va)).frame := by
          rw [ptOf, hpd, Option.bind_some, if_neg hlarge, tableAt, if_pos (by simpa using hpres)]
        rw [hmem (h.ptOf_spec hr hwalk)]

theorem Inv.leafOf_congr (h : Inv v own) (hr : IsRoot own r)
    (hmem : ∀ {p path}, own p = some (.table r path) → w.mem p = v.mem p)
    (hboot : ∀ {p}, IsBootPd p → w.mem p = v.mem p) (va : Nat) :
    leafOf w r va = leafOf v r va := by
  have hdir : pdOf w r va = pdOf v r va := h.pdOf_congr hr (fun hp _ => by rw [hmem hp]) va
  have hpt : ptOf w r va = ptOf v r va := by
    rw [ptOf, ptOf, hdir]
    cases hpd : pdOf v r va with
    | none => rfl
    | some pd =>
        have hsame : w.mem pd = v.mem pd := (h.pdOf_spec hr hpd).elim hmem hboot
        rw [Option.bind_some, Option.bind_some, tableAt, tableAt, hsame]
  rw [leafOf, leafOf, hpt]
  cases hwalk : ptOf v r va with
  | none => rfl
  | some pt => rw [Option.bind_some, Option.bind_some, hmem (h.ptOf_spec hr hwalk)]

/-- A page directory on a walk is no page table. -/
theorem Inv.pd_ne (h : Inv v own) (hp : own p = some (.table r path)) (hlen : path.length = 3)
    (hr' : IsRoot own r') (hpd : pdOf v r' va = some pd) : pd ≠ p := by
  rintro rfl
  rcases h.pdOf_spec hr' hpd with hown | hboot
  · rw [hp] at hown
    cases hown
    cases hlen
  · exact absurd (Nat.le_trans (h.range hp).1 hboot.2) (by decide)

theorem Inv.ptOf_setEntry (h : Inv v own) (hp : own p = some (.table r path))
    (hlen : path.length = 3) (hr' : IsRoot own r') (va : Nat) :
    ptOf (setEntry v p d e) r' va = ptOf v r' va := by
  have hdir : pdOf (setEntry v p d e) r' va = pdOf v r' va :=
    h.pdOf_congr hr' (fun hq hshort =>
      setEntry_other fun hc => ne_of_short hp hlen hq (by omega) hc.1) va
  rw [ptOf, ptOf, hdir]
  cases hpd : pdOf v r' va with
  | none => rfl
  | some pd =>
      rw [Option.bind_some, Option.bind_some, tableAt, tableAt,
        setEntry_other fun hc => h.pd_ne hp hlen hr' hpd hc.1]

/-- Setting an entry of a page table changes the entry of one page. -/
theorem Inv.leafOf_setEntry (h : Inv v own) (hp : own p = some (.table r path))
    (hlen : path.length = 3) (hr' : IsRoot own r') (va : Nat) :
    leafOf (setEntry v p d e) r' va =
      if r' = r ∧ vaPath va = path ∧ ptIdx va = d then if e.present then some e else none
      else leafOf v r' va := by
  rw [leafOf, leafOf, h.ptOf_setEntry hp hlen hr']
  by_cases hat : r' = r ∧ vaPath va = path ∧ ptIdx va = d
  · obtain ⟨rfl, rfl, rfl⟩ := hat
    rw [if_pos ⟨rfl, rfl, rfl⟩, h.ptOf_of_own hp, Option.bind_some, setEntry_same]
  · rw [if_neg hat]
    cases hwalk : ptOf v r' va with
    | none => rfl
    | some pt =>
        have hown := h.ptOf_spec hr' hwalk
        have hne : ¬ (pt = p ∧ ptIdx va = d) := by
          rintro ⟨rfl, hd⟩
          rw [hp] at hown
          cases hown
          exact hat ⟨rfl, rfl, hd⟩
        rw [Option.bind_some, Option.bind_some, setEntry_other hne]

/-- Setting an entry of a page table changes the translation of one page. -/
theorem Inv.getPhys_setEntry (h : Inv v own) (hp : own p = some (.table r path))
    (hlen : path.length = 3) (hr' : IsRoot own r') (va : Nat) :
    getPhys (setEntry v p d e) r' va =
      if r' = r ∧ vaPath va = path ∧ ptIdx va = d then if e.present then e.frame else 0
      else getPhys v r' va := by
  have hother {q k : Nat} (hq : q ≠ p) : (setEntry v p d e).mem q k = v.mem q k :=
    setEntry_other fun hc => hq hc.1
  have hdir : pdOf (setEntry v p d e) r' va = pdOf v r' va :=
    h.pdOf_congr hr' (fun hq hshort => hother (ne_of_short hp hlen hq (by omega))) va
  by_cases hpt : ptOf v r' va = some p
  · -- The walk comes to the table that is written to.
    have hown := h.ptOf_spec hr' hpt
    rw [hp] at hown
    cases hown
    obtain ⟨pd, hpd, hentry⟩ := Option.bind_eq_some_iff.mp hpt
    have hne : pd ≠ p := h.pd_ne hp hlen hr' hpd
    by_cases hl : (v.mem pd (pdIdx va)).large = true
    · rw [if_pos hl] at hentry
      cases hentry
    rw [if_neg hl] at hentry
    obtain ⟨hpres, hframe⟩ := tableAt_eq_some.mp hentry
    simp only [getPhys, if_neg (h.root_pos hr'), hdir, hpd, hother hne, hpres, hl, hframe,
      Bool.not_true, Bool.false_eq_true, if_false, setEntry_mem, true_and]
    split <;> rfl
  · have hnot : ¬ (r' = r ∧ vaPath va = path ∧ ptIdx va = d) := by
      rintro ⟨rfl, rfl, -⟩
      exact hpt (h.ptOf_of_own hp)
    rw [if_neg hnot]
    unfold getPhys
    rw [hdir]
    split
    · rfl
    cases hpd : pdOf v r' va with
    | none => rfl
    | some pd =>
        have hne : pd ≠ p := h.pd_ne hp hlen hr' hpd
        dsimp only
        simp only [hother hne]
        split
        · rfl
        split
        · rfl
        · next hpres hlarge =>
          have hwalk : ptOf v r' va = some (v.mem pd (pdIdx va)).frame := by
            rw [ptOf, hpd, Option.bind_some, if_neg hlarge, tableAt,
              if_pos (by simpa using hpres)]
          have hpt' : (v.mem pd (pdIdx va)).frame ≠ p := by
            intro hc
            exact hpt (hc ▸ hwalk)
          rw [hother hpt']

/-! ## The frames that are found -/

/-- The teardown of `r` finds the frame: it is a table of user space, or a page there with a
counter of zero. -/
def Returns (v : Vm) (own : Owners) (r f : Nat) : Prop :=
  (∃ path, own f = some (.table r path) ∧ UserPath path) ∨
    ∃ p i d, own p = some (.table r [0, 0, i]) ∧ (v.mem p d).present = true ∧
      (v.mem p d).frame = f ∧ reservedFrames ≤ f ∧ v.cow f = 0

/-- The frame may have been released, and its counter has not grown. -/
structure Wanes (f : Nat) (v w : Vm) : Prop where
  mem : w.mem = v.mem
  used : w.used f = true → v.used f = true
  cow : w.cow f ≤ v.cow f

section Found
variable {f : Nat}

theorem Wanes.refl (v : Vm) : Wanes f v v := ⟨rfl, id, Nat.le_refl _⟩

theorem Wanes.trans {u : Vm} (h : Wanes f v w) (h' : Wanes f w u) : Wanes f v u :=
  ⟨h'.mem.trans h.mem, fun hf => h.used (h'.used hf), h'.cow.trans h.cow⟩

/-- A released frame stays released. -/
theorem Wanes.free (h : Wanes f v w) (hf : v.used f = false) : w.used f = false := by
  by_contra hc
  have hused := h.used (Bool.eq_true_of_not_eq_false hc)
  rw [hf] at hused
  cases hused

theorem freeFrame_wanes (v : Vm) (g : Nat) : Wanes f v (freeFrame v g) :=
  ⟨freeFrame_mem v g, (freeFrame_released v g).used, by rw [freeFrame_cow]⟩

theorem releaseEntry_wanes (v : Vm) (pt j : Nat) : Wanes f v (releaseEntry v pt j) := by
  unfold releaseEntry releasePage
  split
  · split
    · exact Wanes.refl v
    · split
      · refine ⟨rfl, id, ?_⟩
        by_cases hf : f = (v.mem pt j).frame
        · rw [hf]
          simp
        · simp [hf]
      · exact freeFrame_wanes v _
  · exact Wanes.refl v

theorem foldl_wanes {α : Type*} {body : Vm → α → Vm} (hbody : ∀ u a, Wanes f u (body u a))
    (items : List α) (u : Vm) : Wanes f u (items.foldl body u) := by
  induction items generalizing u with
  | nil => exact Wanes.refl u
  | cons a items ih =>
      rw [List.foldl_cons]
      exact (hbody u a).trans (ih _)

theorem releaseTable_wanes (v : Vm) (pd i : Nat) : Wanes f v (releaseTable v pd i) := by
  unfold releaseTable
  dsimp only
  split
  · exact Wanes.refl v
  · exact (foldl_wanes (fun u j => releaseEntry_wanes u _ j) _ v).trans (freeFrame_wanes _ _)

/-- A loop in which one step releases the frame. -/
theorem foldl_frees {α : Type*} {body : Vm → α → Vm} (hbody : ∀ u a, Wanes f u (body u a))
    {items : List α} {a₀ : α} (hmem : a₀ ∈ items) {u : Vm}
    (hhit : ∀ {u'}, Wanes f u u' → (body u' a₀).used f = false) :
    (items.foldl body u).used f = false := by
  obtain ⟨before, after, rfl⟩ := List.append_of_mem hmem
  rw [List.foldl_append, List.foldl_cons]
  exact (foldl_wanes hbody after _).free (hhit (foldl_wanes hbody before u))

/-- A page of a page table with a counter of zero is released with the table. -/
theorem releaseTable_frees {i : Nat} (hi : (v.mem pd i).present = true)
    (hlarge : (v.mem pd i).large = false) (hd : d < 512)
    (hpres : (v.mem (v.mem pd i).frame d).present = true)
    (hf : (v.mem (v.mem pd i).frame d).frame = f) (hlow : reservedFrames ≤ f)
    (hhigh : f < totalFrames) (hcow : v.cow f = 0) (hw : Wanes f v w) :
    (releaseTable w pd i).used f = false := by
  unfold releaseTable
  dsimp only
  rw [hw.mem, if_neg (by simp [hi, hlarge])]
  apply (freeFrame_wanes _ _).free
  apply foldl_frees (fun u j => releaseEntry_wanes u _ j) (List.mem_range.mpr hd)
  intro u hu
  have hmem : u.mem = v.mem := hu.mem.trans hw.mem
  have hzero : u.cow f = 0 := Nat.eq_zero_of_le_zero ((hu.cow.trans hw.cow).trans_eq hcow)
  unfold releaseEntry releasePage
  rw [hmem, if_pos hpres, hf, if_neg (Nat.not_lt.mpr hlow), if_neg (by simp [hzero])]
  exact freeFrame_free hlow hhigh

/-- What the teardown finds is free afterwards. -/
theorem freeUserMemory_frees (h : Inv v own) (hr : IsRoot own r) (hf : Returns v own r f) :
    (freeUserMemory v r).used f = false := by
  obtain ⟨hpdpt, hpd⟩ := h.first_tables hr
  rw [freeUserMemory_eq h hr]
  generalize (v.mem r 0).frame = pdpt at *
  generalize (v.mem pdpt 0).frame = pd at *
  have hfree {u : Vm} {path : List Nat} (hf : own f = some (.table r path)) :
      (freeFrame u f).used f = false :=
    freeFrame_free (h.range hf).1 (h.range hf).2.1
  have hlast (u : Vm) : Wanes f u (freeFrame (freeFrame (freeFrame u pd) pdpt) r) :=
    ((freeFrame_wanes _ _).trans (freeFrame_wanes _ _)).trans (freeFrame_wanes _ _)
  have hrow {p i : Nat} (hp : own p = some (.table r [0, 0, i])) :
      (v.mem pd i).present = true ∧ (v.mem pd i).frame = p ∧ (v.mem pd i).large = false ∧
        i ∈ List.range 512 := by
    obtain ⟨hpres, hframe, hlarge⟩ := h.entry [0, 0] hp hpd
    exact ⟨hpres, hframe, hlarge, List.mem_range.mpr (h.bounded hp (by simp [Owner.indices]))⟩
  rcases hf with ⟨path, hf, hpath | ⟨i, rfl⟩⟩ | ⟨p, i, d, hp, hpres, hframe, hlow, hcow⟩
  · simp only [List.mem_cons, List.not_mem_nil, or_false] at hpath
    rcases hpath with rfl | rfl | rfl
    · obtain rfl := h.top hf
      exact hfree hf
    · obtain rfl := h.table_unique hpdpt hf
      exact (freeFrame_wanes _ _).free (hfree hf)
    · obtain rfl := h.table_unique hpd hf
      exact ((freeFrame_wanes _ _).trans (freeFrame_wanes _ _)).free (hfree hf)
  · obtain ⟨hpres, hframe, hlarge, hi⟩ := hrow hf
    apply (hlast _).free
    apply foldl_frees (fun u i => releaseTable_wanes u pd i) hi
    intro u hu
    unfold releaseTable
    dsimp only
    rw [hu.mem, if_neg (by simp [hpres, hlarge]), hframe]
    exact hfree hf
  · obtain ⟨hpres', rfl, hlarge, hi⟩ := hrow hp
    have hpage : own f = some (.page [0, 0, i] d) := by
      have hleaf := h.leaf hp rfl hpres
      rw [hframe] at hleaf
      exact hleaf.resolve_left (Nat.not_lt.mpr hlow)
    have hd : d < 512 := h.bounded hpage (by simp [Owner.indices])
    apply (hlast _).free
    apply foldl_frees (fun u i => releaseTable_wanes u pd i) hi
    exact releaseTable_frees hpres' hlarge hd hpres hframe hlow (h.range hpage).2.1 hcow

/-- A row of the page directory that does not lead to the frame. -/
theorem releaseTable_keeps (h : Inv v own) {k : Nat} (hpd : own pd = some (.table r [0, 0]))
    (hw : w.mem = v.mem) (htable : ∀ i, own f ≠ some (.table r [0, 0, i]))
    (hpage : ∀ {p i d}, own p = some (.table r [0, 0, i]) → (v.mem p d).present = true →
      (v.mem p d).frame ≠ f) :
    Keeps f w (releaseTable w pd k) := by
  unfold releaseTable
  dsimp only
  rw [hw]
  split
  · exact Keeps.refl w
  · next hskip =>
    simp only [Bool.or_eq_true, Bool.not_eq_true', not_or, Bool.not_eq_false,
      Bool.not_eq_true] at hskip
    have hpt : own (v.mem pd k).frame = some (.table r [0, 0, k]) := by
      rcases h.child hpd (by simp) hskip.1 hskip.2 with hp | ⟨-, hbad, -⟩
      · exact hp
      · cases hbad
    refine Keeps.trans (foldl_keeps (v := v) ?_ hw) (freeFrame_keeps ?_)
    · exact fun _ hu => releaseEntry_keeps hu (hpage hpt)
    · rintro rfl
      exact htable k hpt

/-- A page of the bitmap that a page table of the address space names is owned there. -/
theorem Inv.page_of_entry (h : Inv v own) (hp : own p = some (.table r path))
    (hlen : path.length = 3) (hpres : (v.mem p d).present = true) (hframe : (v.mem p d).frame = f)
    (hlow : reservedFrames ≤ f) : own f = some (.page path d) := by
  have hleaf := h.leaf hp hlen hpres
  rw [hframe] at hleaf
  exact hleaf.resolve_left (Nat.not_lt.mpr hlow)

/-- What the teardown does not find stays as it is. -/
theorem freeUserMemory_keeps (h : Inv v own) (hr : IsRoot own r) (hlow : reservedFrames ≤ f)
    (hf : ¬ Returns v own r f) : (freeUserMemory v r).used f = v.used f := by
  obtain ⟨hpdpt, hpd⟩ := h.first_tables hr
  by_cases hpage : ∀ {p i d}, own p = some (.table r [0, 0, i]) → (v.mem p d).present = true →
      (v.mem p d).frame ≠ f
  · have hne {p : Nat} {path : List Nat} (hp : own p = some (.table r path))
        (hpath : UserPath path) : f ≠ p := by
      rintro rfl
      exact hf (Or.inl ⟨path, hp, hpath⟩)
    have hrows : Keeps f v ((List.range 512).foldl
        (fun u i => releaseTable u (v.mem (v.mem r 0).frame 0).frame i) v) := by
      refine foldl_keeps (v := v) (fun _ hu => ?_) rfl
      exact releaseTable_keeps h hpd hu (fun i hc => hne hc (Or.inr ⟨i, rfl⟩) rfl) hpage
    rw [freeUserMemory_eq h hr]
    exact (((hrows.trans (freeFrame_keeps (hne hpd (Or.inl (by simp))))).trans
      (freeFrame_keeps (hne hpdpt (Or.inl (by simp))))).trans
      (freeFrame_keeps (hne hr (Or.inl (by simp))))).used
  · -- A page that is found, with a counter above zero.
    simp only [not_forall, not_not] at hpage
    obtain ⟨p, i, d, hp, hpres, hframe⟩ := hpage
    have hpos : 0 < v.cow f := by
      by_contra hzero
      exact hf (Or.inr ⟨p, i, d, hp, hpres, hframe, hlow, Nat.eq_zero_of_not_pos hzero⟩)
    exact (freeUserMemory_spends h hr (h.page_of_entry hp rfl hpres hframe hlow) hpos).used

theorem freeUserMemory_used (h : Inv v own) (hr : IsRoot own r) (f : Nat) :
    (freeUserMemory v r).used f = true ↔ v.used f = true ∧ ¬ Returns v own r f := by
  rcases Nat.lt_or_ge f reservedFrames with hlt | hlow
  · -- A reserved frame is never released.
    obtain ⟨own', h', -⟩ := freeUserMemory_spec h hr
    refine iff_of_true (h'.reserved f hlt) ⟨h.reserved f hlt, ?_⟩
    rintro (⟨path, hf, -⟩ | ⟨-, -, -, -, -, -, hlow, -⟩)
    · exact absurd (h.range hf).1 (Nat.not_le.mpr hlt)
    · exact absurd hlow (Nat.not_le.mpr hlt)
  · by_cases hf : Returns v own r f
    · simp [freeUserMemory_frees h hr hf, hf]
    · simp [freeUserMemory_keeps h hr hlow hf, hf]

end Found

/-! ## Unmapping a range -/

/-- Two addresses in one page. -/
def SamePage (va va' : Nat) : Prop := vaPath va' = vaPath va ∧ ptIdx va' = ptIdx va

instance (va va' : Nat) : Decidable (SamePage va va') := inferInstanceAs (Decidable (_ ∧ _))

theorem getPhys_samePage {va' : Nat} (h : SamePage va va') : getPhys v r va' = getPhys v r va := by
  obtain ⟨hpath, hidx⟩ := h
  simp only [vaPath, List.cons.injEq, and_true] at hpath
  obtain ⟨htop, hmid, hlow⟩ := hpath
  simp only [getPhys, pdOf, htop, hmid, hlow, hidx]

theorem leafOf_samePage {va' : Nat} (h : SamePage va va') : leafOf v r va' = leafOf v r va := by
  obtain ⟨hpath, hidx⟩ := h
  simp only [vaPath, List.cons.injEq, and_true] at hpath
  obtain ⟨htop, hmid, hlow⟩ := hpath
  simp only [leafOf, ptOf, pdOf, htop, hmid, hlow, hidx]

/-- A page without an entry in its page table is not mapped. -/
theorem getPhys_of_leaf_none (hpt : (ptOf v r va).isSome = true) (hleaf : leafOf v r va = none) :
    getPhys v r va = 0 := by
  obtain ⟨pt, hpt⟩ := Option.isSome_iff_exists.mp hpt
  rw [leafOf, hpt, Option.bind_some] at hleaf
  obtain ⟨pd, hpd, hentry⟩ := Option.bind_eq_some_iff.mp hpt
  by_cases hl : (v.mem pd (pdIdx va)).large = true
  · rw [if_pos hl] at hentry
    cases hentry
  · rw [if_neg hl] at hentry
    obtain ⟨hpres, rfl⟩ := tableAt_eq_some.mp hentry
    have hnone : ¬ (v.mem (v.mem pd (pdIdx va)).frame (ptIdx va)).present = true := by
      intro hc
      rw [if_pos hc] at hleaf
      cases hleaf
    simp [getPhys, hpd, hpres, hl, hnone]

/-- One page: its entry is cleared, if it has one, and its frame is released. -/
theorem unmapFree_effect (h : Inv v own) (hr : IsRoot own r) (va : Nat) :
    (∀ {r' va'}, IsRoot own r' → ptOf (unmapFree v r va) r' va' = ptOf v r' va' ∧
      getPhys (unmapFree v r va) r' va' =
        (if r' = r ∧ SamePage va va' ∧ (ptOf v r va).isSome = true then 0 else getPhys v r' va') ∧
      leafOf (unmapFree v r va) r' va' =
        if r' = r ∧ SamePage va va' ∧ (ptOf v r va).isSome = true then none
        else leafOf v r' va') ∧
    ∀ g, (unmapFree v r va).used g = true ↔ v.used g = true ∧
      ¬ (g = getPhys v r va ∧ reservedFrames ≤ g ∧ g < totalFrames) := by
  have hmem : (unmapFree v r va).mem = (unmapPage v r va).mem := by
    unfold unmapFree
    dsimp only
    split
    · exact freeFrame_mem _ _
    · rfl
  have hused : (unmapPage v r va).used = v.used := by
    unfold unmapPage
    split
    · rfl
    · cases ptOf v r va <;> rfl
  constructor
  · intro r' va' hr'
    have hphys : getPhys (unmapFree v r va) r' va' = getPhys (unmapPage v r va) r' va' := by
      simp only [getPhys, pdOf, tableAt, hmem]
    have hpt : ptOf (unmapFree v r va) r' va' = ptOf (unmapPage v r va) r' va' := by
      simp only [ptOf, pdOf, tableAt, hmem]
    rw [hphys, hpt, leafOf_of_mem hmem]
    cases hwalk : ptOf v r va with
    | none =>
        rw [h.unmapPage_none hr hwalk]
        simp
    | some pt =>
        have hown := h.ptOf_spec hr hwalk
        rw [h.unmapPage_some hr hwalk, h.getPhys_setEntry hown rfl hr',
          h.ptOf_setEntry hown rfl hr', h.leafOf_setEntry hown rfl hr']
        simp [SamePage, PTE.zero]
  · intro g
    unfold unmapFree
    dsimp only
    by_cases hg : g = getPhys v r va ∧ reservedFrames ≤ g ∧ g < totalFrames
    · obtain ⟨hphys, hlow, hhigh⟩ := hg
      rw [← hphys, if_pos (Nat.le_trans (by decide) hlow), freeFrame_free hlow hhigh]
      simp [hlow, hhigh]
    · have hsame : (if 768 ≤ getPhys v r va then freeFrame (unmapPage v r va) (getPhys v r va)
          else unmapPage v r va).used g = v.used g := by
        split
        · by_cases hphys : g = getPhys v r va
          · have hout : OutOfRange (getPhys v r va) := by
              rw [← hphys, OutOfRange]
              by_contra hin
              exact hg ⟨hphys, by omega, by omega⟩
            rw [freeFrame_outOfRange hout, hused]
          · rw [freeFrame_used hphys, hused]
        · rw [hused]
      rw [hsame]
      simp only [hg, not_false_eq_true, and_true]

/-- A range of pages has been unmapped, and their frames have been released. -/
structure Unmapped (v w : Vm) (own : Owners) (r va n : Nat) : Prop where
  tables : ∀ {r' va'}, IsRoot own r' → ptOf w r' va' = ptOf v r' va'
  phys : ∀ {r' va'}, IsRoot own r' → getPhys w r' va' =
    if r' = r ∧ ∃ k < n, SamePage (va + k * 0x1000) va' ∧
      (ptOf v r (va + k * 0x1000)).isSome = true then 0
    else getPhys v r' va'
  leaf : ∀ {r' va'}, IsRoot own r' → leafOf w r' va' =
    if r' = r ∧ ∃ k < n, SamePage (va + k * 0x1000) va' ∧
      (ptOf v r (va + k * 0x1000)).isSome = true then none
    else leafOf v r' va'
  used : ∀ g, w.used g = true ↔ v.used g = true ∧
    ¬ ((∃ k < n, g = getPhys v r (va + k * 0x1000)) ∧ reservedFrames ≤ g ∧ g < totalFrames)

theorem unmapRange_effect (h : Inv v own) (hr : IsRoot own r) {n : Nat}
    (hs : ∀ k < n, Sole v own r (va + k * 0x1000)) :
    Unmapped v (unmapRange v r va n) own r va n := by
  induction n with
  | zero => exact ⟨fun _ => rfl, by simp [unmapRange], by simp [unmapRange], by simp [unmapRange]⟩
  | succ n ih =>
      have hs' : ∀ k < n, Sole v own r (va + k * 0x1000) := fun k hk => hs k (Nat.lt_succ_of_lt hk)
      have hrest := ih hs'
      obtain ⟨own₁, h₁, hgrow, -⟩ := unmapRange_fewer h hr hs'
      obtain ⟨hphys, hused⟩ := unmapFree_effect h₁ (hgrow.tables hr) (va + n * 0x1000)
      rw [← unmapRange_succ] at hphys hused
      rw [hrest.tables hr] at hphys
      -- A page of the range is the last one, or one before it.
      have hsplit {α : Type} (x y : α) (r' va' : Nat) :
          (if r' = r ∧ SamePage (va + n * 0x1000) va' ∧
              (ptOf v r (va + n * 0x1000)).isSome = true then x
            else if r' = r ∧ ∃ k < n, SamePage (va + k * 0x1000) va' ∧
              (ptOf v r (va + k * 0x1000)).isSome = true then x else y) =
          if r' = r ∧ ∃ k < n + 1, SamePage (va + k * 0x1000) va' ∧
            (ptOf v r (va + k * 0x1000)).isSome = true then x else y := by
        by_cases hlast : r' = r ∧ SamePage (va + n * 0x1000) va' ∧
            (ptOf v r (va + n * 0x1000)).isSome = true
        · rw [if_pos hlast, if_pos ⟨hlast.1, n, Nat.lt_succ_self n, hlast.2⟩]
        · rw [if_neg hlast]
          refine if_congr (and_congr_right fun hrr => ?_) rfl rfl
          rw [Nat.exists_lt_succ_right]
          exact ⟨Or.inl, fun hk => hk.resolve_right fun hn => hlast ⟨hrr, hn⟩⟩
      constructor
      · exact fun hr' => (hphys (hgrow.tables hr')).1.trans (hrest.tables hr')
      · intro r' va' hr'
        rw [(hphys (hgrow.tables hr')).2.1, hrest.phys hr', hsplit]
      · intro r' va' hr'
        rw [(hphys (hgrow.tables hr')).2.2, hrest.leaf hr', hsplit]
      · intro g
        rw [hused, hrest.used, hrest.phys hr, Nat.exists_lt_succ_right, and_assoc, and_congr_right]
        intro _
        by_cases hin : reservedFrames ≤ g ∧ g < totalFrames
        · by_cases hagain : ∃ k < n, SamePage (va + k * 0x1000) (va + n * 0x1000) ∧
              (ptOf v r (va + k * 0x1000)).isSome = true
          · -- The page went with an earlier one.
            rw [if_pos ⟨rfl, hagain⟩]
            obtain ⟨k, hk, hsame, -⟩ := hagain
            have hzero : g ≠ 0 := Nat.ne_of_gt (Nat.lt_of_lt_of_le (by decide) hin.1)
            simp only [hin, hzero, and_true, not_false_eq_true, getPhys_samePage hsame]
            refine not_congr ⟨Or.inl, fun hg => hg.elim id fun hn => ⟨k, hk, hn⟩⟩
          · rw [if_neg fun hc => hagain hc.2]
            simp only [hin, and_true, not_or]
        · simp only [hin, and_false, not_false_eq_true, and_self]

end OriaOS.Vmm
