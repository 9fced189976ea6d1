import OriaOS.Vmm.Tables

/-!
# Who owns a frame

An ownership map says what each allocated frame is: a table at a place in one
address space, or a data page at a virtual address, the same in every address
space that maps it. The invariant ties the map to the tables in memory. A frame
without owner may still be marked used: it has leaked, or is about to be mapped.

The counter of a page is only bounded from below, and only when the page is
shared: it is never less than the number of tables that map the page.
-/

namespace OriaOS.Vmm

variable {path : List Nat} {d f g p q r r' : Nat} {v v' : Vm}

/-- What a frame is. A path lists the indices from the PML4 down. -/
inductive Owner
  | table (root : Nat) (path : List Nat)
  | page (path : List Nat) (d : Nat)

/-- All indices of the place. -/
def Owner.indices : Owner → List Nat
  | .table _ path => path
  | .page path d => path ++ [d]

abbrev Owners := Nat → Option Owner

/-- Frames the bitmap never hands out. -/
def OutOfRange (f : Nat) : Prop := f < reservedFrames ∨ totalFrames ≤ f

/-- The boot page directories above 1 GB, shared by all address spaces. -/
def IsBootPd (f : Nat) : Prop := 4 ≤ f ∧ f ≤ 6

open Classical in
/-- The page tables that map the page `g` at its address. -/
noncomputable def mappers (v : Vm) (own : Owners) (g : Nat) (path : List Nat) (d : Nat) :
    Finset Nat :=
  (Finset.Ico reservedFrames totalFrames).filter fun p =>
    (∃ r, own p = some (.table r path)) ∧ (v.mem p d).present = true ∧ (v.mem p d).frame = g

/-- The ownership map describes the tables, the bitmap and the counters. -/
structure Inv (v : Vm) (own : Owners) : Prop where
  range : ∀ {f o}, own f = some o → reservedFrames ≤ f ∧ f < totalFrames ∧ v.used f = true
  reserved : ∀ f < reservedFrames, v.used f = true
  tableDepth : ∀ {f r path}, own f = some (.table r path) → path.length ≤ 3
  pageDepth : ∀ {f path d}, own f = some (.page path d) → path.length = 3
  bounded : ∀ {f o i}, own f = some o → i ∈ o.indices → i < 512
  rooted : ∀ {f r path}, own f = some (.table r path) → own r = some (.table r [])
  top : ∀ {f r}, own f = some (.table r []) → f = r
  linked : ∀ {f r path i}, own f = some (.table r (path ++ [i])) →
    ∃ p, own p = some (.table r path) ∧ (v.mem p i).present = true ∧ (v.mem p i).frame = f
  child : ∀ {p r path i}, own p = some (.table r path) → path.length < 3 →
    (v.mem p i).present = true → (v.mem p i).large = false →
      own (v.mem p i).frame = some (.table r (path ++ [i])) ∨
        IsBootPd (v.mem p i).frame ∧ path = [0] ∧ i ≠ 0
  large : ∀ {p r path i}, own p = some (.table r path) → path.length < 3 →
    (v.mem p i).large = true → path.length = 2 ∧ OutOfRange (v.mem p i).frame
  leaf : ∀ {p r path d}, own p = some (.table r path) → path.length = 3 →
    (v.mem p d).present = true →
      (v.mem p d).frame < reservedFrames ∨ own (v.mem p d).frame = some (.page path d)
  spine : ∀ {p r}, own p = some (.table r []) ∨ own p = some (.table r [0]) →
    (v.mem p 0).present = true
  stackPd : ∀ {p r}, own p = some (.table r [0, 0]) →
    (v.mem p 3).present = true ∧ (v.mem p 3).large = true
  shared : ∀ {g path d}, own g = some (.page path d) → 2 ≤ (mappers v own g path d).card →
    (mappers v own g path d).card ≤ v.cow g
  byte : ∀ f, v.cow f ≤ 255
  boot : ∀ {f i}, IsBootPd f → i < 512 →
    (v.mem f i).present = true ∧ (v.mem f i).large = true ∧ OutOfRange (v.mem f i).frame
  once : v.doubleFree = false

/-- A frame that is taken and has no owner yet. -/
structure Held (v : Vm) (own : Owners) (f : Nat) : Prop where
  low : reservedFrames ≤ f
  high : f < totalFrames
  used : v.used f = true
  unowned : own f = none

/-- Tables stay, and no new address space appears. -/
structure Grow (own own' : Owners) : Prop where
  tables : ∀ {f r path}, own f = some (.table r path) → own' f = some (.table r path)
  roots : ∀ {r}, own' r = some (.table r []) → own r = some (.table r [])

theorem Grow.refl (own : Owners) : Grow own own := ⟨id, id⟩

theorem Grow.trans {own₁ own₂ own₃ : Owners} (h : Grow own₁ own₂) (h' : Grow own₂ own₃) :
    Grow own₁ own₃ :=
  ⟨fun ho => h'.tables (h.tables ho), fun hr => h.roots (h'.roots hr)⟩

/-! ## Entries -/

@[simp] theorem setEntry_mem (v : Vm) (p i : Nat) (e : PTE) (q k : Nat) :
    (setEntry v p i e).mem q k = if q = p ∧ k = i then e else v.mem q k := by
  by_cases hq : q = p
  · subst hq
    by_cases hk : k = i
    · simp [setEntry, hk]
    · simp [setEntry, hk]
  · simp [setEntry, hq]

@[simp] theorem zeroFrame_mem (v : Vm) (f q k : Nat) :
    (zeroFrame v f).mem q k = if q = f then PTE.zero else v.mem q k := by
  by_cases hq : q = f
  · simp [zeroFrame, hq]
  · simp [zeroFrame, hq]

theorem mem_mappers {own : Owners} :
    p ∈ mappers v own g path d ↔ (reservedFrames ≤ p ∧ p < totalFrames) ∧
      (∃ r, own p = some (.table r path)) ∧ (v.mem p d).present = true ∧ (v.mem p d).frame = g := by
  simp [mappers]

theorem Inv.mem_mappers_of_entry {own : Owners} (h : Inv v own)
    (hp : own p = some (.table r path)) (hpres : (v.mem p d).present = true) :
    p ∈ mappers v own (v.mem p d).frame path d :=
  mem_mappers.mpr ⟨⟨(h.range hp).1, (h.range hp).2.1⟩, ⟨r, hp⟩, hpres, rfl⟩

/-- Every mapping of the new state was there before. -/
def Fewer (v : Vm) (own : Owners) (v' : Vm) (own' : Owners) : Prop :=
  ∀ p r path d, path.length = 3 → own' p = some (.table r path) → (v'.mem p d).present = true →
    own p = some (.table r path) ∧ v'.mem p d = v.mem p d

theorem Fewer.mappers_subset {own own' : Owners} (h : Fewer v own v' own')
    (hlen : path.length = 3) : mappers v' own' g path d ⊆ mappers v own g path d := by
  intro p hp
  obtain ⟨hrange, ⟨r, hr⟩, hpres, hframe⟩ := mem_mappers.mp hp
  obtain ⟨hown, hmem⟩ := h p r path d hlen hr hpres
  rw [hmem] at hpres hframe
  exact mem_mappers.mpr ⟨hrange, ⟨r, hown⟩, hpres, hframe⟩

/-- Where mappings only go, the counters stay large enough. -/
theorem Inv.shared_of_fewer {own own' : Owners} (h : Inv v own) (hfew : Fewer v own v' own')
    (hg : own g = some (.page path d)) (hcard : 2 ≤ (mappers v' own' g path d).card) :
    (mappers v' own' g path d).card ≤ v.cow g := by
  have hsub := Finset.card_le_card (hfew.mappers_subset (g := g) (d := d) (h.pageDepth hg))
  exact hsub.trans (h.shared hg (hcard.trans hsub))

/-- Where one mapping of a page has gone and others are left, the counter has one
to spare. -/
theorem Inv.spare_of_lost {own own' : Owners} (h : Inv v own) (hg : own g = some (.page path d))
    (hp : p ∈ mappers v own g path d)
    (hsub : mappers v' own' g path d ⊆ (mappers v own g path d).erase p)
    (hpos : 0 < (mappers v' own' g path d).card) :
    (mappers v' own' g path d).card + 1 ≤ v.cow g := by
  have hle := Finset.card_le_card hsub
  have hcard := Finset.card_erase_add_one hp
  have hshared := h.shared hg
  omega

/-! ## Uniqueness -/

/-- One address space has at most one table at a place. -/
theorem Inv.table_unique {own : Owners} (h : Inv v own) :
    ∀ {f g}, own f = some (.table r path) → own g = some (.table r path) → f = g := by
  -- Induction on the path from its end: both tables hang on the same entry.
  induction path using List.reverseRecOn with
  | nil =>
      intro f g hf hg
      rw [h.top hf, h.top hg]
  | append_singleton path i ih =>
      intro f g hf hg
      obtain ⟨p, hp, -, rfl⟩ := h.linked hf
      obtain ⟨q, hq, -, rfl⟩ := h.linked hg
      rw [ih hp hq]

/-- Nothing maps a frame without owner. -/
theorem Inv.not_mapped {own : Owners} (h : Inv v own) (hf : own f = none)
    (hlow : reservedFrames ≤ f) (hp : own p = some (.table r path)) (hlen : path.length = 3)
    (hpres : (v.mem p d).present = true) : (v.mem p d).frame ≠ f := by
  rintro rfl
  rcases h.leaf hp hlen hpres with hlt | hown
  · exact absurd hlow (Nat.not_le.mpr hlt)
  · rw [hf] at hown
    cases hown

/-! ## Changes outside the owned frames -/

/-- Only the tables with an owner, the boot directories and the state of owned
frames matter. -/
theorem Inv.congr {own : Owners} (h : Inv v own)
    (hmem : ∀ f, own f ≠ none ∨ IsBootPd f → v'.mem f = v.mem f)
    (hused : ∀ f, own f ≠ none ∨ f < reservedFrames → v'.used f = v.used f)
    (hcow : v'.cow = v.cow) (honce : v'.doubleFree = false) : Inv v' own := by
  have hm {p : Nat} {o : Owner} (hp : own p = some o) : v'.mem p = v.mem p :=
    hmem p (Or.inl (by simp [hp]))
  have hmap : ∀ {g path d}, mappers v' own g path d = mappers v own g path d := by
    intro g path d
    ext p
    simp only [mem_mappers]
    constructor
    · rintro ⟨hr, ⟨r, hp⟩, he⟩
      exact ⟨hr, ⟨r, hp⟩, by rwa [hm hp] at he⟩
    · rintro ⟨hr, ⟨r, hp⟩, he⟩
      exact ⟨hr, ⟨r, hp⟩, by rwa [hm hp]⟩
  constructor
  · intro f o hf
    rw [hused f (Or.inl (by simp [hf]))]
    exact h.range hf
  · intro f hf
    rw [hused f (Or.inr hf)]
    exact h.reserved f hf
  · exact h.tableDepth
  · exact h.pageDepth
  · exact h.bounded
  · exact h.rooted
  · exact h.top
  · intro f r path i hf
    obtain ⟨p, hp, hpres, hframe⟩ := h.linked hf
    exact ⟨p, hp, by rwa [hm hp], by rwa [hm hp]⟩
  · intro p r path i hp
    rw [hm hp]
    exact h.child hp
  · intro p r path i hp
    rw [hm hp]
    exact h.large hp
  · intro p r path d hp
    rw [hm hp]
    exact h.leaf hp
  · intro p r hp
    have : v'.mem p = v.mem p := hp.elim hm hm
    rw [this]
    exact h.spine hp
  · intro p r hp
    rw [hm hp]
    exact h.stackPd hp
  · intro g path d hg
    rw [hmap, hcow]
    exact h.shared hg
  · intro f
    rw [hcow]
    exact h.byte f
  · intro f i hf
    rw [hmem f (Or.inr hf)]
    exact h.boot hf
  · exact honce

theorem inv_zeroFrame {own : Owners} (h : Inv v own) (hf : own f = none) (hboot : ¬ IsBootPd f) :
    Inv (zeroFrame v f) own := by
  apply h.congr
  · intro g hg
    have hne : g ≠ f := by
      rintro rfl
      exact hg.elim (fun hn => hn hf) hboot
    funext k
    simp [hne]
  · exact fun _ _ => rfl
  · rfl
  · exact h.once

/-- A counter can take any value that covers the mappings of its page. -/
theorem Inv.setCow {own : Owners} (h : Inv v own) {c : Nat} (hc : c ≤ 255)
    (hg : ∀ {path d}, own g = some (.page path d) → 2 ≤ (mappers v own g path d).card →
      (mappers v own g path d).card ≤ c) :
    Inv { v with cow := Function.update v.cow g c } own := by
  refine { h with shared := ?_, byte := ?_ }
  · intro f path d hf hcard
    change (mappers v own f path d).card ≤ Function.update v.cow g c f
    by_cases hfg : f = g
    · subst hfg
      rw [Function.update_self]
      exact hg hf hcard
    · rw [Function.update_of_ne hfg]
      exact h.shared hf hcard
  · intro f
    by_cases hfg : f = g
    · subst hfg
      simpa using hc
    · simpa [hfg] using h.byte f

/-! ## Taking a frame -/

theorem allocFrame_cases (v : Vm) :
    allocFrame v = (v, 0) ∨ ∃ f, reservedFrames ≤ f ∧ f < totalFrames ∧ v.used f = false ∧
      allocFrame v = ({ v with used := Function.update v.used f true }, f) := by
  unfold allocFrame
  cases hfind : (List.range' reservedFrames (totalFrames - reservedFrames)).find?
      fun f => !v.used f with
  | none => exact Or.inl rfl
  | some f =>
      right
      have hmem := List.mem_of_find?_eq_some hfind
      have hfree := List.find?_some hfind
      rw [List.mem_range'_1] at hmem
      exact ⟨f, hmem.1, by simpa [totalFrames, reservedFrames] using hmem.2, by simpa using hfree,
        rfl⟩

/-- Taking a frame keeps the invariant, and the frame, if there is one, has no
owner. -/
theorem inv_allocFrame {own : Owners} (h : Inv v own) :
    Inv (allocFrame v).1 own ∧ (allocFrame v).1.mem = v.mem ∧ (allocFrame v).1.cow = v.cow ∧
      (∀ g, Held v own g → Held (allocFrame v).1 own g ∧ g ≠ (allocFrame v).2) ∧
      ((allocFrame v).2 = 0 ∨ Held (allocFrame v).1 own (allocFrame v).2) := by
  rcases allocFrame_cases v with heq | ⟨f, hlow, hhigh, hfree, heq⟩
  · rw [heq]
    refine ⟨h, rfl, rfl, ?_, Or.inl rfl⟩
    intro g hg
    refine ⟨hg, ?_⟩
    rintro rfl
    exact absurd (show reservedFrames ≤ 0 from hg.low) (by decide)
  · rw [heq]
    have hunowned : own f = none := by
      cases hf : own f with
      | none => rfl
      | some o => exact absurd (h.range hf).2.2 (by simp [hfree])
    refine ⟨?_, rfl, rfl, ?_, Or.inr ⟨hlow, hhigh, by simp, hunowned⟩⟩
    · apply h.congr
      · exact fun _ _ => rfl
      · intro g hg
        have hne : g ≠ f := by
          rintro rfl
          exact hg.elim (fun hn => hn hunowned) (fun hlt => absurd hlow (Nat.not_le.mpr hlt))
        simp [hne]
      · rfl
      · exact h.once
    · intro g hg
      have hne : g ≠ f := by
        rintro rfl
        exact absurd hg.used (by simp [hfree])
      exact ⟨⟨hg.low, hg.high, by simp [hne, hg.used], hg.unowned⟩, hne⟩

theorem Held.not_boot {own : Owners} (h : Held v own f) : ¬ IsBootPd f := by
  intro hb
  exact absurd (Nat.le_trans h.low hb.2) (by decide)

/-! ## A new table -/

section NewTable
variable {v : Vm} {own : Owners} {p r i f : Nat} {path : List Nat}

/-- The ownership map with a new table. -/
def addTable (own : Owners) (f r : Nat) (path : List Nat) : Owners :=
  Function.update own f (some (.table r path))

theorem addTable_of_ne (h : g ≠ f) : addTable own f r path g = own g := by
  simp [addTable, h]

theorem addTable_self : addTable own f r path f = some (.table r path) := by
  simp [addTable]

/-- An owner of the new map is the new table or an old owner. -/
theorem addTable_cases {o : Owner} (hg : addTable own f r path g = some o) :
    g = f ∧ o = .table r path ∨ g ≠ f ∧ own g = some o := by
  by_cases hgf : g = f
  · rw [hgf, addTable_self] at hg
    exact Or.inl ⟨hgf, (Option.some.inj hg).symm⟩
  · rw [addTable_of_ne hgf] at hg
    exact Or.inr ⟨hgf, hg⟩

/-- An owned frame is not one without owner. -/
theorem ne_of_owned {o : Owner} (hf : own f = none) (hg : own g = some o) : g ≠ f := by
  rintro rfl
  rw [hf] at hg
  cases hg

/-- An old owner is another frame than one without owner, and stays. -/
theorem addTable_old {o : Owner} (hf : own f = none) (hg : own g = some o) :
    g ≠ f ∧ addTable own f r path g = some o :=
  ⟨ne_of_owned hf hg, (addTable_of_ne (ne_of_owned hf hg)).trans hg⟩

/-- What the invariant says of the map alone. -/
structure Shape (own : Owners) : Prop where
  tableDepth : ∀ {f r path}, own f = some (.table r path) → path.length ≤ 3
  pageDepth : ∀ {f path d}, own f = some (.page path d) → path.length = 3
  bounded : ∀ {f o i}, own f = some o → i ∈ o.indices → i < 512
  rooted : ∀ {f r path}, own f = some (.table r path) → own r = some (.table r [])
  top : ∀ {f r}, own f = some (.table r []) → f = r

theorem Inv.shape (h : Inv v own) : Shape own where
  tableDepth := h.tableDepth
  pageDepth := h.pageDepth
  bounded := h.bounded
  rooted := h.rooted
  top := h.top

theorem Shape.newTable (h : Shape own) (hf : own f = none) (hlen : path.length ≤ 3)
    (hlt : ∀ i ∈ path, i < 512) (hroot : addTable own f r path r = some (.table r []))
    (htop : path = [] → f = r) : Shape (addTable own f r path) := by
  constructor
  case tableDepth =>
    intro g r' path' hg
    rcases addTable_cases hg with ⟨-, ho⟩ | ⟨-, hg⟩
    · cases ho
      exact hlen
    · exact h.tableDepth hg
  case pageDepth =>
    intro g path' d hg
    rcases addTable_cases hg with ⟨-, ho⟩ | ⟨-, hg⟩
    · cases ho
    · exact h.pageDepth hg
  case bounded =>
    intro g o k hg hk
    rcases addTable_cases hg with ⟨-, rfl⟩ | ⟨-, hg⟩
    · exact hlt k hk
    · exact h.bounded hg hk
  case rooted =>
    intro g r' path' hg
    rcases addTable_cases hg with ⟨-, ho⟩ | ⟨-, hg⟩
    · cases ho
      exact hroot
    · exact (addTable_old hf (h.rooted hg)).2
  case top =>
    intro g r' hg
    rcases addTable_cases hg with ⟨rfl, ho⟩ | ⟨-, hg⟩
    · cases ho
      exact htop rfl
    · exact h.top hg

/-- The new table hangs on its entry, is empty, and nothing else has changed. -/
theorem newTable_mem (q k : Nat) :
    (setEntry (zeroFrame v f) p i (PTE.userRW f)).mem q k =
      if q = p ∧ k = i then PTE.userRW f else if q = f then PTE.zero else v.mem q k := by
  simp

theorem newTable_fewer (hp : own p = some (.table r path)) (hlen : path.length < 3)
    (hne : p ≠ f) :
    Fewer v own (setEntry (zeroFrame v f) p i (PTE.userRW f))
      (addTable own f r (path ++ [i])) := by
  intro q r' path' d hlen' hq hpres
  rw [newTable_mem q d] at hpres ⊢
  by_cases hqf : q = f
  · have hqp : ¬ (q = p ∧ d = i) := fun h => hne (h.1.symm.trans hqf)
    rw [if_neg hqp, if_pos hqf] at hpres
    cases hpres
  · rw [addTable_of_ne hqf] at hq
    have hqp : ¬ (q = p ∧ d = i) := by
      rintro ⟨rfl, -⟩
      rw [hp] at hq
      cases hq
      omega
    rw [if_neg hqp, if_neg hqf]
    exact ⟨hq, rfl⟩

/-- The entries on the way to the page directory are there. -/
theorem Inv.present_of_path (h : Inv v own) (hp : own p = some (.table r path))
    (hpath : [0] = path ++ [i] ∨ [0, 0] = path ++ [i]) : (v.mem p i).present = true := by
  rcases hpath with hpath | hpath
  · obtain ⟨rfl, rfl⟩ := List.append_singleton_inj.mp (show [] ++ [0] = path ++ [i] from hpath)
    exact h.spine (Or.inl hp)
  · obtain ⟨rfl, rfl⟩ := List.append_singleton_inj.mp (show [0] ++ [0] = path ++ [i] from hpath)
    exact h.spine (Or.inr hp)

theorem Inv.newTable (h : Inv v own) (hp : own p = some (.table r path)) (hlen : path.length < 3)
    (hi : i < 512) (hnone : (v.mem p i).present = false) (hf : Held v own f) :
    Inv (setEntry (zeroFrame v f) p i (PTE.userRW f)) (addTable own f r (path ++ [i])) := by
  have hmem := fun q k => newTable_mem (v := v) (p := p) (i := i) (f := f) q k
  have hold {g : Nat} {o : Owner} (hg : own g = some o) :
      g ≠ f ∧ addTable own f r (path ++ [i]) g = some o := addTable_old hf.unowned hg
  have hne : p ≠ f := (hold hp).1
  have hshape : Shape (addTable own f r (path ++ [i])) := by
    apply h.shape.newTable hf.unowned
    · rw [List.length_append, List.length_singleton]
      omega
    · intro k hk
      rcases List.mem_append.mp hk with hk | hk
      · exact h.bounded hp hk
      · exact List.mem_singleton.mp hk ▸ hi
    · exact (hold (h.rooted hp)).2
    · simp
  have hself : (setEntry (zeroFrame v f) p i (PTE.userRW f)).mem p i = PTE.userRW f := by
    rw [hmem, if_pos ⟨rfl, rfl⟩]
  have hzero (k : Nat) : (setEntry (zeroFrame v f) p i (PTE.userRW f)).mem f k = PTE.zero := by
    rw [hmem, if_neg (fun hc => hne hc.1.symm), if_pos rfl]
  have hsame {q k : Nat} (hqf : q ≠ f) (hqk : ¬ (q = p ∧ k = i)) :
      (setEntry (zeroFrame v f) p i (PTE.userRW f)).mem q k = v.mem q k := by
    rw [hmem, if_neg hqk, if_neg hqf]
  have hpresent {q k : Nat} (hpres : (v.mem q k).present = true) : ¬ (q = p ∧ k = i) := by
    rintro ⟨rfl, rfl⟩
    rw [hnone] at hpres
    cases hpres
  -- the two upper tables of an address space are never new
  have hnever (hpath : [0] = path ++ [i] ∨ [0, 0] = path ++ [i]) : False := by
    rw [h.present_of_path hp hpath] at hnone
    cases hnone
  constructor
  case range =>
    intro g o hg
    rcases addTable_cases hg with ⟨rfl, -⟩ | ⟨-, hg⟩
    · exact ⟨hf.low, hf.high, hf.used⟩
    · exact h.range hg
  case reserved => exact h.reserved
  case tableDepth => exact hshape.tableDepth
  case pageDepth => exact hshape.pageDepth
  case bounded => exact hshape.bounded
  case rooted => exact hshape.rooted
  case top => exact hshape.top
  case linked =>
    intro g r' path' k hg
    rcases addTable_cases hg with ⟨rfl, ho⟩ | ⟨-, hg⟩
    · obtain ⟨rfl, hpath⟩ := Owner.table.inj ho
      obtain ⟨rfl, rfl⟩ := List.append_singleton_inj.mp hpath
      exact ⟨p, (hold hp).2, by rw [hself]; rfl, by rw [hself]; rfl⟩
    · obtain ⟨q, hq, hpres, hframe⟩ := h.linked hg
      have hkeep := hsame (hold hq).1 (hpresent hpres)
      rw [← hkeep] at hpres hframe
      exact ⟨q, (hold hq).2, hpres, hframe⟩
  case child =>
    intro q r' path' k hq hlen' hpres hlarge
    rcases addTable_cases hq with ⟨rfl, -⟩ | ⟨hqf, hq⟩
    · rw [hzero] at hpres
      cases hpres
    · by_cases hqk : q = p ∧ k = i
      · have hsome : some (Owner.table r path) = some (.table r' path') := by
          rw [← hp, ← hq, hqk.1]
        cases hsome
        rw [hqk.1, hqk.2, hself]
        exact Or.inl addTable_self
      · rw [hsame hqf hqk] at hpres hlarge ⊢
        exact (h.child hq hlen' hpres hlarge).imp_left fun hg => (hold hg).2
  case large =>
    intro q r' path' k hq hlen' hlarge
    rcases addTable_cases hq with ⟨rfl, -⟩ | ⟨hqf, hq⟩
    · rw [hzero] at hlarge
      cases hlarge
    · by_cases hqk : q = p ∧ k = i
      · rw [hqk.1, hqk.2, hself] at hlarge
        cases hlarge
      · rw [hsame hqf hqk] at hlarge ⊢
        exact h.large hq hlen' hlarge
  case leaf =>
    intro q r' path' d hq hlen' hpres
    obtain ⟨hq, he⟩ := newTable_fewer hp hlen hne q r' path' d hlen' hq hpres
    rw [he] at hpres ⊢
    exact (h.leaf hq hlen' hpres).imp_right fun hg => (hold hg).2
  case spine =>
    intro q r' hq
    have hq' : own q = some (.table r' []) ∨ own q = some (.table r' [0]) := by
      rcases hq with hq | hq
      · rcases addTable_cases hq with ⟨-, ho⟩ | ⟨-, hq⟩
        · simp at ho
        · exact Or.inl hq
      · rcases addTable_cases hq with ⟨-, ho⟩ | ⟨-, hq⟩
        · exact (hnever (Or.inl (Owner.table.inj ho).2)).elim
        · exact Or.inr hq
    have hpres := h.spine hq'
    have hqf : q ≠ f := hq'.elim (fun hq => (hold hq).1) fun hq => (hold hq).1
    rwa [hsame hqf (hpresent hpres)]
  case stackPd =>
    intro q r' hq
    rcases addTable_cases hq with ⟨-, ho⟩ | ⟨hqf, hq⟩
    · exact (hnever (Or.inr (Owner.table.inj ho).2)).elim
    · have hpd := h.stackPd hq
      rwa [hsame hqf (hpresent hpd.1)]
  case shared =>
    intro g path' d hg hcard
    rcases addTable_cases hg with ⟨-, ho⟩ | ⟨-, hg⟩
    · cases ho
    · exact h.shared_of_fewer (newTable_fewer hp hlen hne) hg hcard
  case byte => exact h.byte
  case boot =>
    intro g k hg hk
    have hgf : g ≠ f := by
      rintro rfl
      exact hf.not_boot hg
    have hgp : ¬ (g = p ∧ k = i) := by
      rintro ⟨rfl, -⟩
      exact absurd (Nat.le_trans (h.range hp).1 hg.2) (by decide)
    rw [hsame hgf hgp]
    exact h.boot hg hk
  case once => exact h.once

end NewTable

/-! ## Leaf entries -/

section Leaf
variable {v : Vm} {own : Owners} {p r d : Nat} {path : List Nat} {e : PTE}

theorem setEntry_same : (setEntry v p d e).mem p d = e := by
  simp

theorem setEntry_other {k : Nat} (h : ¬ (q = p ∧ k = d)) :
    (setEntry v p d e).mem q k = v.mem q k := by
  rw [setEntry_mem, if_neg h]

/-- Upper tables are not page tables. -/
theorem ne_of_short {path' : List Nat} (hp : own p = some (.table r path))
    (hlen : path.length = 3) (hq : own q = some (.table r' path')) (hlen' : path'.length < 3) :
    q ≠ p := by
  rintro rfl
  rw [hp] at hq
  cases hq
  omega

/-- A leaf entry can be set to any page that is owned at its address, as long as
the counter covers the mapping. -/
theorem Inv.setLeaf (h : Inv v own) (hp : own p = some (.table r path)) (hlen : path.length = 3)
    (hframe : e.present = true → e.frame < reservedFrames ∨
      own e.frame = some (.page path d) ∧
        (2 ≤ (insert p (mappers v own e.frame path d)).card →
          (insert p (mappers v own e.frame path d)).card ≤ v.cow e.frame)) :
    Inv (setEntry v p d e) own := by
  have hup {q r' k : Nat} {path' : List Nat} (hq : own q = some (.table r' path'))
      (hlen' : path'.length < 3) : (setEntry v p d e).mem q k = v.mem q k :=
    setEntry_other fun hc => ne_of_short hp hlen hq hlen' hc.1
  constructor
  · exact h.range
  · exact h.reserved
  · exact h.tableDepth
  · exact h.pageDepth
  · exact h.bounded
  · exact h.rooted
  · exact h.top
  · intro f r' path' i hf
    obtain ⟨q, hq, hpres, hfr⟩ := h.linked hf
    have hlen' : path'.length < 3 := by
      have := h.tableDepth hf
      simp at this
      omega
    exact ⟨q, hq, by rwa [hup hq hlen'], by rwa [hup hq hlen']⟩
  · intro q r' path' i hq hlen'
    rw [hup hq hlen']
    exact h.child hq hlen'
  · intro q r' path' i hq hlen'
    rw [hup hq hlen']
    exact h.large hq hlen'
  · intro q r' path' k hq hlen' hpres
    by_cases hqk : q = p ∧ k = d
    · obtain ⟨rfl, rfl⟩ := hqk
      rw [hp] at hq
      cases hq
      rw [setEntry_same] at hpres ⊢
      exact (hframe hpres).imp_right And.left
    · rw [setEntry_other hqk] at hpres ⊢
      exact h.leaf hq hlen' hpres
  · intro q r' hq
    have hq0 : (setEntry v p d e).mem q 0 = v.mem q 0 := by
      rcases hq with hq | hq
      · exact hup hq (by simp)
      · exact hup hq (by simp)
    rw [hq0]
    exact h.spine hq
  · intro q r' hq
    rw [hup hq (by simp)]
    exact h.stackPd hq
  · intro g path' k hg hcard
    have hsub : mappers (setEntry v p d e) own g path' k ⊆
        if e.present = true ∧ e.frame = g ∧ path' = path ∧ k = d then
          insert p (mappers v own g path' k) else mappers v own g path' k := by
      intro q hq
      obtain ⟨hrange, ⟨r', hq'⟩, hpres, hfr⟩ := mem_mappers.mp hq
      by_cases hqk : q = p ∧ k = d
      · obtain ⟨rfl, rfl⟩ := hqk
        rw [hp] at hq'
        cases hq'
        rw [setEntry_same] at hpres hfr
        simp [hpres, hfr]
      · rw [setEntry_other hqk] at hpres hfr
        have hmem := mem_mappers.mpr ⟨hrange, ⟨r', hq'⟩, hpres, hfr⟩
        split
        · exact Finset.mem_insert_of_mem hmem
        · exact hmem
    have hle := Finset.card_le_card hsub
    split at hle
    · rename_i hnew
      obtain ⟨hpres, rfl, rfl, rfl⟩ := hnew
      rcases hframe hpres with hlow | ⟨-, hcow⟩
      · exact absurd (h.range hg).1 (Nat.not_le.mpr hlow)
      · exact hle.trans (hcow (hcard.trans hle))
    · exact hle.trans (h.shared hg (hcard.trans hle))
  · exact h.byte
  · intro f i hf hi
    have hne : ¬ (f = p ∧ i = d) := by
      rintro ⟨rfl, -⟩
      exact absurd (Nat.le_trans (h.range hp).1 hf.2) (by decide)
    rw [setEntry_other hne]
    exact h.boot hf hi
  · exact h.once

/-- Clearing a leaf entry only takes a mapping away. -/
theorem clearLeaf_fewer : Fewer v own (setEntry v p d PTE.zero) own := by
  intro q r' path' k _ hq hpres
  by_cases hqk : q = p ∧ k = d
  · rw [hqk.1, hqk.2, setEntry_same] at hpres
    cases hpres
  · rw [setEntry_other hqk] at hpres ⊢
    exact ⟨hq, rfl⟩

/-- A new page is not a table. -/
theorem adopt_table {path' : List Nat} (hf : own f = none) :
    Function.update own f (some (.page path d)) q = some (.table r' path') ↔
      own q = some (.table r' path') := by
  by_cases hqf : q = f
  · subst hqf
    simp [hf]
  · rw [Function.update_of_ne hqf]

/-- A held frame becomes a page. -/
theorem Inv.adopt (h : Inv v own) (hf : Held v own f) (hp : own p = some (.table r path))
    (hlen : path.length = 3) (hd : d < 512) :
    Inv v (Function.update own f (some (.page path d))) ∧
      mappers v (Function.update own f (some (.page path d))) f path d = ∅ := by
  have hold {g r' : Nat} {path' : List Nat}
      (hg : Function.update own f (some (.page path d)) g = some (.table r' path')) :
      own g = some (.table r' path') :=
    (adopt_table hf.unowned).mp hg
  have hkeep {g : Nat} {o : Owner} (hg : own g = some o) :
      Function.update own f (some (.page path d)) g = some o := by
    have hgf : g ≠ f := by
      rintro rfl
      rw [hf.unowned] at hg
      cases hg
    rwa [Function.update_of_ne hgf]
  have hempty : mappers v (Function.update own f (some (.page path d))) f path d = ∅ := by
    apply Finset.eq_empty_of_forall_notMem
    intro q hq
    obtain ⟨-, ⟨r', hq'⟩, hpres, hfr⟩ := mem_mappers.mp hq
    exact h.not_mapped hf.unowned hf.low (hold hq') hlen hpres hfr
  have hfew : Fewer v own v (Function.update own f (some (.page path d))) :=
    fun q r' path' k _ hq _ => ⟨hold hq, rfl⟩
  refine ⟨?_, hempty⟩
  constructor
  · intro g o hg
    by_cases hgf : g = f
    · subst hgf
      exact ⟨hf.low, hf.high, hf.used⟩
    · rw [Function.update_of_ne hgf] at hg
      exact h.range hg
  · exact h.reserved
  · exact fun hg => h.tableDepth (hold hg)
  · intro g path' k hg
    by_cases hgf : g = f
    · subst hgf
      simp at hg
      exact hg.1 ▸ hlen
    · rw [Function.update_of_ne hgf] at hg
      exact h.pageDepth hg
  · intro g o k hg hk
    by_cases hgf : g = f
    · subst hgf
      simp only [Function.update_self, Option.some.injEq] at hg
      subst hg
      rcases List.mem_append.mp hk with hk | hk
      · exact h.bounded hp hk
      · exact List.mem_singleton.mp hk ▸ hd
    · rw [Function.update_of_ne hgf] at hg
      exact h.bounded hg hk
  · exact fun hg => hkeep (h.rooted (hold hg))
  · exact fun hg => h.top (hold hg)
  · intro g r' path' i hg
    obtain ⟨q, hq, hrest⟩ := h.linked (hold hg)
    exact ⟨q, hkeep hq, hrest⟩
  · intro q r' path' i hq hlen' hpres hlarge
    exact (h.child (hold hq) hlen' hpres hlarge).imp_left hkeep
  · exact fun hq => h.large (hold hq)
  · intro q r' path' k hq hlen' hpres
    exact (h.leaf (hold hq) hlen' hpres).imp_right hkeep
  · exact fun hq => h.spine (hq.imp hold hold)
  · exact fun hq => h.stackPd (hold hq)
  · intro g path' k hg hcard
    by_cases hgf : g = f
    · subst hgf
      simp only [Function.update_self, Option.some.injEq, Owner.page.injEq] at hg
      obtain ⟨rfl, rfl⟩ := hg
      simp [hempty] at hcard
    · rw [Function.update_of_ne hgf] at hg
      exact h.shared_of_fewer hfew hg hcard
  · exact h.byte
  · exact h.boot
  · exact h.once

end Leaf

/-! ## Giving up ownership -/

section Drop
variable {v : Vm} {own : Owners} {r f g d : Nat} {path : List Nat}

/-- Forget the tables of an address space. -/
def dropSpace (own : Owners) (r : Nat) : Owners := fun f =>
  match own f with
  | some (.table r' path) => if r' = r then none else some (.table r' path)
  | o => o

theorem dropSpace_table :
    dropSpace own r f = some (.table r' path) ↔ own f = some (.table r' path) ∧ r' ≠ r := by
  unfold dropSpace
  cases hf : own f with
  | none => simp
  | some o =>
      cases o with
      | page path₁ d₁ => simp
      | table r₁ path₁ =>
          by_cases hr : r₁ = r
          · simp only [hr, if_true, Option.some.injEq, Owner.table.injEq]
            constructor
            · intro h
              cases h
            · rintro ⟨⟨rfl, -⟩, hne⟩
              exact absurd rfl hne
          · simp only [hr, if_false, Option.some.injEq, Owner.table.injEq]
            constructor
            · rintro ⟨rfl, rfl⟩
              exact ⟨⟨rfl, rfl⟩, hr⟩
            · exact fun h => h.1

theorem dropSpace_page : dropSpace own r f = some (.page path d) ↔
    own f = some (.page path d) := by
  unfold dropSpace
  split
  · rename_i r₁ path₁ hf
    rw [hf]
    split <;> simp
  · exact Iff.rfl

theorem dropSpace_self (h : own f = some (.table r path)) : dropSpace own r f = none := by
  simp [dropSpace, h]

theorem dropSpace_fewer : Fewer v own v (dropSpace own r) :=
  fun _ _ _ _ _ hq _ => ⟨(dropSpace_table.mp hq).1, rfl⟩

/-- An address space can be forgotten at any time: its frames leak. -/
theorem Inv.dropSpace (h : Inv v own) (r : Nat) : Inv v (dropSpace own r) := by
  constructor
  · intro f o hf
    cases o with
    | table r' path => exact h.range (dropSpace_table.mp hf).1
    | page path d => exact h.range (dropSpace_page.mp hf)
  · exact h.reserved
  · exact fun hf => h.tableDepth (dropSpace_table.mp hf).1
  · exact fun hf => h.pageDepth (dropSpace_page.mp hf)
  · intro f o i hf
    cases o with
    | table r' path => exact h.bounded (dropSpace_table.mp hf).1
    | page path d => exact h.bounded (dropSpace_page.mp hf)
  · intro f r' path hf
    obtain ⟨hf, hne⟩ := dropSpace_table.mp hf
    exact dropSpace_table.mpr ⟨h.rooted hf, hne⟩
  · exact fun hf => h.top (dropSpace_table.mp hf).1
  · intro f r' path i hf
    obtain ⟨hf, hne⟩ := dropSpace_table.mp hf
    obtain ⟨p, hp, hrest⟩ := h.linked hf
    exact ⟨p, dropSpace_table.mpr ⟨hp, hne⟩, hrest⟩
  · intro p r' path i hp hlen hpres hlarge
    obtain ⟨hp, hne⟩ := dropSpace_table.mp hp
    exact (h.child hp hlen hpres hlarge).imp_left fun hc => dropSpace_table.mpr ⟨hc, hne⟩
  · exact fun hp => h.large (dropSpace_table.mp hp).1
  · intro p r' path d hp hlen hpres
    exact (h.leaf (dropSpace_table.mp hp).1 hlen hpres).imp_right dropSpace_page.mpr
  · exact fun hp => h.spine
      (hp.imp (fun hq => (dropSpace_table.mp hq).1) fun hq => (dropSpace_table.mp hq).1)
  · exact fun hp => h.stackPd (dropSpace_table.mp hp).1
  · intro g path d hg hcard
    exact h.shared_of_fewer dropSpace_fewer (dropSpace_page.mp hg) hcard
  · exact h.byte
  · exact h.boot
  · exact h.once

/-- A page that nothing maps can lose its owner. -/
theorem Inv.disown (h : Inv v own) (hg : own g = some (.page path d))
    (hnone : mappers v own g path d = ∅) : Inv v (Function.update own g none) := by
  have hold {f : Nat} {o : Owner} (hf : Function.update own g none f = some o) :
      own f = some o := by
    by_cases hfg : f = g
    · subst hfg
      simp at hf
    · rwa [Function.update_of_ne hfg] at hf
  have htable {f r' : Nat} {path' : List Nat} (hf : own f = some (.table r' path')) :
      Function.update own g none f = some (.table r' path') := by
    have hfg : f ≠ g := by
      rintro rfl
      rw [hg] at hf
      cases hf
    rwa [Function.update_of_ne hfg]
  constructor
  · exact fun hf => h.range (hold hf)
  · exact h.reserved
  · exact fun hf => h.tableDepth (hold hf)
  · exact fun hf => h.pageDepth (hold hf)
  · exact fun hf => h.bounded (hold hf)
  · exact fun hf => htable (h.rooted (hold hf))
  · exact fun hf => h.top (hold hf)
  · intro f r' path' i hf
    obtain ⟨p, hp, hrest⟩ := h.linked (hold hf)
    exact ⟨p, htable hp, hrest⟩
  · intro p r' path' i hp hlen hpres hlarge
    exact (h.child (hold hp) hlen hpres hlarge).imp_left htable
  · exact fun hp => h.large (hold hp)
  · intro p r' path' k hp hlen hpres
    rcases h.leaf (hold hp) hlen hpres with hlow | hpage
    · exact Or.inl hlow
    · right
      have hne : (v.mem p k).frame ≠ g := by
        intro hfr
        rw [hfr, hg] at hpage
        cases hpage
        have hmem := h.mem_mappers_of_entry (hold hp) hpres
        rw [hfr, hnone] at hmem
        cases hmem
      rwa [Function.update_of_ne hne]
  · exact fun hp => h.spine (hp.imp hold hold)
  · exact fun hp => h.stackPd (hold hp)
  · intro g' path' k hg' hcard
    exact h.shared_of_fewer (fun q r' path'' k' _ hq _ => ⟨hold hq, rfl⟩) (hold hg') hcard
  · exact h.byte
  · exact h.boot
  · exact h.once

theorem freeFrame_outOfRange (h : OutOfRange f) : freeFrame v f = v := by
  unfold freeFrame
  rw [if_neg]
  rintro ⟨hlow, hhigh⟩
  rcases h with h | h
  · exact absurd hlow (Nat.not_le.mpr h)
  · exact absurd hhigh (Nat.not_lt.mpr h)

theorem Held.freeFrame_eq (h : Held v own f) :
    freeFrame v f = { v with used := Function.update v.used f false } := by
  simp [freeFrame, h.low, h.high, h.used]

/-- Releasing a frame without owner. -/
theorem inv_freeFrame (h : Inv v own) (hf : Held v own f) : Inv (freeFrame v f) own := by
  rw [hf.freeFrame_eq]
  apply h.congr
  · exact fun _ _ => rfl
  · intro g hg
    have hne : g ≠ f := by
      rintro rfl
      exact hg.elim (fun hn => hn hf.unowned) (fun hlt => absurd hf.low (Nat.not_le.mpr hlt))
    simp [hne]
  · rfl
  · exact h.once

theorem Held.freeFrame_other (h : Held v own g) (hf : Held v own f) (hne : g ≠ f) :
    Held (freeFrame v f) own g := by
  rw [hf.freeFrame_eq]
  exact ⟨h.low, h.high, by simp [hne, h.used], h.unowned⟩

/-- Releasing a page that nothing maps. -/
theorem Inv.freePage (h : Inv v own) (hg : own g = some (.page path d))
    (hnone : mappers v own g path d = ∅) :
    Inv (freeFrame v g) (Function.update own g none) := by
  have hrange := h.range hg
  exact inv_freeFrame (h.disown hg hnone)
    ⟨hrange.1, hrange.2.1, hrange.2.2, by simp⟩

end Drop

end OriaOS.Vmm
