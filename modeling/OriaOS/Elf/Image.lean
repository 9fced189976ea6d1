import OriaOS.Elf.Placing

/-!
# The image that the loader builds

A well-formed executable in a new address space. The loader takes a frame for every page of
every segment and maps it; `vmm_map_page` takes another one where there is no page table yet,
and says nothing if there is none. Where the pages of two segments meet, the later mapping
replaces the earlier one and leaves its frame behind.
-/

namespace OriaOS.Elf

open OriaOS.Vmm

variable {l : List (Nat × Nat)} {a g i va : Nat}

/-! ## The property -/

/-- The byte at an address of an address space. -/
def Mem.byteAt (m : Mem) (dir va : Nat) : Option UInt8 :=
  if getPhys m.vm dir va = 0 then none
  else some (m.ram (getPhys m.vm dir va * 4096 + va % 4096))

/-- An address of a segment. -/
def Phdr.Holds (ph : Phdr) (x : Nat) : Prop := ph.vaddr ≤ x ∧ x < ph.vaddr + ph.memsz

/-- Byte `k` of a segment. -/
def segByte (f : ElfFile) (ph : Phdr) (k : Nat) : UInt8 :=
  if k < ph.filesz then f.data (ph.offset + k) else 0

namespace ElfFile

/-- The program header `i` is that of a segment to load. -/
def Loads (f : ElfFile) (i : Nat) : Prop := i < f.ePhnum ∧ (f.phdr i).type = 1

structure WellFormed (f : ElfFile) : Prop where
  header : f.HeaderOk
  phentsize : f.ePhentsize = 56
  table : f.ePhoff + f.ePhnum * 56 ≤ f.size.toNat
  sizes : ∀ i, f.Loads i → (f.phdr i).filesz ≤ (f.phdr i).memsz
  inFile : ∀ i, f.Loads i → 0 < (f.phdr i).filesz →
    (f.phdr i).offset + (f.phdr i).filesz ≤ f.size.toNat

/-- The segments lie in `[0xC00000, 0xEFE000)` and have no address in common. -/
structure InUserSpace (f : ElfFile) : Prop where
  range : ∀ i, f.Loads i →
    0xC00000 ≤ (f.phdr i).vaddr ∧ (f.phdr i).vaddr + (f.phdr i).memsz ≤ 0xEFE000
  disjoint : ∀ i j, f.Loads i → f.Loads j → i ≠ j →
    ∀ x, ¬((f.phdr i).Holds x ∧ (f.phdr j).Holds x)

/-- Every byte of every segment is in its place. -/
def Shown (f : ElfFile) (m : Mem) (dir : Nat) : Prop :=
  ∀ i, f.Loads i → ∀ k < (f.phdr i).memsz,
    m.byteAt dir ((f.phdr i).vaddr + k) = some (segByte f (f.phdr i) k)

end ElfFile

/-- A frame that an address space leads to, as a table or as a page. -/
def Reachable (v : Vm) (r g : Nat) : Prop := ∃ va, g ∈ walk v r va ∨ getPhys v r va = g

/-- The frames allocated between two states can be reached. -/
def NoneLost (m m' : Mem) (dir : Nat) : Prop :=
  ∀ g, m.vm.used g = false → m'.vm.used g = true → Reachable m'.vm dir g

/-- What `elf_load` promises for a new address space: the image, or nothing lost. -/
def BuildsImage (f : ElfFile) (m : Mem) (dir : Nat) : Prop :=
  ∀ fuel r, elfLoad (memOps dir) f fuel m = some r →
    (r.ret ≠ 0 → f.Shown r.state dir) ∧ (r.ret = 0 → NoneLost m r.state dir)

/-! ## The condition -/

/-- Where a later segment has the page of a byte as well, the byte is zero. -/
def ElfFile.Kept (f : ElfFile) : Prop :=
  ∀ i i', i < i' → f.Loads i → f.Loads i' → ∀ k < (f.phdr i).filesz,
    pageDown ((f.phdr i).vaddr + k) ∈ (f.phdr i').pages → f.data ((f.phdr i).offset + k) = 0

/-- A file suits a number of free frames. The last of them never goes into a page without a
page table, unless this is the last page of the file and holds nothing. With a frame for each
page, no later segment covers a byte other than zero; otherwise no page is loaded twice. -/
structure ElfFile.Suits (f : ElfFile) (free : Nat) : Prop where
  tables : ∀ (j : Nat) (hj : j < f.image.pages.length),
    pdIdx f.image.pages[j] ∉ (f.image.pages.take j).map pdIdx →
    free = framesFor (f.image.pages.take j) + 1 →
      j + 1 = f.image.pages.length ∧ f.eEntry ≠ 0 ∧
        ∀ i, f.Loads i → ∀ x, (f.phdr i).Holds x → pageDown x ≠ f.image.pages[j]
  pages :
    if (∀ j < f.image.pages.length, framesFor (f.image.pages.take j) < free) ∧ f.eEntry ≠ 0 then
      f.Kept
    else
      ∀ (j : Nat) (hj : j < f.image.pages.length), framesFor (f.image.pages.take j) < free →
        f.image.pages[j] ∉ f.image.pages.take j

/-! ## Well-formed files -/

section File
variable {f : ElfFile}

theorem ElfFile.WellFormed.passes (hf : f.WellFormed) (hi : i < f.ePhnum) : f.Passes i := by
  have hsize := f.size.toNat_lt
  have htable := hf.table
  have hle : i * 56 + 56 ≤ f.ePhnum * 56 := by omega
  refine ⟨?_, ?_⟩
  · unfold ElfFile.HeaderOutside ElfFile.phOff
    rw [hf.phentsize, add64_of_lt (a := f.ePhoff) (by omega), add64_of_lt (by omega)]
    omega
  · rintro htype ⟨hpos, hout⟩
    have hin := hf.inFile i ⟨hi, htype⟩ hpos
    rw [add64_of_lt (by omega)] at hout
    omega

theorem ElfFile.WellFormed.plan (hf : f.WellFormed) :
    (f.planFrom f.ePhnum 0).2 = true ∧ ∀ j va, 0 ≤ j → j < 0 + f.ePhnum → (f.phdr j).type = 1 →
      va ∈ (f.phdr j).pages → (j, va) ∈ (f.planFrom f.ePhnum 0).1 :=
  ElfFile.planFrom_of_passes fun _ _ hj => hf.passes (by omega)

/-- The loader loads the pages of all segments. -/
theorem ElfFile.WellFormed.mem_visits (hf : f.WellFormed) :
    (i, va) ∈ f.visits ↔ f.Loads i ∧ va ∈ (f.phdr i).pages := by
  rw [ElfFile.visits, if_pos hf.header]
  constructor
  · intro h
    obtain ⟨-, hi, htype, hva⟩ := ElfFile.mem_planFrom h
    exact ⟨⟨by omega, htype⟩, hva⟩
  · rintro ⟨⟨hi, htype⟩, hva⟩
    exact hf.plan.2 i va (Nat.zero_le i) (by omega) htype hva

theorem ElfFile.pairwise_visits (f : ElfFile) : f.visits.Pairwise fun x y => x.1 ≤ y.1 := by
  unfold ElfFile.visits
  split
  · exact ElfFile.pairwise_planFrom _ _
  · exact List.Pairwise.nil

theorem ElfFile.WellFormed.result_eq (hf : f.WellFormed) (hn : f.ePhnum ≠ 0) :
    f.result = f.eEntry := by
  rw [ElfFile.result, if_pos ⟨hf.header, hn, hf.plan.1⟩]

/-- A page in user space, as far as the programs go. -/
theorem ElfFile.InUserSpace.plain (hu : f.InUserSpace) (hi : f.Loads i)
    (hva : va ∈ (f.phdr i).pages) : PlainVa va := by
  obtain ⟨hlo, hhi⟩ := hu.range i hi
  obtain ⟨hstart, hend, hdvd⟩ := Phdr.mem_pages.mp hva
  have hfirst : 0xC00000 ≤ va := by
    unfold Phdr.virtPage pageDown at hstart
    omega
  have hlast : va < 0xEFE000 := by
    unfold Phdr.virtEnd pageDown add64 at hend
    omega
  refine ⟨Nat.mod_eq_zero_of_dvd hdvd, by omega, ?_⟩
  simp only [kernelPages, List.mem_cons, List.not_mem_nil, or_false, pdIdx]
  omega

theorem ElfFile.WellFormed.bounded (hf : f.WellFormed) (hu : f.InUserSpace) (hi : f.Loads i) :
    (f.phdr i).Bounded := by
  have hsize := f.size.toNat_lt
  have hle := hf.sizes i hi
  have hrange := hu.range i hi
  refine ⟨by omega, fun hpos => ?_⟩
  have hin := hf.inFile i hi hpos
  omega

end File

/-! ## What is lost -/

section Lost
variable {f : ElfFile} {m₀ m : Mem} {dir : Nat} {done : List Placed} {tab : Tabs}

/-- Every loaded page is the latest one somewhere exactly if no page was loaded twice. -/
theorem nodup_iff_lookup (hplain : ∀ x ∈ done, PlainVa x.va)
    (hframes : (done.map Placed.frame).Nodup) :
    (∀ x ∈ done, ∃ va, lookup done va = some x) ↔ (done.map Placed.va).Nodup := by
  induction done with
  | nil => simp
  | cons y done ih =>
      rw [List.map_cons, List.nodup_cons] at hframes
      have hplain' := fun x hx => hplain x (List.mem_cons_of_mem y hx)
      have hne : ∀ x ∈ done, x ≠ y := by
        rintro x hx rfl
        exact hframes.1 (List.mem_map_of_mem hx)
      have hcons {va : Nat} : lookup (y :: done) va =
          if samePage y.va va then some y else lookup done va := by
        rw [lookup, List.find?_cons]
        by_cases hsame : samePage y.va va
        · simp [hsame]
        · simp [hsame, lookup]
      rw [List.map_cons, List.nodup_cons, ← ih hplain' hframes.2]
      constructor
      · intro h
        -- a page that is found behind `y` is not the page of `y`
        have hother {x : Placed} (hx : x ∈ done) :
            ∃ va, ¬samePage y.va va ∧ lookup done va = some x := by
          obtain ⟨va, hva⟩ := h x (List.mem_cons_of_mem y hx)
          rw [hcons] at hva
          split at hva
          · exact absurd (Option.some.inj hva).symm (hne x hx)
          · next hsame => exact ⟨va, hsame, hva⟩
        refine ⟨fun hmem => ?_, fun x hx => ?_⟩
        · obtain ⟨x, hx, heq⟩ := List.mem_map.mp hmem
          obtain ⟨va, hsame, hva⟩ := hother hx
          have hfound := List.find?_some hva
          rw [heq, decide_eq_true_eq] at hfound
          exact hsame hfound
        · obtain ⟨va, -, hva⟩ := hother hx
          exact ⟨va, hva⟩
      · rintro ⟨hfresh, h⟩ x (_ | ⟨_, hx⟩)
        · exact ⟨y.va, by rw [hcons, if_pos ⟨(hplain y List.mem_cons_self).user, rfl, rfl⟩]⟩
        · obtain ⟨va, hva⟩ := h x hx
          have hfound := List.find?_some hva
          rw [decide_eq_true_eq] at hfound
          refine ⟨va, ?_⟩
          rw [hcons, if_neg fun hsame => ?_, hva]
          have heq : x.va = y.va := (hplain y List.mem_cons_self).eq (hplain' x hx)
            (hfound.2.1.symm.trans hsame.2.1) (hfound.2.2.symm.trans hsame.2.2)
          exact hfresh (heq ▸ List.mem_map_of_mem hx)

/-- A frame of the bitmap that can be reached is a table or the latest page somewhere. -/
theorem Placing.reachable_iff (h : Placing f m₀ dir done m tab) (hm₀ : NewSpace f m₀ dir)
    (hg : reservedFrames ≤ g ∧ g < totalFrames) :
    Reachable m.vm dir g ↔
      (∃ l, tab g = some (dir, l)) ∨ ∃ va x, lookup done va = some x ∧ x.frame = g := by
  constructor
  · rintro ⟨va, hwalk | hphys⟩
    · rcases h.tree.walk_spec h.root hwalk with hl | hboot
      · exact Or.inl hl
      · exact absurd (hg.1.trans hboot.2) (by decide)
    · rw [h.phys] at hphys
      cases hfound : lookup done va with
      | none =>
          rw [hfound] at hphys
          have hout := hm₀.outOfRange va
          rw [show getPhys m₀.vm dir va = g from hphys] at hout
          rcases hout with hlow | hhigh
          · exact absurd hg.1 (Nat.not_le.mpr hlow)
          · exact absurd hg.2 (Nat.not_lt.mpr hhigh)
      | some x =>
          rw [hfound] at hphys
          exact Or.inr ⟨va, x, hfound, hphys⟩
  · rintro (⟨l, hl⟩ | ⟨va, x, hfound, rfl⟩)
    · obtain ⟨va, hwalk⟩ := h.tree.exists_walk hl
      exact ⟨va, Or.inl hwalk⟩
    · exact ⟨va, Or.inr (by rw [h.phys, hfound]; rfl)⟩

/-- No frame is lost exactly if no page was loaded twice. -/
theorem Placing.noneLost_iff (h : Placing f m₀ dir done m tab) (hm₀ : NewSpace f m₀ dir) :
    NoneLost m₀ m dir ↔ (done.map Placed.va).Nodup := by
  rw [← nodup_iff_lookup h.plain h.nodup]
  constructor
  · intro hlost x hx
    obtain ⟨hfree, hused, hnone⟩ := h.frames x hx
    obtain ⟨hrange, hfree⟩ := mem_freeFrames.mp hfree
    rcases (h.reachable_iff hm₀ hrange).mp (hlost x.frame hfree hused) with
      ⟨l, hl⟩ | ⟨va, y, hfound, heq⟩
    · rw [hnone] at hl
      cases hl
    · have hy : y ∈ done := List.mem_of_find?_eq_some hfound
      exact ⟨va, by rw [hfound, List.inj_on_of_nodup_map h.nodup hy hx heq]⟩
  · intro hlatest q hq₀ hq
    rcases h.taken q hq₀ hq with ⟨x, hx, rfl⟩ | ⟨l, hl⟩
    · obtain ⟨va, hfound⟩ := hlatest x hx
      have hrange := (mem_freeFrames.mp (h.frames x hx).1).1
      exact (h.reachable_iff hm₀ hrange).mpr (Or.inr ⟨va, x, hfound, rfl⟩)
    · obtain ⟨hlow, hhigh, -⟩ := h.tree.frame hl
      exact (h.reachable_iff hm₀ ⟨hlow, hhigh⟩).mpr (Or.inl ⟨l, hl⟩)

/-- A frame that was not mapped for want of a page table is lost. -/
theorem Starved.lost (h : Placing f m₀ dir done m tab) (hm₀ : NewSpace f m₀ dir) {w : Mem}
    (hs : Starved done m va w g) : ¬NoneLost m₀ w dir := by
  intro hlost
  obtain ⟨hrange, hfree⟩ := mem_freeFrames.mp hs.frame
  have hfree₀ := (mem_freeFrames.mp (h.free hs.frame)).2
  have hused : w.vm.used g = true := by
    rw [hs.vm]
    simp [takeZeroed, zeroFrame]
  have hnone : tab g = none := h.tree.none_of_free hs.frame
  have hreach : Reachable m.vm dir g := by
    obtain ⟨va', hva'⟩ := hlost g hfree₀ hused
    rw [hs.vm] at hva'
    rcases hva' with hwalk | hphys
    · rcases (h.tree.takeZeroed hs.frame).walk_spec h.root hwalk with ⟨l, hl⟩ | hboot
      · rw [hnone] at hl
        cases hl
      · exact absurd (hrange.1.trans hboot.2) (by decide)
    · exact ⟨va', Or.inr (by rwa [h.tree.getPhys_takeZeroed hs.frame h.root] at hphys)⟩
  rcases (h.reachable_iff hm₀ hrange).mp hreach with ⟨l, hl⟩ | ⟨va', x, hfound, rfl⟩
  · rw [hnone] at hl
    cases hl
  · rw [(h.frames x (List.mem_of_find?_eq_some hfound)).2.1] at hfree
    cases hfree

/-! ## What is shown -/

theorem samePage_iff {p : Nat} (hp : PlainVa p) (ha : a < 2 ^ 30) :
    samePage p a ↔ p = pageDown a := by
  have hlow := hp.low
  have haligned := hp.aligned
  unfold samePage UserVa pml4Idx pdptIdx pdIdx ptIdx pageDown
  omega

theorem Placing.byteAt_some (h : Placing f m₀ dir done m tab) {x : Placed}
    (hfound : lookup done a = some x) :
    m.byteAt dir a = some (pageByte f (f.phdr x.index) x.va (a % 4096)) := by
  have hx : x ∈ done := List.mem_of_find?_eq_some hfound
  have hphys : getPhys m.vm dir a = x.frame := by rw [h.phys, hfound]; rfl
  have hnz : x.frame ≠ 0 := by
    intro hz
    have hrange := (mem_freeFrames.mp (h.frames x hx).1).1
    rw [hz] at hrange
    exact absurd hrange.1 (by decide)
  rw [Mem.byteAt, hphys, if_neg hnz, h.bytes x hx _ (Nat.mod_lt _ (by decide))]

theorem Placing.byteAt_none (h : Placing f m₀ dir done m tab) (hm₀ : NewSpace f m₀ dir)
    (ha : UserVa a) (hplain : pdIdx a ∉ kernelPages) (hnone : lookup done a = none) :
    m.byteAt dir a = none := by
  rw [Mem.byteAt, if_pos]
  rw [h.phys, hnone]
  exact hm₀.none a ha hplain

/-- The frame that is not mapped shows nowhere. -/
theorem Starved.byteAt_eq (h : Placing f m₀ dir done m tab) (hm₀ : NewSpace f m₀ dir) {w : Mem}
    (hs : Starved done m va w g) (ha : UserVa a) (hplain : pdIdx a ∉ kernelPages) :
    w.byteAt dir a = m.byteAt dir a := by
  have hphys : getPhys w.vm dir a = getPhys m.vm dir a := by
    rw [hs.vm, h.tree.getPhys_takeZeroed hs.frame h.root]
  rw [Mem.byteAt, Mem.byteAt, hphys]
  split
  · rfl
  · next hnz =>
    rw [hs.ram _ _ (Nat.mod_lt _ (by decide))]
    intro hg
    cases hfound : lookup done a with
    | none =>
        rw [h.phys, hfound] at hnz
        exact hnz (hm₀.none a ha hplain)
    | some x =>
        rw [h.phys, hfound] at hg
        have hused := (h.frames x (List.mem_of_find?_eq_some hfound)).2.1
        rw [show x.frame = g from hg, (mem_freeFrames.mp hs.frame).2] at hused
        cases hused

/-- The latest page for an address belongs to the last segment that has it. -/
theorem lookup_latest (hlist : done.map (fun x => (x.index, x.va)) = l.reverse)
    (hsorted : l.Pairwise fun x y => x.1 ≤ y.1) {y : Placed} (hy : y ∈ done)
    (hsame : samePage y.va a) : ∃ x, lookup done a = some x ∧ y.index ≤ x.index := by
  have hsorted' : done.Pairwise fun x y => y.index ≤ x.index := by
    have hrev := List.pairwise_reverse.mpr hsorted
    rw [← hlist, List.pairwise_map] at hrev
    exact hrev
  clear hlist
  induction done with
  | nil => cases hy
  | cons z done ih =>
      rw [List.pairwise_cons] at hsorted'
      rw [lookup, List.find?_cons]
      by_cases hz : samePage z.va a
      · simp only [hz, decide_true]
        rcases List.mem_cons.mp hy with rfl | hy
        · exact ⟨y, rfl, Nat.le_refl _⟩
        · exact ⟨z, rfl, hsorted'.1 y hy⟩
      · simp only [hz, decide_false]
        rcases List.mem_cons.mp hy with rfl | hy
        · exact absurd hsame hz
        · exact ih hy hsorted'.2

end Lost

section Image
variable {f : ElfFile} {m₀ m : Mem} {dir : Nat} {done : List Placed} {tab : Tabs}

/-- An address of a segment lies in user space, in a page of the segment. -/
theorem ElfFile.InUserSpace.page (hu : f.InUserSpace) (hi : f.Loads i) (ha : (f.phdr i).Holds a) :
    a < 2 ^ 30 ∧ UserVa a ∧ pdIdx a ∉ kernelPages ∧ pageDown a ∈ (f.phdr i).pages := by
  obtain ⟨hlo, hhi⟩ := hu.range i hi
  obtain ⟨hstart, hend⟩ := ha
  refine ⟨by omega, ?_, ?_, Phdr.mem_pages.mpr ⟨?_, ?_, Nat.dvd_mul_left _ _⟩⟩
  · simp only [UserVa, pml4Idx, pdptIdx]
    omega
  · simp only [kernelPages, List.mem_cons, List.not_mem_nil, or_false, pdIdx]
    omega
  · exact Nat.mul_le_mul_right _ (Nat.div_le_div_right hstart)
  · unfold Phdr.virtEnd add64 pageDown
    omega

/-- An address of a segment is found in the last segment that has its page. -/
theorem Placing.found (h : Placing f m₀ dir done m tab) (hf : f.WellFormed) (hu : f.InUserSpace)
    {skipped : List (Nat × Nat)} (hlist : done.map (fun x => (x.index, x.va)) = l.reverse)
    (hvisits : f.visits = l ++ skipped)
    (hskipped : ∀ x ∈ skipped, ∀ i, f.Loads i → ∀ a, (f.phdr i).Holds a → pageDown a ≠ x.2)
    (hi : f.Loads i) (ha : (f.phdr i).Holds a) :
    ∃ x, lookup done a = some x ∧ x.va = pageDown a ∧ f.Loads x.index ∧
      pageDown a ∈ (f.phdr x.index).pages ∧
      ∀ i', f.Loads i' → pageDown a ∈ (f.phdr i').pages → i' ≤ x.index := by
  obtain ⟨hlow, -, -, hpage⟩ := hu.page hi ha
  have hsorted : l.Pairwise fun x y => x.1 ≤ y.1 := by
    have hall := f.pairwise_visits
    rw [hvisits] at hall
    exact (List.pairwise_append.mp hall).1
  -- every segment that has the page has loaded it
  have hplaced {i' : Nat} (hi' : f.Loads i') (hpage' : pageDown a ∈ (f.phdr i').pages) :
      ∃ y ∈ done, y.index = i' ∧ samePage y.va a := by
    have hmem := hf.mem_visits.mpr ⟨hi', hpage'⟩
    rw [hvisits, List.mem_append] at hmem
    rcases hmem with hmem | hmem
    · rw [← List.mem_reverse, ← hlist] at hmem
      obtain ⟨y, hy, heq⟩ := List.mem_map.mp hmem
      obtain ⟨hindex, hva⟩ := Prod.mk.inj heq
      exact ⟨y, hy, hindex, (samePage_iff (h.plain y hy) hlow).mpr hva⟩
    · exact absurd rfl (hskipped _ hmem i hi a ha)
  obtain ⟨y, hy, -, hsame⟩ := hplaced hi hpage
  obtain ⟨x, hfound, -⟩ := lookup_latest hlist hsorted hy hsame
  have hx : x ∈ done := List.mem_of_find?_eq_some hfound
  have hxsame : samePage x.va a := by
    have := List.find?_some hfound
    rwa [decide_eq_true_eq] at this
  have hxva := (samePage_iff (h.plain x hx) hlow).mp hxsame
  have hxmem : (x.index, x.va) ∈ f.visits := by
    rw [hvisits, List.mem_append, ← List.mem_reverse, ← hlist]
    exact Or.inl (List.mem_map_of_mem hx)
  obtain ⟨hxi, hxpage⟩ := hf.mem_visits.mp hxmem
  refine ⟨x, hfound, hxva, hxi, hxva ▸ hxpage, fun i' hi' hpage' => ?_⟩
  obtain ⟨z, hz, rfl, hzsame⟩ := hplaced hi' hpage'
  obtain ⟨x', hfound', hle⟩ := lookup_latest hlist hsorted hz hzsame
  rw [hfound] at hfound'
  cases hfound'
  exact hle

/-- With every page in its place the image is there exactly if no byte but zeros lies in a page
that a later segment has as well. -/
theorem Placing.shown_iff (h : Placing f m₀ dir done m tab) (hf : f.WellFormed)
    (hu : f.InUserSpace) {skipped : List (Nat × Nat)}
    (hlist : done.map (fun x => (x.index, x.va)) = l.reverse) (hvisits : f.visits = l ++ skipped)
    (hskipped : ∀ x ∈ skipped, ∀ i, f.Loads i → ∀ a, (f.phdr i).Holds a → pageDown a ≠ x.2) :
    f.Shown m dir ↔ f.Kept := by
  have hholds {i k : Nat} (hk : k < (f.phdr i).memsz) : (f.phdr i).Holds ((f.phdr i).vaddr + k) :=
    ⟨by omega, by omega⟩
  -- the byte that is shown, by the segment that has the page last
  have hbyte {i k : Nat} (hi : f.Loads i) (hk : k < (f.phdr i).memsz) :
      ∃ j, f.Loads j ∧ pageDown ((f.phdr i).vaddr + k) ∈ (f.phdr j).pages ∧
        (∀ i', f.Loads i' → pageDown ((f.phdr i).vaddr + k) ∈ (f.phdr i').pages → i' ≤ j) ∧
        m.byteAt dir ((f.phdr i).vaddr + k) =
          some (if j = i then segByte f (f.phdr i) k else 0) := by
    obtain ⟨x, hfound, hva, hx, hpage, hlast⟩ :=
      h.found hf hu hlist hvisits hskipped hi (hholds hk)
    have hsplit : pageDown ((f.phdr i).vaddr + k) + ((f.phdr i).vaddr + k) % 4096 =
        (f.phdr i).vaddr + k := by
      unfold pageDown
      omega
    refine ⟨x.index, hx, hpage, hlast, ?_⟩
    rw [h.byteAt_some hfound, hva, pageByte, hsplit]
    by_cases hxi : x.index = i
    · rw [hxi, if_pos rfl, segByte, Nat.add_sub_cancel_left]
      by_cases hfile : k < (f.phdr i).filesz
      · rw [if_pos ⟨by omega, by omega⟩, if_pos hfile]
      · rw [if_neg (by omega), if_neg hfile]
    · rw [if_neg hxi, if_neg]
      rintro ⟨hlo, hhi⟩
      have hle := hf.sizes x.index hx
      exact hu.disjoint x.index i hx hi hxi _ ⟨⟨hlo, by omega⟩, hholds hk⟩
  constructor
  · intro hshown i i' hlt hi hi' k hk hpage
    have hmem : k < (f.phdr i).memsz := Nat.lt_of_lt_of_le hk (hf.sizes i hi)
    obtain ⟨j, -, -, hlast, heq⟩ := hbyte hi hmem
    have hle := hlast i' hi' hpage
    rw [hshown i hi k hmem, if_neg (by omega), segByte, if_pos hk] at heq
    exact Option.some.inj heq
  · intro hzero i hi k hk
    obtain ⟨j, hj, hpage, hlast, heq⟩ := hbyte hi hk
    rw [heq]
    by_cases hji : j = i
    · rw [if_pos hji]
    · have hle := hlast i hi (hu.page hi (hholds hk)).2.2.2
      rw [if_neg hji, segByte]
      by_cases hfile : k < (f.phdr i).filesz
      · rw [if_pos hfile, hzero i j (by omega) hi hj k hfile hpage]
      · rw [if_neg hfile]

end Image

/-! ## The loader -/

theorem nodup_take_iff {l : List Nat} {n : Nat} (hn : n ≤ l.length) :
    (l.take n).Nodup ↔ ∀ (j : Nat) (hj : j < l.length), j < n → l[j] ∉ l.take j := by
  induction n with
  | zero => simp
  | succ n ih =>
      rw [List.take_succ_eq_append_getElem (by omega), ← List.concat_eq_append,
        List.nodup_concat, ih (by omega)]
      constructor
      · rintro ⟨hlast, hrest⟩ j hj hjn
        rcases Nat.eq_or_lt_of_le (Nat.le_of_lt_succ hjn) with rfl | hjn
        · exact hlast
        · exact hrest j hj hjn
      · exact fun h => ⟨h n (by omega) (by omega), fun j hj hjn => h j hj (by omega)⟩

section Suits
variable {f : ElfFile} {free n : Nat}

theorem suits_of_room (hroom : framesFor f.image.pages ≤ free) :
    f.Suits free ↔ if f.eEntry ≠ 0 then f.Kept else f.image.pages.Nodup := by
  have hserved : ∀ j < f.image.pages.length, framesFor (f.image.pages.take j) < free := by
    intro j hj
    have hlt := framesFor_take_lt hj (Nat.le_refl f.image.pages.length)
    rw [List.take_length] at hlt
    omega
  have htables : ∀ (j : Nat) (hj : j < f.image.pages.length),
      pdIdx f.image.pages[j] ∉ (f.image.pages.take j).map pdIdx →
      free ≠ framesFor (f.image.pages.take j) + 1 := by
    intro j hj hopens heq
    have hsucc := framesFor_take_succ hj
    rw [if_neg hopens] at hsucc
    rcases Nat.eq_or_lt_of_le (Nat.succ_le_of_lt hj) with hlast | hlast
    · rw [Nat.succ_eq_add_one] at hlast
      rw [hlast, List.take_length] at hsucc
      omega
    · have hlt := hserved (j + 1) hlast
      omega
  by_cases hentry : f.eEntry ≠ 0
  · have hall : (∀ j < f.image.pages.length, framesFor (f.image.pages.take j) < free) ∧
        f.eEntry ≠ 0 := ⟨hserved, hentry⟩
    rw [if_pos hentry]
    constructor
    · intro h
      have hpages := h.pages
      rwa [if_pos hall] at hpages
    · intro h
      refine ⟨fun j hj hopens heq => absurd heq (htables j hj hopens), ?_⟩
      rwa [if_pos hall]
  · have hnot : ¬((∀ j < f.image.pages.length, framesFor (f.image.pages.take j) < free) ∧
        f.eEntry ≠ 0) := fun hc => hentry hc.2
    rw [if_neg hentry, ← List.take_length (l := f.image.pages), nodup_take_iff (Nat.le_refl _)]
    constructor
    · intro h
      have hpages := h.pages
      rw [if_neg hnot] at hpages
      exact fun j hj _ => hpages j hj (hserved j hj)
    · intro h
      refine ⟨fun j hj hopens heq => absurd heq (htables j hj hopens), ?_⟩
      rw [if_neg hnot]
      exact fun j hj _ => h j hj hj

theorem suits_of_full (hn : n < f.image.pages.length)
    (hfull : framesFor (f.image.pages.take n) = free) :
    f.Suits free ↔ (f.image.pages.take n).Nodup := by
  have hserved {j : Nat} (hj : j ≤ f.image.pages.length) :
      framesFor (f.image.pages.take j) < free ↔ j < n := by
    constructor
    · intro hlt
      by_contra hle
      rcases Nat.eq_or_lt_of_le (Nat.le_of_not_lt hle) with rfl | hlt'
      · omega
      · have := framesFor_take_lt hlt' hj
        omega
    · intro hlt
      rw [← hfull]
      exact framesFor_take_lt hlt (Nat.le_of_lt hn)
  have hnot : ¬((∀ j < f.image.pages.length, framesFor (f.image.pages.take j) < free) ∧
      f.eEntry ≠ 0) := by
    intro hc
    exact absurd ((hserved (Nat.le_of_lt hn)).mp (hc.1 n hn)) (Nat.lt_irrefl n)
  have htables : ∀ (j : Nat) (hj : j < f.image.pages.length),
      pdIdx f.image.pages[j] ∉ (f.image.pages.take j).map pdIdx →
      free ≠ framesFor (f.image.pages.take j) + 1 := by
    intro j hj hopens heq
    have hsucc := framesFor_take_succ hj
    rw [if_neg hopens] at hsucc
    have hjn := (hserved (Nat.le_of_lt hj)).mp (by omega)
    rcases Nat.eq_or_lt_of_le (Nat.succ_le_of_lt hjn) with hlast | hlast
    · rw [Nat.succ_eq_add_one] at hlast
      rw [hlast] at hsucc
      omega
    · have := (hserved (j := j + 1) hj).mpr hlast
      omega
  rw [nodup_take_iff (Nat.le_of_lt hn)]
  constructor
  · intro h j hj hjn
    have hpages := h.pages
    rw [if_neg hnot] at hpages
    exact hpages j hj ((hserved (Nat.le_of_lt hj)).mpr hjn)
  · intro h
    refine ⟨fun j hj hopens heq => absurd heq (htables j hj hopens), ?_⟩
    rw [if_neg hnot]
    exact fun j hj hlt => h j hj ((hserved (Nat.le_of_lt hj)).mp hlt)

theorem suits_of_starved (hn : n < f.image.pages.length)
    (hopens : pdIdx f.image.pages[n] ∉ (f.image.pages.take n).map pdIdx)
    (hfree : free = framesFor (f.image.pages.take n) + 1) :
    f.Suits free ↔ (n + 1 = f.image.pages.length ∧ f.eEntry ≠ 0 ∧
      ∀ i, f.Loads i → ∀ x, (f.phdr i).Holds x → pageDown x ≠ f.image.pages[n]) ∧ f.Kept := by
  have hserved (hlast : n + 1 = f.image.pages.length) :
      ∀ j < f.image.pages.length, framesFor (f.image.pages.take j) < free := by
    intro j hj
    rcases Nat.eq_or_lt_of_le (show j ≤ n by omega) with rfl | hjn
    · omega
    · have := framesFor_take_lt hjn (Nat.le_of_lt hn)
      omega
  constructor
  · intro h
    have hlast := h.tables n hn hopens hfree
    have hpages := h.pages
    rw [if_pos ⟨hserved hlast.1, hlast.2.1⟩] at hpages
    exact ⟨hlast, hpages⟩
  · rintro ⟨hlast, hkept⟩
    constructor
    · intro j hj _ heq
      -- only this page finds one frame
      rcases Nat.lt_trichotomy j n with hjn | rfl | hjn
      · have := framesFor_take_lt hjn (Nat.le_of_lt hn)
        omega
      · exact hlast
      · omega
    · rw [if_pos ⟨hserved hlast.1, hlast.2.1⟩]
      exact hkept

end Suits

section Loader
variable {f : ElfFile} {m : Mem} {dir : Nat}

/-- What the loader promises about an outcome. -/
def Promised (f : ElfFile) (m : Mem) (dir : Nat) (out : Mem × Bool) : Prop :=
  (out.2 = true ∧ f.result ≠ 0 → f.Shown out.1 dir) ∧
    (¬(out.2 = true ∧ f.result ≠ 0) → NoneLost m out.1 dir)

/-- The loader has one outcome. -/
theorem buildsImage_iff_promised :
    BuildsImage f m dir ↔ Promised f m dir (loadVisits (memOps dir) f f.visits m) := by
  obtain ⟨hstate, hret⟩ := @runElf_visits _ (memOps dir) f m
  have hne : (runElf (memOps dir) f m).ret ≠ 0 ↔
      (loadVisits (memOps dir) f f.visits m).2 = true ∧ f.result ≠ 0 := by
    rw [hret]
    split
    · next hok => simp [hok]
    · next hok => simp [hok]
  rw [Promised, ← hne, not_not, ← hstate]
  constructor
  · exact fun h => h (2 ^ 52) _ (elfLoad_eq (Nat.le_refl _))
  · intro h fuel r hr
    obtain rfl := elfLoad_some hr
    exact h

theorem promised_iff_shown {out : Mem × Bool} (hok : out.2 = true) (hresult : f.result ≠ 0) :
    Promised f m dir out ↔ f.Shown out.1 dir :=
  ⟨fun h => h.1 ⟨hok, hresult⟩, fun h => ⟨fun _ => h, fun hc => absurd ⟨hok, hresult⟩ hc⟩⟩

theorem promised_iff_noneLost {out : Mem × Bool} (hout : ¬(out.2 = true ∧ f.result ≠ 0)) :
    Promised f m dir out ↔ NoneLost m out.1 dir :=
  ⟨fun h => h.2 hout, fun h => ⟨fun hc => absurd hc hout, fun _ => h⟩⟩

theorem placed_va {placed : List Placed}
    (hlist : placed.map (fun x => (x.index, x.va)) = l.reverse) :
    placed.map Placed.va = (l.map Prod.snd).reverse := by
  rw [← List.map_reverse, ← hlist, List.map_map]
  rfl

theorem ElfFile.WellFormed.visits_nil (hf : f.WellFormed) (hz : f.ePhnum = 0) : f.visits = [] := by
  rw [ElfFile.visits, if_pos hf.header, hz]
  rfl

section Endings
variable {out : Mem × Bool} {placed : List Placed} {tab : Tabs}

/-- Every page has its frame and its page table. -/
theorem loaded_iff (hf : f.WellFormed) (hu : f.InUserSpace) (hm : NewSpace f m dir)
    (hok : out.2 = true) (hlist : placed.map (fun x => (x.index, x.va)) = f.visits.reverse)
    (h : Placing f m dir placed out.1 tab) :
    Promised f m dir out ↔ f.Suits (freeFrames m.vm).card := by
  have hva : placed.map Placed.va = f.image.pages.reverse := placed_va hlist
  have hroom : framesFor f.image.pages ≤ (freeFrames m.vm).card := by
    have hcount := h.count
    rw [hva, framesFor_reverse] at hcount
    omega
  have hnodup : NoneLost m out.1 dir ↔ f.image.pages.Nodup := by
    rw [h.noneLost_iff hm, hva, List.nodup_reverse]
  rw [suits_of_room hroom]
  by_cases hphnum : f.ePhnum = 0
  · -- there is nothing to load
    have hempty : f.image.pages = [] := by rw [ElfFile.image, hf.visits_nil hphnum]; rfl
    have hkept : f.Kept := fun i i' _ hi => by
      have := hi.1
      omega
    rw [promised_iff_noneLost (by simp [ElfFile.result, hphnum]), hnodup, hempty]
    simp [hkept]
  · have hresult := hf.result_eq hphnum
    by_cases hentry : f.eEntry ≠ 0
    · rw [promised_iff_shown hok (hresult ▸ hentry), if_pos hentry,
        h.shown_iff hf hu hlist (List.append_nil _).symm (by simp)]
    · rw [promised_iff_noneLost (fun hc => hentry (hresult ▸ hc.2)), if_neg hentry, hnodup]

/-- There is no frame for a page. -/
theorem short_iff (hm : NewSpace f m dir) {before after : List (Nat × Nat)} {x : Nat × Nat}
    (hok : out.2 = false) (hl : f.visits = before ++ x :: after)
    (hlist : placed.map (fun x => (x.index, x.va)) = before.reverse)
    (h : Placing f m dir placed out.1 tab) (hempty : freeFrames out.1.vm = ∅) :
    Promised f m dir out ↔ f.Suits (freeFrames m.vm).card := by
  have hpages : f.image.pages = before.map Prod.snd ++ x.2 :: after.map Prod.snd := by
    rw [ElfFile.image, hl, List.map_append, List.map_cons]
  have htake : f.image.pages.take before.length = before.map Prod.snd := by
    rw [hpages, List.take_left' (List.length_map _)]
  have hva := placed_va hlist
  have hfull : framesFor (f.image.pages.take before.length) = (freeFrames m.vm).card := by
    have hcount := h.count
    rwa [hempty, Finset.card_empty, Nat.zero_add, hva, framesFor_reverse, ← htake] at hcount
  rw [suits_of_full (by simp [hpages]) hfull, promised_iff_noneLost (by simp [hok]),
    h.noneLost_iff hm, hva, List.nodup_reverse, htake]

/-- The last frame is not mapped. -/
theorem starved_iff (hf : f.WellFormed) (hu : f.InUserSpace) (hm : NewSpace f m dir)
    {before after : List (Nat × Nat)} {x : Nat × Nat} {m' : Mem}
    (hok : out.2 = decide (after = [])) (hl : f.visits = before ++ x :: after)
    (hlist : placed.map (fun x => (x.index, x.va)) = before.reverse)
    (h : Placing f m dir placed m' tab) (hs : Starved placed m' x.2 out.1 g) :
    Promised f m dir out ↔ f.Suits (freeFrames m.vm).card := by
  have hpages : f.image.pages = before.map Prod.snd ++ x.2 :: after.map Prod.snd := by
    rw [ElfFile.image, hl, List.map_append, List.map_cons]
  have htake : f.image.pages.take before.length = before.map Prod.snd := by
    rw [hpages, List.take_left' (List.length_map _)]
  have hn : before.length < f.image.pages.length := by simp [hpages]
  have hat : f.image.pages[before.length] = x.2 := by simp [hpages]
  have hlast : before.length + 1 = f.image.pages.length ↔ after = [] := by
    rw [hpages, List.length_append, List.length_cons, List.length_map, List.length_map,
      ← List.length_eq_zero_iff]
    omega
  have hva := placed_va hlist
  have hopens : pdIdx f.image.pages[before.length] ∉
      (f.image.pages.take before.length).map pdIdx := by
    have hopens := hs.opens
    rwa [hva, List.map_reverse, List.mem_reverse, ← htake, ← hat] at hopens
  have hfree : (freeFrames m.vm).card = framesFor (f.image.pages.take before.length) + 1 := by
    have hcount := h.count
    rw [hs.last, hva, framesFor_reverse, ← htake] at hcount
    omega
  have hxi : f.Loads x.1 := (hf.mem_visits.mp (hl ▸ by simp : (x.1, x.2) ∈ f.visits)).1
  have hresult : f.result = f.eEntry := hf.result_eq (Nat.ne_of_gt (Nat.zero_lt_of_lt hxi.1))
  rw [suits_of_starved hn hopens hfree, hlast, hat]
  by_cases hout : after = [] ∧ f.eEntry ≠ 0
  · obtain ⟨rfl, hentry⟩ := hout
    rw [promised_iff_shown (by simpa using hok) (hresult ▸ hentry)]
    by_cases hholds : ∀ i, f.Loads i → ∀ a, (f.phdr i).Holds a → pageDown a ≠ x.2
    · have hsame : f.Shown out.1 dir ↔ f.Shown m' dir := by
        refine forall_congr' fun i => imp_congr_right fun hi => forall_congr' fun k =>
          imp_congr_right fun hk => ?_
        obtain ⟨-, huser, hplain, -⟩ :=
          hu.page hi (a := (f.phdr i).vaddr + k) ⟨by omega, by omega⟩
        rw [hs.byteAt_eq h hm huser hplain]
      rw [hsame, h.shown_iff hf hu hlist hl (by simpa using hholds)]
      exact ⟨fun hkept => ⟨⟨rfl, hentry, hholds⟩, hkept⟩, fun hc => hc.2⟩
    · refine iff_of_false (fun hshown => hholds fun i hi a ha heq => ?_) fun hc => hholds hc.1.2.2
      -- the page of `a` is the one that is missing
      obtain ⟨hlow, huser, hplain, -⟩ := hu.page hi ha
      have hnone : lookup placed a = none := by
        refine List.find?_eq_none.mpr fun y hy hsame => hs.opens ?_
        rw [decide_eq_true_eq, samePage_iff (h.plain y hy) hlow, heq] at hsame
        rw [← hsame]
        exact List.mem_map_of_mem (List.mem_map_of_mem hy)
      have hbyte := hshown i hi (a - (f.phdr i).vaddr) (by have := ha.1; have := ha.2; omega)
      rw [Nat.add_sub_cancel' ha.1, hs.byteAt_eq h hm huser hplain,
        h.byteAt_none hm huser hplain hnone] at hbyte
      cases hbyte
  · refine iff_of_false ?_ fun hc => hout ⟨hc.1.1, hc.1.2.1⟩
    rw [promised_iff_noneLost]
    · exact hs.lost h hm
    · rwa [hok, decide_eq_true_eq, hresult]

end Endings

/-- In a new address space the loader does what it promises exactly if the file suits the
number of free frames. -/
theorem builds_image_iff {v : Vm} (hf : f.WellFormed) (hu : f.InUserSpace) (hv : BootDirs v)
    (hm : createPageDir v = (m.vm, dir)) (hdir : dir ≠ 0) :
    BuildsImage f m dir ↔ f.Suits (freeFrames m.vm).card := by
  have hnew : NewSpace f m dir := newSpace_of_create hv hm hdir
  obtain ⟨tab₀, hstart⟩ := hnew.placing
  have hvisit : ∀ x ∈ f.visits,
      PlainVa x.2 ∧ (f.phdr x.1).Bounded ∧ x.2 ∈ (f.phdr x.1).pages := by
    intro x hx
    obtain ⟨hi, hva⟩ := hf.mem_visits.mp hx
    exact ⟨hu.plain hi hva, hf.bounded hu hi, hva⟩
  rw [buildsImage_iff_promised]
  rcases loadVisits_ending hstart hvisit with
    ⟨hok, hlist, h⟩ | ⟨hok, hl, hlist, h, hempty⟩ | ⟨hok, hl, hlist, h, hs⟩
  · rw [List.map_nil, List.append_nil] at hlist
    exact loaded_iff hf hu hnew hok hlist h
  · rw [List.map_nil, List.append_nil] at hlist
    exact short_iff hnew hok hl hlist h hempty
  · rw [List.map_nil, List.append_nil] at hlist
    exact starved_iff hf hu hnew hok hl hlist h hs

end Loader

/-! ## Two executables -/

/-- A number in `n` bytes, the lowest first. -/
def le (v : Nat) : Nat → List UInt8
  | 0 => []
  | n + 1 => UInt8.ofNat v :: le (v / 256) n

/-- An executable whose segments lie over the beginning of the file. -/
def execBytes (entry : Nat) (segs : List Phdr) : List UInt8 :=
  [0x7F, 0x45, 0x4C, 0x46, 2, 1, 1, 0, 0, 0, 0, 0, 0, 0, 0, 0] ++ le 2 2 ++ le 0x3E 2 ++ le 1 4 ++
    le entry 8 ++ le 64 8 ++ le 0 8 ++ le 0 4 ++ le 64 2 ++ le 56 2 ++ le segs.length 2 ++ le 0 6 ++
    segs.flatMap fun ph =>
      le ph.type 4 ++ le 7 4 ++ le ph.offset 8 ++ le ph.vaddr 8 ++ le ph.vaddr 8 ++
        le ph.filesz 8 ++ le ph.memsz 8 ++ le 4096 8

def execFile (entry : Nat) (segs : List Phdr) : ElfFile where
  data a := (execBytes entry segs).getD a 0
  size := UInt32.ofNat (execBytes entry segs).length

/-- One segment of eight bytes, four of them in the file. -/
def oneSegment : ElfFile := execFile 0xC00000 [⟨1, 0, 0xC00000, 4, 8⟩]

/-- Two segments of four bytes each, in the same page. -/
def sharedPage : ElfFile :=
  execFile 0xC00000 [⟨1, 0, 0xC00000, 4, 4⟩, ⟨1, 0, 0xC00800, 4, 4⟩]

/-- Memory after boot with one new address space. -/
def firstSpace : Mem := ⟨(createPageDir boot.vm).1, fun _ => 0⟩

theorem firstSpace_dir : createPageDir boot.vm = (firstSpace.vm, 2048) := by
  have hdir : (createPageDir boot.vm).2 = 2048 := by decide +kernel
  exact Prod.ext rfl hdir

theorem boot_bootDirs : BootDirs boot.vm := boot_start.boot

theorem oneSegment_phdr (hi : oneSegment.Loads i) :
    i = 0 ∧ oneSegment.phdr i = ⟨1, 0, 0xC00000, 4, 8⟩ := by
  have hphnum : oneSegment.ePhnum = 1 := by decide +kernel
  have hz : i = 0 := by
    have := hi.1
    omega
  subst hz
  exact ⟨rfl, by decide +kernel⟩

theorem oneSegment_wellFormed : oneSegment.WellFormed where
  header := by decide +kernel
  phentsize := by decide +kernel
  table := by decide +kernel
  sizes i hi := by
    rw [(oneSegment_phdr hi).2]
    decide
  inFile i hi _ := by
    rw [(oneSegment_phdr hi).2]
    decide +kernel

theorem oneSegment_inUserSpace : oneSegment.InUserSpace where
  range i hi := by
    rw [(oneSegment_phdr hi).2]
    decide
  disjoint i j hi hj hij := absurd ((oneSegment_phdr hi).1.trans (oneSegment_phdr hj).1.symm) hij

theorem builds_image_oneSegment :
    BuildsImage oneSegment firstSpace 2048 ↔ oneSegment.Suits (freeFrames firstSpace.vm).card :=
  builds_image_iff oneSegment_wellFormed oneSegment_inUserSpace boot_bootDirs firstSpace_dir
    (by decide)

theorem sharedPage_phdr (hi : sharedPage.Loads i) :
    i = 0 ∧ sharedPage.phdr i = ⟨1, 0, 0xC00000, 4, 4⟩ ∨
      i = 1 ∧ sharedPage.phdr i = ⟨1, 0, 0xC00800, 4, 4⟩ := by
  have hphnum : sharedPage.ePhnum = 2 := by decide +kernel
  have hlt : i < 2 := hphnum ▸ hi.1
  interval_cases i
  · exact Or.inl ⟨rfl, by decide +kernel⟩
  · exact Or.inr ⟨rfl, by decide +kernel⟩

theorem sharedPage_wellFormed : sharedPage.WellFormed where
  header := by decide +kernel
  phentsize := by decide +kernel
  table := by decide +kernel
  sizes i hi := by
    rcases sharedPage_phdr hi with ⟨-, h⟩ | ⟨-, h⟩ <;> rw [h]
  inFile i hi _ := by
    rcases sharedPage_phdr hi with ⟨-, h⟩ | ⟨-, h⟩ <;> rw [h] <;> decide +kernel

theorem sharedPage_inUserSpace : sharedPage.InUserSpace where
  range i hi := by
    rcases sharedPage_phdr hi with ⟨-, h⟩ | ⟨-, h⟩ <;> rw [h] <;> decide
  disjoint i j hi hj hij x := by
    unfold Phdr.Holds
    rcases sharedPage_phdr hi with ⟨hi0, h⟩ | ⟨hi1, h⟩ <;>
      rcases sharedPage_phdr hj with ⟨hj0, h'⟩ | ⟨hj1, h'⟩ <;>
        rw [h, h'] <;> dsimp only <;> omega

/-- The second segment hides the first: the loader succeeds, and the first byte is zero. -/
theorem shared_page_hidden : sharedPage.WellFormed ∧ sharedPage.InUserSpace ∧
    ¬BuildsImage sharedPage firstSpace 2048 := by
  refine ⟨sharedPage_wellFormed, sharedPage_inUserSpace, fun h => ?_⟩
  have hret : (runElf (memOps 2048) sharedPage firstSpace).ret ≠ 0 := by decide +kernel
  have hloads : sharedPage.Loads 0 := ⟨by decide +kernel, by decide +kernel⟩
  have hphdr : sharedPage.phdr 0 = ⟨1, 0, 0xC00000, 4, 4⟩ := by decide +kernel
  have hbyte := (h _ _ (elfLoad_eq (Nat.le_refl _))).1 hret 0 hloads 0 (by rw [hphdr]; decide)
  rw [hphdr] at hbyte
  exact absurd hbyte (by decide +kernel)

end OriaOS.Elf
