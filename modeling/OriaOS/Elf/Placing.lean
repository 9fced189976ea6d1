import OriaOS.Elf.Space

/-!
# Placing pages

How the loader fills an address space, page by page. Each page takes a frame, the first page of
a page table another one; the latest page at an address is the one that the tables show. When
the last frame has gone into a page, `vmm_map_page` finds none for its page table and says
nothing.
-/

namespace OriaOS.Elf

open OriaOS.Vmm

/-! ## One page -/

section Page
variable {f : ElfFile} {ph : Phdr}

/-- What a page of a segment holds at offset `k`. -/
def pageByte (f : ElfFile) (ph : Phdr) (va k : Nat) : UInt8 :=
  if ph.vaddr ≤ va + k ∧ va + k < ph.vaddr + ph.filesz then f.data (ph.offset + (va + k - ph.vaddr))
  else 0

/-- A segment whose addresses and whose bytes in the file do not wrap. -/
structure Phdr.Bounded (ph : Phdr) : Prop where
  memory : ph.vaddr + ph.filesz < 2 ^ 64
  file : 0 < ph.filesz → ph.offset + ph.filesz < 2 ^ 64

theorem getElem?_span (off n i : Nat) :
    (span off n)[i]? = if i < n then some (add64 off i) else none := by
  rw [span, List.getElem?_map]
  by_cases hi : i < n
  · rw [List.getElem?_range hi, if_pos hi, Option.map_some]
  · rw [List.getElem?_eq_none (by simpa using hi), if_neg hi, Option.map_none]

/-- After a turn of the page loop the frame holds the page of the segment, and no other frame
has changed. -/
theorem loadPage_ram (hb : ph.Bounded) {dir va g : Nat} (hva : va ∈ ph.pages) (m : Mem)
    (h : Nat) {k : Nat} (hk : k < 4096) :
    (loadPage (memOps dir) f ph m va g).ram (h * 4096 + k) =
      if h = g then pageByte f ph va k else m.ram (h * 4096 + k) := by
  have hmax := ph.virtEnd_add_le
  obtain ⟨-, hend, hdvd⟩ := Phdr.mem_pages.mp hva
  have hdvd' : 4096 ∣ ph.virtEnd := Nat.dvd_mul_left _ _
  have hnext : add64 va 4096 = va + 4096 := add64_of_lt (by omega)
  have hseg : ph.segFileEnd = ph.vaddr + ph.filesz := add64_of_lt hb.memory
  have hframe : (h * 4096 + k) / 4096 = h := by omega
  have hstart : ph.copyStart va = max va ph.vaddr := by
    unfold Phdr.copyStart
    split <;> omega
  have hstop : ph.copyEnd va = min (ph.vaddr + ph.filesz) (va + 4096) := by
    unfold Phdr.copyEnd
    rw [hnext, hseg]
    split <;> omega
  have hfile := hb.file
  unfold loadPage memOps pageByte
  dsimp only
  by_cases hcopy : ph.copyStart va < ph.copyEnd va
  · rw [if_pos hcopy]
    dsimp only
    rw [List.getD_eq_getElem?_getD, List.getElem?_map, Phdr.copyReads, getElem?_span, hframe]
    by_cases hh : h = g
    · subst hh
      rw [if_pos rfl, if_pos rfl]
      by_cases hin : ph.vaddr ≤ va + k ∧ va + k < ph.vaddr + ph.filesz
      · have hindex : add64 (add64 ph.offset (ph.copyStart va - ph.vaddr))
            (h * 4096 + k - (h * 4096 + (ph.copyStart va - va))) =
              ph.offset + (va + k - ph.vaddr) := by
          rw [add64_of_lt (a := ph.offset) (by omega), add64_of_lt (by omega)]
          omega
        rw [if_pos (by omega), if_pos (by omega), if_pos hin, hindex]
        rfl
      · rw [if_neg hin]
        by_cases hbefore : h * 4096 + (ph.copyStart va - va) ≤ h * 4096 + k
        · rw [if_pos hbefore, if_neg (by omega)]
          rfl
        · rw [if_neg hbefore]
    · rw [if_neg hh, if_neg hh]
      by_cases hbefore : g * 4096 + (ph.copyStart va - va) ≤ h * 4096 + k
      · rw [if_pos hbefore, if_neg (by omega)]
        rfl
      · rw [if_neg hbefore]
  · rw [if_neg hcopy]
    dsimp only
    rw [hframe]
    by_cases hh : h = g
    · rw [if_pos hh, if_pos hh, if_neg (by omega)]
    · rw [if_neg hh, if_neg hh]

end Page

/-! ## Frames and pages -/

/-- The frames that go into the pages of a list: the pages and their page tables. -/
def framesFor (l : List Nat) : Nat := l.length + (l.map pdIdx).toFinset.card

section Frames

theorem framesFor_cons (va : Nat) (l : List Nat) :
    framesFor (va :: l) =
      framesFor l + 1 + if pdIdx va ∈ l.map pdIdx then 0 else 1 := by
  unfold framesFor
  rw [List.length_cons, List.map_cons, List.toFinset_cons]
  split
  · next h =>
    rw [Finset.insert_eq_of_mem (List.mem_toFinset.mpr h)]
    omega
  · next h =>
    rw [Finset.card_insert_of_notMem (mt List.mem_toFinset.mp h)]
    omega

theorem framesFor_reverse (l : List Nat) : framesFor l.reverse = framesFor l := by
  unfold framesFor
  rw [List.length_reverse, List.map_reverse, List.toFinset_reverse]

/-- Each page takes a frame, and the first of a page table takes another one. -/
theorem framesFor_take_succ {l : List Nat} {j : Nat} (hj : j < l.length) :
    framesFor (l.take (j + 1)) =
      framesFor (l.take j) + 1 + if pdIdx l[j] ∈ (l.take j).map pdIdx then 0 else 1 := by
  have hcons := framesFor_cons l[j] (l.take j).reverse
  rw [List.map_reverse, framesFor_reverse] at hcons
  simp only [List.mem_reverse] at hcons
  rw [← hcons, ← framesFor_reverse, List.take_succ_eq_append_getElem hj, List.reverse_append]
  rfl

theorem framesFor_take_lt {l : List Nat} {i j : Nat} (hij : i < j) (hj : j ≤ l.length) :
    framesFor (l.take i) < framesFor (l.take j) := by
  induction j with
  | zero => omega
  | succ j ih =>
      have hsucc := framesFor_take_succ (l := l) (j := j) (by omega)
      rcases Nat.eq_or_lt_of_le (Nat.le_of_lt_succ hij) with rfl | hij
      · omega
      · have := ih hij (by omega)
        omega

end Frames

/-- A page that has been loaded: the number of its program header, its address, its frame. -/
structure Placed where
  index : Nat
  va : Nat
  frame : Nat

/-- Two addresses that the tables take to the same entry of a page table. -/
def samePage (p va : Nat) : Prop := UserVa va ∧ pdIdx va = pdIdx p ∧ ptIdx va = ptIdx p

instance (p va : Nat) : Decidable (samePage p va) := inferInstanceAs (Decidable (_ ∧ _))

/-- The latest page loaded for an address. -/
def lookup (done : List Placed) (va : Nat) : Option Placed := done.find? fun x => samePage x.va va

/-- The state of the loader after it has loaded some pages, the latest first, into the address
space `dir` of the state `m₀`. -/
structure Placing (f : ElfFile) (m₀ : Mem) (dir : Nat) (done : List Placed) (m : Mem)
    (tab : Tabs) : Prop where
  tree : Tree m.vm tab
  root : tab dir = some (dir, .pml4)
  only : ∀ ⦃q r l⦄, tab q = some (r, l) → r = dir
  plain : ∀ x ∈ done, PlainVa x.va
  nodup : (done.map Placed.frame).Nodup
  frames : ∀ x ∈ done, x.frame ∈ freeFrames m₀.vm ∧ m.vm.used x.frame = true ∧
    tab x.frame = none
  taken : ∀ q, m₀.vm.used q = false → m.vm.used q = true →
    (∃ x ∈ done, x.frame = q) ∨ ∃ l, tab q = some (dir, l)
  free : freeFrames m.vm ⊆ freeFrames m₀.vm
  tables : ∀ k, (∃ pt, tab pt = some (dir, .pt k)) ↔ ∃ x ∈ done, pdIdx x.va = k
  count : (freeFrames m.vm).card + framesFor (done.map Placed.va) = (freeFrames m₀.vm).card
  phys : ∀ va, getPhys m.vm dir va =
    ((lookup done va).map Placed.frame).getD (getPhys m₀.vm dir va)
  bytes : ∀ x ∈ done, ∀ k < 4096,
    m.ram (x.frame * 4096 + k) = pageByte f (f.phdr x.index) x.va k

section Place
variable {f : ElfFile} {m₀ m : Mem} {dir : Nat} {done : List Placed} {tab tab' : Tabs}

/-- A page is loaded into the free frame `g` and mapped, with a new page table or without. -/
theorem Placing.place (h : Placing f m₀ dir done m tab) {x : Placed} {w : Mem}
    (hplain : PlainVa x.va) (hg : x.frame ∈ freeFrames m.vm) (htree : Tree w.vm tab')
    (hkeep : ∀ q y, tab q = some y → tab' q = some y)
    (hnew : ∀ q y, tab' q = some y →
      tab q = some y ∨ q ≠ x.frame ∧ q ∈ freeFrames m.vm ∧ y = (dir, .pt (pdIdx x.va)))
    (htable : ∃ pt, tab' pt = some (dir, .pt (pdIdx x.va)))
    (hused : ∀ q, w.vm.used q = true ↔
      m.vm.used q = true ∨ q = x.frame ∨ (tab q = none ∧ ∃ l, tab' q = some (dir, l)))
    (hcount : (freeFrames w.vm).card + 1 +
      (if pdIdx x.va ∈ (done.map Placed.va).map pdIdx then 0 else 1) = (freeFrames m.vm).card)
    (hphys : ∀ va, getPhys w.vm dir va =
      if samePage x.va va then x.frame else getPhys m.vm dir va)
    (hbytes : ∀ q k, k < 4096 → w.ram (q * 4096 + k) =
      if q = x.frame then pageByte f (f.phdr x.index) x.va k else m.ram (q * 4096 + k)) :
    Placing f m₀ dir (x :: done) w tab' := by
  have hgfree := (mem_freeFrames.mp hg).2
  have hgnone : tab x.frame = none := h.tree.none_of_free hg
  -- an older frame is in use
  have hold : ∀ y ∈ done, y.frame ≠ x.frame := by
    intro y hy heq
    have hy' := (h.frames y hy).2.1
    rw [heq, hgfree] at hy'
    cases hy'
  have hnone : ∀ q, m.vm.used q = true ∨ q = x.frame → tab q = none → tab' q = none := by
    intro q hq hqn
    cases htab : tab' q with
    | none => rfl
    | some y =>
        rcases hnew q y htab with hy | ⟨hne, hqf, -⟩
        · rw [hqn] at hy
          cases hy
        · rcases hq with hq | hq
          · rw [(mem_freeFrames.mp hqf).2] at hq
            cases hq
          · exact absurd hq hne
  constructor
  case tree => exact htree
  case root => exact hkeep dir _ h.root
  case only =>
    intro q r l hq
    rcases hnew q _ hq with hq | ⟨-, -, heq⟩
    · exact h.only hq
    · exact (Prod.mk.inj heq).1
  case plain =>
    rintro y (_ | ⟨_, hy⟩)
    · exact hplain
    · exact h.plain y hy
  case nodup =>
    rw [List.map_cons, List.nodup_cons]
    refine ⟨fun hmem => ?_, h.nodup⟩
    obtain ⟨y, hy, heq⟩ := List.mem_map.mp hmem
    exact hold y hy heq
  case frames =>
    rintro y (_ | ⟨_, hy⟩)
    · exact ⟨h.free hg, (hused _).mpr (Or.inr (Or.inl rfl)), hnone _ (Or.inr rfl) hgnone⟩
    · obtain ⟨hfree, hu, htab⟩ := h.frames y hy
      exact ⟨hfree, (hused _).mpr (Or.inl hu), hnone _ (Or.inl hu) htab⟩
  case taken =>
    intro q hq₀ hq
    rcases (hused q).mp hq with hq | rfl | ⟨-, hl⟩
    · rcases h.taken q hq₀ hq with ⟨y, hy, heq⟩ | ⟨l, hl⟩
      · exact Or.inl ⟨y, List.mem_cons_of_mem x hy, heq⟩
      · exact Or.inr ⟨l, hkeep q _ hl⟩
    · exact Or.inl ⟨x, List.mem_cons_self, rfl⟩
    · exact Or.inr hl
  case free =>
    intro q hq
    obtain ⟨hrange, hqfree⟩ := mem_freeFrames.mp hq
    refine h.free (mem_freeFrames.mpr ⟨hrange, ?_⟩)
    by_contra hc
    rw [(hused q).mpr (Or.inl (Bool.eq_true_of_not_eq_false hc))] at hqfree
    cases hqfree
  case tables =>
    intro k
    constructor
    · rintro ⟨pt, hpt⟩
      rcases hnew pt _ hpt with hpt | ⟨-, -, heq⟩
      · obtain ⟨y, hy, hk⟩ := (h.tables k).mp ⟨pt, hpt⟩
        exact ⟨y, List.mem_cons_of_mem x hy, hk⟩
      · cases heq
        exact ⟨x, List.mem_cons_self, rfl⟩
    · rintro ⟨y, _ | ⟨_, hy⟩, rfl⟩
      · exact htable
      · obtain ⟨pt, hpt⟩ := (h.tables _).mpr ⟨y, hy, rfl⟩
        exact ⟨pt, hkeep pt _ hpt⟩
  case count =>
    have hc := h.count
    rw [List.map_cons, framesFor_cons]
    omega
  case phys =>
    intro va
    rw [hphys, lookup, List.find?_cons]
    by_cases hsame : samePage x.va va
    · simp [hsame]
    · simp only [hsame, if_false, decide_false]
      exact h.phys va
  case bytes =>
    rintro y (_ | ⟨_, hy⟩) k hk
    · rw [hbytes _ _ hk, if_pos rfl]
    · rw [hbytes _ _ hk, if_neg (hold y hy)]
      exact h.bytes y hy k hk

theorem freeFrames_congr {v v' : Vm} (h : v'.used = v.used) : freeFrames v' = freeFrames v := by
  unfold freeFrames
  rw [h]

/-- The last frame has gone into a page for which there is no page table. -/
structure Starved (done : List Placed) (m : Mem) (va : Nat) (w : Mem) (g : Nat) : Prop where
  last : (freeFrames m.vm).card = 1
  opens : pdIdx va ∉ (done.map Placed.va).map pdIdx
  frame : g ∈ freeFrames m.vm
  vm : w.vm = takeZeroed m.vm g
  ram : ∀ q k, k < 4096 → q ≠ g → w.ram (q * 4096 + k) = m.ram (q * 4096 + k)

/-- One page more, or none because its page table has no frame. -/
theorem Placing.step (h : Placing f m₀ dir done m tab) {i va g : Nat} (hva : PlainVa va)
    (hb : (f.phdr i).Bounded) (hpage : va ∈ (f.phdr i).pages) (hg : g ∈ freeFrames m.vm) {w : Mem}
    (hw : loadPage (memOps dir) f (f.phdr i)
      { m with vm := { m.vm with used := Function.update m.vm.used g true } } va g = w) :
    (∃ tab', Placing f m₀ dir (⟨i, va, g⟩ :: done) w tab') ∨ Starved done m va w g := by
  have hvm : mapPage (takeZeroed m.vm g) dir va (PTE.userRW g) = w.vm := by
    rw [← hw, loadPage_vm]
    rfl
  have hram : ∀ q k, k < 4096 → w.ram (q * 4096 + k) =
      if q = g then pageByte f (f.phdr i) va k else m.ram (q * 4096 + k) := by
    intro q k hk
    rw [← hw, loadPage_ram hb hpage _ q hk]
  have htz := h.tree.takeZeroed hg
  have hgnone : tab g = none := h.tree.none_of_free hg
  have hfreeg := freeFrames_takeZeroed (v := m.vm) g
  have hcardg : ((freeFrames m.vm).erase g).card + 1 = (freeFrames m.vm).card :=
    Finset.card_erase_add_one hg
  have husedg : ∀ q, (takeZeroed m.vm g).used q = true ↔ m.vm.used q = true ∨ q = g := by
    intro q
    by_cases hq : q = g
    · simp [takeZeroed, zeroFrame, hq]
    · simp [takeZeroed, zeroFrame, hq]
  have htable : (∃ pt, tab pt = some (dir, .pt (pdIdx va))) ↔
      pdIdx va ∈ (done.map Placed.va).map pdIdx := by
    rw [h.tables, List.map_map, List.mem_map]
    rfl
  rcases htz.mapPage_ways h.root hva.user hva.plain hvm with
    ⟨hpt, htree, hused, hphys⟩ | ⟨hnopt, ⟨hempty, hsame⟩ | ⟨p, hp, htree, hused, hphys⟩⟩
  · -- the page table is there
    refine Or.inl ⟨tab, h.place hva hg htree (fun q y => id) (fun q y => Or.inl) hpt ?_ ?_ ?_ hram⟩
    · intro q
      rw [hused, husedg]
      constructor
      · exact fun hq => hq.imp id Or.inl
      · rintro (hq | hq | ⟨hq, l, hl⟩)
        · exact Or.inl hq
        · exact Or.inr hq
        · rw [hq] at hl
          cases hl
    · rw [if_pos (htable.mp hpt), freeFrames_congr hused, hfreeg]
      exact hcardg
    · intro va'
      rw [hphys, h.tree.getPhys_takeZeroed hg h.root]
      rfl
  · refine Or.inr ⟨?_, mt htable.mpr hnopt, hg, hsame, fun q k hk hq => ?_⟩
    · rw [hfreeg] at hempty
      rw [hempty, Finset.card_empty] at hcardg
      exact hcardg.symm
    · rw [hram q k hk, if_neg hq]
  · -- a new page table takes the frame `p`
    rw [hfreeg, Finset.mem_erase] at hp
    obtain ⟨hpg, hp⟩ := hp
    have hpnone : tab p = none := h.tree.none_of_free hp
    have hself : Function.update tab p (some (dir, Level.pt (pdIdx va))) p
        = some (dir, .pt (pdIdx va)) := Function.update_self ..
    refine Or.inl ⟨_, h.place hva hg htree ?_ ?_ ⟨p, hself⟩ ?_ ?_ ?_ hram⟩
    · intro q y hq
      have hqp : q ≠ p := by
        rintro rfl
        rw [hpnone] at hq
        cases hq
      rw [Function.update_of_ne hqp, hq]
    · intro q y hq
      by_cases hqp : q = p
      · subst hqp
        rw [hself] at hq
        exact Or.inr ⟨hpg, hp, (Option.some.inj hq).symm⟩
      · rw [Function.update_of_ne hqp] at hq
        exact Or.inl hq
    · intro q
      rw [hused]
      by_cases hqp : q = p
      · subst hqp
        simp [hpnone]
      · rw [Function.update_of_ne hqp, Function.update_of_ne hqp, husedg]
        constructor
        · exact fun hq => hq.imp id Or.inl
        · rintro (hq | hq | ⟨hq, l, hl⟩)
          · exact Or.inl hq
          · exact Or.inr hq
          · rw [hq] at hl
            cases hl
    · have hfreep : freeFrames w.vm = ((freeFrames m.vm).erase g).erase p := by
        rw [← hfreeg, ← freeFrames_take]
        exact freeFrames_congr hused
      have hcardp : (((freeFrames m.vm).erase g).erase p).card + 1 =
          ((freeFrames m.vm).erase g).card :=
        Finset.card_erase_add_one (Finset.mem_erase.mpr ⟨hpg, hp⟩)
      rw [if_neg (mt htable.mpr hnopt), hfreep]
      omega
    · intro va'
      rw [hphys, h.tree.getPhys_takeZeroed hg h.root]
      rfl

/-- How a list of pages is loaded: all of them; up to one for which there is no frame; or up to
one that takes the last frame and is not mapped. -/
inductive Ending (f : ElfFile) (m₀ : Mem) (dir : Nat) (done : List Placed) (l : List (Nat × Nat))
    (out : Mem × Bool) : Prop
  | all {placed : List Placed} {tab : Tabs} (hok : out.2 = true)
      (hlist : placed.map (fun x => (x.index, x.va)) =
        l.reverse ++ done.map fun x => (x.index, x.va))
      (h : Placing f m₀ dir placed out.1 tab)
  | short {placed : List Placed} {tab : Tabs} {before after : List (Nat × Nat)} {x : Nat × Nat}
      (hok : out.2 = false) (hl : l = before ++ x :: after)
      (hlist : placed.map (fun x => (x.index, x.va)) =
        before.reverse ++ done.map fun x => (x.index, x.va))
      (h : Placing f m₀ dir placed out.1 tab) (hempty : freeFrames out.1.vm = ∅)
  | starved {placed : List Placed} {tab : Tabs} {before after : List (Nat × Nat)}
      {x : Nat × Nat} {m : Mem} {g : Nat} (hok : out.2 = decide (after = []))
      (hl : l = before ++ x :: after)
      (hlist : placed.map (fun x => (x.index, x.va)) =
        before.reverse ++ done.map fun x => (x.index, x.va))
      (h : Placing f m₀ dir placed m tab) (hstarved : Starved placed m x.2 out.1 g)

theorem Starved.free_empty {va g : Nat} {w : Mem} (h : Starved done m va w g) :
    freeFrames w.vm = ∅ := by
  have hcard := Finset.card_erase_add_one h.frame
  rw [h.last] at hcard
  rw [h.vm, freeFrames_takeZeroed]
  exact Finset.card_eq_zero.mp (by omega)

/-- Without frames nothing is loaded. -/
theorem loadVisits_empty {l : List (Nat × Nat)} (hempty : freeFrames m.vm = ∅) :
    loadVisits (memOps dir) f l m = (m, decide (l = [])) := by
  cases l with
  | nil => rfl
  | cons x l =>
      obtain ⟨i, va⟩ := x
      rcases allocFrame_eq m.vm with ⟨heq, -⟩ | ⟨g, hg, -⟩
      · rw [loadVisits_cons, heq, if_pos rfl]
        rfl
      · rw [hempty] at hg
        cases hg

theorem loadVisits_ending (h : Placing f m₀ dir done m tab) {l : List (Nat × Nat)}
    (hl : ∀ x ∈ l, PlainVa x.2 ∧ (f.phdr x.1).Bounded ∧ x.2 ∈ (f.phdr x.1).pages) :
    Ending f m₀ dir done l (loadVisits (memOps dir) f l m) := by
  induction l generalizing done m tab with
  | nil => exact .all rfl rfl h
  | cons x l ih =>
      obtain ⟨i, va⟩ := x
      obtain ⟨hva, hb, hpage⟩ := hl (i, va) List.mem_cons_self
      have hrest := fun x hx => hl x (List.mem_cons_of_mem (i, va) hx)
      rw [loadVisits_cons]
      rcases allocFrame_eq m.vm with ⟨heq, hempty⟩ | ⟨g, hg, heq⟩
      · rw [heq, if_pos rfl]
        exact .short rfl (List.nil_append _).symm rfl h hempty
      rw [heq, if_neg (free_ne_zero hg)]
      generalize hw : loadPage (memOps dir) f (f.phdr i) _ va g = w
      have hcons {l : List (Nat × Nat)} {placed : List Placed}
          (hlist : placed.map (fun x => (x.index, x.va)) =
            l.reverse ++ (Placed.mk i va g :: done).map fun x => (x.index, x.va)) :
          placed.map (fun x => (x.index, x.va)) =
            ((i, va) :: l).reverse ++ done.map fun x => (x.index, x.va) := by
        rw [hlist]
        simp
      rcases h.step hva hb hpage hg hw with ⟨tab', hstep⟩ | hstarved
      · rcases ih hstep hrest with ⟨hok, hlist, h'⟩ | ⟨hok, rfl, hlist, h', hempty⟩ |
          ⟨hok, rfl, hlist, h', hstarved⟩
        · exact .all hok (hcons hlist) h'
        · exact .short hok rfl (hcons hlist) h' hempty
        · exact .starved hok rfl (hcons hlist) h' hstarved
      · rw [loadVisits_empty hstarved.free_empty]
        exact .starved rfl (List.nil_append _).symm rfl h hstarved

/-- The boot directories above 1 GB are filled with 2 MB pages. -/
def BootDirs (v : Vm) : Prop :=
  ∀ f i, IsBootPd f → i < 512 → v.mem f i = PTE.kernelLarge ((f - 3) * 262144 + i * 512)

/-- A new address space: nothing is loaded, and it has no frame of the bitmap. -/
structure NewSpace (f : ElfFile) (m : Mem) (dir : Nat) : Prop where
  placing : ∃ tab, Placing f m dir [] m tab
  none : ∀ va, UserVa va → pdIdx va ∉ kernelPages → getPhys m.vm dir va = 0
  outOfRange : ∀ va, OutOfRange (getPhys m.vm dir va)

theorem newSpace_of_create {v : Vm} (hv : BootDirs v) (hm : createPageDir v = (m.vm, dir))
    (hdir : dir ≠ 0) : NewSpace f m dir := by
  have h₀ : Tree v fun _ => none := by
    constructor <;> first | exact fun f i hf hi => hv f i hf hi | simp
  rcases createPageDir_cases v with ⟨hz, -⟩ | ⟨a, b, c, ha, hb, hc, hab, hac, hbc, hr, heq⟩
  · rw [hm] at hz
    exact absurd hz hdir
  rw [hm] at hr heq
  obtain rfl : dir = a := hr
  have htree := h₀.newSpace ha hb hc hab hac hbc
  have hself : Tree.addRoot (fun _ => none) dir b c dir = some (dir, .pml4) := by simp [Tree.addRoot]
  have hback {q r : Nat} {l : Level} (hq : Tree.addRoot (fun _ => none) dir b c q = some (r, l)) :
      r = dir := by
    by_contra hr
    cases (Tree.addRoot_back hq hr).2
  have hvm : m.vm = fillPageDir (takeZeroed (takeZeroed (takeZeroed v dir) b) c) dir b c := heq
  refine ⟨⟨Tree.addRoot (fun _ => none) dir b c, ?_⟩, ?_, ?_⟩
  · constructor
    case tree => rwa [hvm]
    case root => exact hself
    case only => exact fun q r l => hback
    case taken =>
      intro q hq hq'
      rw [hq] at hq'
      cases hq'
    case free => exact Finset.Subset.refl _
    case tables =>
      refine fun k => iff_of_false ?_ (by simp)
      rintro ⟨pt, hpt⟩
      cases Tree.addRoot_pt hpt
    case phys => exact fun va => rfl
    all_goals simp [framesFor]
  · intro va hva hplain
    rw [hvm]
    exact h₀.getPhys_newSpace ha hb hc hab hac hbc hva hplain
  · intro va
    rw [hvm]
    exact h₀.getPhys_newSpace_outOfRange ha hb hc hab hac hbc va

end Place

end OriaOS.Elf
