import Mathlib.Data.List.Basic
import Mathlib.Tactic.Ring

/-!
# The ELF loader

`elf_load` over any page operations. A file is what lies behind `data`, also beyond its end:
the loader computes with offsets of 64 bits, so an index may wrap. The indices it reads are
kept in order.

The page loop is a `while` of the source and runs on fuel. It never needs more turns than
the pages between `virt_page` and `virt_end`, which `loadPages` goes through as a list.
-/

namespace OriaOS.Elf

variable {a fuel n va : Nat}

/-- Sum of `uint64_t`. -/
def add64 (a b : Nat) : Nat := (a + b) % 2 ^ 64

theorem add64_lt (a b : Nat) : add64 a b < 2 ^ 64 := Nat.mod_lt _ (by decide)

theorem add64_of_lt {b : Nat} (h : a + b < 2 ^ 64) : add64 a b = a + b := Nat.mod_eq_of_lt h

theorem add64_zero (h : a < 2 ^ 64) : add64 a 0 = a := add64_of_lt h

/-- `addr & ~(uint64_t)(PAGE_SIZE - 1)` for the page size 4096. -/
def pageDown (a : Nat) : Nat := a / 4096 * 4096

theorem pageDown_le (a : Nat) : pageDown a ≤ a := Nat.div_mul_le_self a 4096

theorem lt_pageDown_add (a : Nat) : a < pageDown a + 4096 := by
  have h := Nat.lt_div_mul_add (a := a) (b := 4096) (by decide)
  exact h

/-- The indices of `n` bytes behind `data + off`. -/
def span (off n : Nat) : List Nat := (List.range n).map (add64 off)

theorem mem_span {off : Nat} : a ∈ span off n ↔ ∃ k < n, add64 off k = a := by
  rw [span, List.mem_map]
  simp only [List.mem_range]

@[simp]
theorem length_span (off n : Nat) : (span off n).length = n := by simp [span]

/-! ## The file -/

/-- The arguments `data` and `size`. -/
structure ElfFile where
  data : Nat → UInt8
  size : UInt32

/-- The fields of `Elf64_Phdr` that the loader uses. -/
structure Phdr where
  type : Nat
  offset : Nat
  vaddr : Nat
  filesz : Nat
  memsz : Nat
deriving DecidableEq

namespace ElfFile

/-- The number in `n` bytes at `off`, the lowest byte first. -/
def field (f : ElfFile) (off n : Nat) : Nat :=
  (span off n).foldr (fun a acc => (f.data a).toNat + 256 * acc) 0

def eEntry (f : ElfFile) : Nat := f.field 24 8
def ePhoff (f : ElfFile) : Nat := f.field 32 8
def ePhentsize (f : ElfFile) : Nat := f.field 54 2
def ePhnum (f : ElfFile) : Nat := f.field 56 2

/-- `ph_off` of turn `i`. -/
def phOff (f : ElfFile) (i : Nat) : Nat := add64 f.ePhoff (i * f.ePhentsize)

/-- `*phdr` of turn `i`. -/
def phdr (f : ElfFile) (i : Nat) : Phdr where
  type := f.field (f.phOff i) 4
  offset := f.field (add64 (f.phOff i) 8) 8
  vaddr := f.field (add64 (f.phOff i) 16) 8
  filesz := f.field (add64 (f.phOff i) 32) 8
  memsz := f.field (add64 (f.phOff i) 40) 8

theorem field_lt (f : ElfFile) (off n : Nat) : f.field off n < 256 ^ n := by
  have h : ∀ l : List Nat,
      l.foldr (fun a acc => (f.data a).toNat + 256 * acc) 0 < 256 ^ l.length := by
    intro l
    induction l with
    | nil => simp
    | cons a l ih =>
        have hb := (f.data a).toNat_lt
        rw [List.foldr_cons, List.length_cons, Nat.pow_succ]
        omega
  simpa [field] using h (span off n)

theorem phOff_lt (f : ElfFile) (i : Nat) : f.phOff i < 2 ^ 64 := add64_lt _ _

/-- The checks of the file header in their order: where a field lies, how long it is, and
what has to stand in it. -/
def headerTests : List (Nat × Nat × Nat) :=
  [(0, 1, 0x7F), (1, 1, 0x45), (2, 1, 0x4C), (3, 1, 0x46), (4, 1, 2), (16, 2, 2), (18, 2, 0x3E)]

/-- Whether the checks pass, and what they read up to the first that fails. -/
def runTests (f : ElfFile) : List (Nat × Nat × Nat) → Bool × List Nat
  | [] => (true, [])
  | (off, n, v) :: rest =>
      if f.field off n = v then ((f.runTests rest).1, span off n ++ (f.runTests rest).2)
      else (false, span off n)

/-- The bounds check of the program header `i` against the file. -/
def HeaderOutside (f : ElfFile) (i : Nat) : Prop :=
  f.size.toNat < add64 (f.phOff i) f.ePhentsize

instance (f : ElfFile) (i : Nat) : Decidable (f.HeaderOutside i) := Nat.decLt _ _

/-- The bounds check of a segment with bytes in the file. -/
def SegmentOutside (f : ElfFile) (ph : Phdr) : Prop :=
  0 < ph.filesz ∧ (f.size.toNat ≤ ph.offset ∨ f.size.toNat < add64 ph.offset ph.filesz)

instance (f : ElfFile) (ph : Phdr) : Decidable (f.SegmentOutside ph) := by
  unfold SegmentOutside; infer_instance

/-- What the head of turn `i` reads of the file header. -/
def turnReads : List Nat := span 56 2 ++ span 32 8 ++ span 54 2

/-- What the bounds check of a segment reads of its header. -/
def checkReads (f : ElfFile) (i : Nat) : List Nat :=
  span (add64 (f.phOff i) 32) 8 ++
    if (f.phdr i).filesz = 0 then [] else span (add64 (f.phOff i) 8) 8

/-- What the set-up of the page loop reads besides. -/
def rangeReads (f : ElfFile) (i : Nat) : List Nat :=
  span (add64 (f.phOff i) 16) 8 ++ span (add64 (f.phOff i) 40) 8

end ElfFile

namespace Phdr

def virtPage (ph : Phdr) : Nat := pageDown ph.vaddr

def virtEnd (ph : Phdr) : Nat := pageDown (add64 (ph.vaddr + ph.memsz) 4095)

def segFileEnd (ph : Phdr) : Nat := add64 ph.vaddr ph.filesz

/-- `copy_start` of a page. -/
def copyStart (ph : Phdr) (va : Nat) : Nat := if ph.vaddr < va then va else ph.vaddr

/-- `copy_end` of a page. -/
def copyEnd (ph : Phdr) (va : Nat) : Nat :=
  if ph.segFileEnd < add64 va 4096 then ph.segFileEnd else add64 va 4096

/-- The indices of the bytes that are copied to a page. -/
def copyReads (ph : Phdr) (va : Nat) : List Nat :=
  span (add64 ph.offset (ph.copyStart va - ph.vaddr)) (ph.copyEnd va - ph.copyStart va)

theorem virtEnd_add_le (ph : Phdr) : ph.virtEnd + 4096 ≤ 2 ^ 64 := by
  have h := add64_lt (ph.vaddr + ph.memsz) 4095
  unfold virtEnd pageDown
  omega

/-- The pages from `va` on, `n` of them. -/
def pagesFrom (va : Nat) : Nat → List Nat
  | 0 => []
  | n + 1 => va :: pagesFrom (va + 4096) n

/-- How many turns the page loop has. -/
def pageCount (ph : Phdr) : Nat := (ph.virtEnd - ph.virtPage) / 4096

/-- The pages of a segment. -/
def pages (ph : Phdr) : List Nat := pagesFrom ph.virtPage ph.pageCount

theorem mem_pagesFrom : a ∈ pagesFrom va n ↔ ∃ k < n, a = va + k * 4096 := by
  induction n generalizing va with
  | zero => simp [pagesFrom]
  | succ n ih =>
      rw [pagesFrom, List.mem_cons, ih]
      constructor
      · rintro (rfl | ⟨k, hk, rfl⟩)
        · exact ⟨0, by omega, by omega⟩
        · exact ⟨k + 1, by omega, by omega⟩
      · rintro ⟨k, hk, rfl⟩
        cases k with
        | zero => exact Or.inl (by omega)
        | succ k => exact Or.inr ⟨k, by omega, by omega⟩

theorem pageCount_mul (ph : Phdr) : ph.pageCount * 4096 = ph.virtEnd - ph.virtPage := by
  unfold pageCount virtEnd virtPage pageDown
  omega

theorem pageCount_lt (ph : Phdr) : ph.pageCount < 2 ^ 52 := by
  have h := ph.virtEnd_add_le
  have hc := ph.pageCount_mul
  omega

/-- The pages of a segment are those from `virt_page` up to `virt_end`. -/
theorem mem_pages {ph : Phdr} : a ∈ ph.pages ↔ ph.virtPage ≤ a ∧ a < ph.virtEnd ∧ 4096 ∣ a := by
  rw [pages, mem_pagesFrom]
  have hc := ph.pageCount_mul
  constructor
  · rintro ⟨k, hk, rfl⟩
    refine ⟨by omega, by omega, ?_⟩
    exact Nat.dvd_add (Nat.dvd_mul_left _ _) (Nat.dvd_mul_left _ _)
  · rintro ⟨hlo, hhi, hdvd⟩
    have hv : 4096 ∣ ph.virtPage := Nat.dvd_mul_left _ _
    exact ⟨(a - ph.virtPage) / 4096, by omega, by omega⟩

end Phdr

/-! ## The loader -/

/-- What the loader asks of `pmm.c` and `vmm.c`, over any memory `σ`: `pmm_alloc_frame`,
`vmm_zero_frame`, `vmm_copy_to_frame`, and `vmm_map_page` into the new address space. -/
structure PageOps (σ : Type) where
  allocFrame : σ → σ × Nat
  zeroFrame : σ → Nat → σ
  copyToFrame : σ → Nat → Nat → List UInt8 → σ
  mapPage : σ → Nat → Nat → σ

/-- How a part of the loader ends: whether the loader goes on, and what has been read. -/
structure Pass (σ : Type) where
  state : σ
  ok : Bool
  reads : List Nat

/-- How the loader ends. -/
structure Outcome (σ : Type) where
  state : σ
  ret : Nat
  reads : List Nat

def Outcome.after {σ : Type} (l : List Nat) (o : Outcome σ) : Outcome σ :=
  { o with reads := l ++ o.reads }

section Load
variable {σ : Type} (ops : PageOps σ) (f : ElfFile)

/-- The rest of a turn of the page loop, on the frame `phys`. -/
def loadPage (ph : Phdr) (s : σ) (va phys : Nat) : σ :=
  let s := ops.zeroFrame s phys
  let s :=
    if ph.copyStart va < ph.copyEnd va then
      ops.copyToFrame s phys (ph.copyStart va - va) ((ph.copyReads va).map f.data)
    else s
  ops.mapPage s va phys

/-- The page loop, at most `fuel` turns of it. -/
def pageLoop (ph : Phdr) : Nat → σ → Nat → Option (Pass σ)
  | 0, _, _ => none
  | fuel + 1, s, va =>
      if va < ph.virtEnd then
        let (s, phys) := ops.allocFrame s
        if phys = 0 then some ⟨s, false, []⟩
        else
          (pageLoop ph fuel (loadPage ops f ph s va phys) (add64 va 4096)).map fun p =>
            { p with reads := ph.copyReads va ++ p.reads }
      else some ⟨s, true, []⟩

/-- The loop over the program headers, `n` of them from `i` on. -/
def phLoop (fuel : Nat) : Nat → Nat → σ → Option (Outcome σ)
  | 0, _, s => some ⟨s, f.eEntry, span 56 2 ++ span 24 8⟩
  | n + 1, i, s =>
      let ph := f.phdr i
      if f.HeaderOutside i then some ⟨s, 0, ElfFile.turnReads⟩
      else if ph.type ≠ 1 then
        (phLoop fuel n (i + 1) s).map (Outcome.after (ElfFile.turnReads ++ span (f.phOff i) 4))
      else
        let reads := ElfFile.turnReads ++ span (f.phOff i) 4 ++ f.checkReads i
        if f.SegmentOutside ph then some ⟨s, 0, reads⟩
        else
          match pageLoop ops f ph fuel s ph.virtPage with
          | none => none
          | some p =>
              let reads := reads ++ f.rangeReads i ++ p.reads
              if p.ok then (phLoop fuel n (i + 1) p.state).map (Outcome.after reads)
              else some ⟨p.state, 0, reads⟩

/-- `elf_load`. -/
def elfLoad (fuel : Nat) (s : σ) : Option (Outcome σ) :=
  if f.size.toNat < 64 then some ⟨s, 0, []⟩
  else
    let tests := f.runTests ElfFile.headerTests
    if tests.1 = false then some ⟨s, 0, tests.2⟩
    else if f.ePhnum = 0 then some ⟨s, 0, tests.2 ++ span 56 2⟩
    else (phLoop ops f fuel f.ePhnum 0 s).map (Outcome.after (tests.2 ++ span 56 2))

/-! ## Without fuel -/

/-- The page loop over a list of pages. -/
def loadPages (ph : Phdr) : List Nat → σ → Pass σ
  | [], s => ⟨s, true, []⟩
  | va :: rest, s =>
      let (s, phys) := ops.allocFrame s
      if phys = 0 then ⟨s, false, []⟩
      else
        let p := loadPages ph rest (loadPage ops f ph s va phys)
        { p with reads := ph.copyReads va ++ p.reads }

/-- The loop over the program headers where every page loop has the fuel it needs. -/
def runHeaders : Nat → Nat → σ → Outcome σ
  | 0, _, s => ⟨s, f.eEntry, span 56 2 ++ span 24 8⟩
  | n + 1, i, s =>
      let ph := f.phdr i
      if f.HeaderOutside i then ⟨s, 0, ElfFile.turnReads⟩
      else if ph.type ≠ 1 then
        (runHeaders n (i + 1) s).after (ElfFile.turnReads ++ span (f.phOff i) 4)
      else
        let reads := ElfFile.turnReads ++ span (f.phOff i) 4 ++ f.checkReads i
        if f.SegmentOutside ph then ⟨s, 0, reads⟩
        else
          let p := loadPages ops f ph ph.pages s
          let reads := reads ++ f.rangeReads i ++ p.reads
          if p.ok then (runHeaders n (i + 1) p.state).after reads
          else ⟨p.state, 0, reads⟩

/-- The outcome of `elf_load`. -/
def runElf (s : σ) : Outcome σ :=
  if f.size.toNat < 64 then ⟨s, 0, []⟩
  else
    let tests := f.runTests ElfFile.headerTests
    if tests.1 = false then ⟨s, 0, tests.2⟩
    else if f.ePhnum = 0 then ⟨s, 0, tests.2 ++ span 56 2⟩
    else (runHeaders ops f f.ePhnum 0 s).after (tests.2 ++ span 56 2)

end Load

section Fuel
variable {σ : Type} {ops : PageOps σ} {f : ElfFile} {ph : Phdr}

/-- With a turn of fuel left the page loop ends as the list of its pages says: `virt_page`
does not wrap below `virt_end`. -/
theorem pageLoop_eq {s : σ} (hend : va + n * 4096 = ph.virtEnd) (hfuel : n < fuel) :
    pageLoop ops f ph fuel s va = some (loadPages ops f ph (Phdr.pagesFrom va n) s) := by
  induction n generalizing fuel va s with
  | zero =>
      obtain ⟨fuel, rfl⟩ : ∃ m, fuel = m + 1 := ⟨fuel - 1, by omega⟩
      rw [pageLoop, if_neg (by omega)]
      rfl
  | succ n ih =>
      obtain ⟨fuel, rfl⟩ : ∃ m, fuel = m + 1 := ⟨fuel - 1, by omega⟩
      have hmax := ph.virtEnd_add_le
      have hnext : add64 va 4096 = va + 4096 := add64_of_lt (by omega)
      rw [pageLoop, if_pos (by omega), Phdr.pagesFrom, loadPages]
      dsimp only
      by_cases hphys : (ops.allocFrame s).2 = 0
      · rw [if_pos hphys, if_pos hphys]
      · rw [if_neg hphys, if_neg hphys, hnext, ih (by omega) (by omega), Option.map_some]

/-- A page loop that has started behind its end makes no turn. -/
theorem pageLoop_pages {s : σ} (hfuel : ph.pageCount < fuel) :
    pageLoop ops f ph fuel s ph.virtPage = some (loadPages ops f ph ph.pages s) := by
  have hc := ph.pageCount_mul
  by_cases hle : ph.virtPage ≤ ph.virtEnd
  · exact pageLoop_eq (by omega) hfuel
  · obtain ⟨fuel, rfl⟩ : ∃ m, fuel = m + 1 := ⟨fuel - 1, by omega⟩
    have hzero : ph.pageCount = 0 := by omega
    rw [pageLoop, if_neg (by omega), Phdr.pages, hzero]
    rfl

/-- A page loop that has ended does not end otherwise with more fuel. -/
theorem pageLoop_mono {more : Nat} {s : σ} {p : Pass σ} (h : pageLoop ops f ph fuel s va = some p) :
    pageLoop ops f ph (fuel + more) s va = some p := by
  induction fuel generalizing va s p with
  | zero => cases h
  | succ fuel ih =>
      rw [show fuel + 1 + more = fuel + more + 1 by omega, pageLoop]
      rw [pageLoop] at h
      split
      · next hva =>
        rw [if_pos hva] at h
        dsimp only at h ⊢
        split
        · next hphys => rwa [if_pos hphys] at h
        · next hphys =>
          rw [if_neg hphys] at h
          obtain ⟨q, hq, hp⟩ := Option.map_eq_some_iff.mp h
          rw [ih hq, Option.map_some, hp]
      · next hva => rwa [if_neg hva] at h

theorem pageLoop_some {s : σ} {p : Pass σ} (h : pageLoop ops f ph fuel s ph.virtPage = some p) :
    p = loadPages ops f ph ph.pages s := by
  have hmono : pageLoop ops f ph (fuel + (ph.pageCount + 1)) s ph.virtPage = some p :=
    pageLoop_mono h
  rw [pageLoop_pages (by omega)] at hmono
  exact (Option.some.inj hmono).symm

theorem phLoop_eq {i : Nat} {s : σ} (hfuel : 2 ^ 52 ≤ fuel) :
    phLoop ops f fuel n i s = some (runHeaders ops f n i s) := by
  induction n generalizing i s with
  | zero => rfl
  | succ n ih =>
      have hc := (f.phdr i).pageCount_lt
      rw [phLoop, runHeaders, pageLoop_pages (by omega), ih]
      dsimp only
      rw [ih]
      split_ifs <;> rfl

theorem phLoop_some {i : Nat} {s : σ} {r : Outcome σ} (h : phLoop ops f fuel n i s = some r) :
    r = runHeaders ops f n i s := by
  induction n generalizing i s r with
  | zero => exact (Option.some.inj h).symm
  | succ n ih =>
      rw [phLoop] at h
      rw [runHeaders]
      dsimp only at h ⊢
      split_ifs at h ⊢ with houtside htype hsegment
      · exact (Option.some.inj h).symm
      · obtain ⟨q, hq, rfl⟩ := Option.map_eq_some_iff.mp h
        rw [ih hq]
      · exact (Option.some.inj h).symm
      all_goals
        cases hp : pageLoop ops f (f.phdr i) fuel s (f.phdr i).virtPage with
        | none => rw [hp] at h; cases h
        | some p =>
            rw [hp] at h
            obtain rfl := pageLoop_some hp
            dsimp only at h
            split_ifs at h
            first
              | exact (Option.some.inj h).symm
              | obtain ⟨q, hq, rfl⟩ := Option.map_eq_some_iff.mp h; rw [ih hq]

/-- The loader ends, on any file and over any memory. -/
theorem elfLoad_eq {s : σ} (hfuel : 2 ^ 52 ≤ fuel) :
    elfLoad ops f fuel s = some (runElf ops f s) := by
  unfold elfLoad runElf
  rw [phLoop_eq hfuel]
  dsimp only
  split_ifs <;> rfl

/-- Whatever fuel the loader ends with, it ends in the same way. -/
theorem elfLoad_some {s : σ} {r : Outcome σ} (h : elfLoad ops f fuel s = some r) :
    r = runElf ops f s := by
  unfold elfLoad at h
  unfold runElf
  dsimp only at h ⊢
  split_ifs at h ⊢
  · exact (Option.some.inj h).symm
  · exact (Option.some.inj h).symm
  · exact (Option.some.inj h).symm
  · obtain ⟨q, hq, rfl⟩ := Option.map_eq_some_iff.mp h
    rw [phLoop_some hq]

end Fuel

end OriaOS.Elf
