import OriaOS.Elf.Loader

/-!
# What the ELF loader reads of a file

The loader ends on every file. It compares the end of an entry of the program header table
with `size` after adding `e_phoff`, `i * e_phentsize` and `e_phentsize` modulo `2 ^ 64`, and
takes `e_phentsize` from the file; the end of a segment is added up in the same way. Which
files make it read outside of `[0, size)` is decided by their headers alone.
-/

namespace OriaOS.Elf

/-- Over any memory, `elf_load` returns and every byte it reads through `data` has an index
below `size`. -/
def StaysInFile (f : ElfFile) : Prop :=
  ∀ (σ : Type) (ops : PageOps σ) (s : σ), ∃ fuel r,
    elfLoad ops f fuel s = some r ∧ ∀ a ∈ r.reads, a < f.size.toNat

namespace ElfFile
variable (f : ElfFile) (i : Nat)

/-- The file header passes its checks. -/
def HeaderOk : Prop := 64 ≤ f.size.toNat ∧ (f.runTests headerTests).1 = true

/-- Turn `i` does not end the loop over the program headers. -/
def Passes : Prop :=
  ¬f.HeaderOutside i ∧ ((f.phdr i).type = 1 → ¬f.SegmentOutside (f.phdr i))

/-- The loop comes to turn `i` if no frame is missing. -/
def Reached : Prop := i < f.ePhnum ∧ ∀ j < i, f.Passes j

/-- How much of the program header of turn `i` is read. -/
def phdrSize : Nat :=
  if (f.phdr i).type ≠ 1 then 4 else if f.SegmentOutside (f.phdr i) then 40 else 48

/-- The end of the segment in the file does not wrap; or its end in memory does, which
leaves nothing to copy; or it has no page with bytes of the file beyond `size`. -/
def SegmentFits (ph : Phdr) : Prop :=
  ph.filesz = 0 ∨ ph.offset + ph.filesz < 2 ^ 64 ∨ 2 ^ 64 ≤ ph.vaddr + ph.filesz ∨
    ph.virtEnd ≤ ph.vaddr ∨ ph.offset + (ph.virtEnd - ph.vaddr) ≤ f.size.toNat

/-- If turn `i` accepts its program header, this lies in the file as far as it is read, and
a segment that is accepted fits. -/
def TurnFits : Prop :=
  ¬f.HeaderOutside i →
    f.phOff i + f.phdrSize i ≤ f.size.toNat ∧
      ((f.phdr i).type = 1 → ¬f.SegmentOutside (f.phdr i) → f.SegmentFits (f.phdr i))

/-- Every turn the loop can come to fits. -/
def Fits : Prop := f.HeaderOk → ∀ i, f.Reached i → f.TurnFits i

end ElfFile

/-! ## Indices -/

section Span
variable {off n m : Nat}

theorem span_lt (h : off + n ≤ m) (hm : m ≤ 2 ^ 64) : ∀ a ∈ span off n, a < m := by
  intro a ha
  obtain ⟨k, hk, rfl⟩ := mem_span.mp ha
  rw [add64_of_lt (by omega)]
  omega

/-- Indices that are all small have not wrapped. -/
theorem add_le_of_span_lt (hoff : off < 2 ^ 64) (hn : 0 < n) (hm : m + n ≤ 2 ^ 64)
    (h : ∀ a ∈ span off n, a < m) : off + n ≤ m := by
  have hfirst : off < m := h off (mem_span.mpr ⟨0, hn, add64_zero hoff⟩)
  have hlast := h (off + (n - 1)) (mem_span.mpr ⟨n - 1, by omega, add64_of_lt (by omega)⟩)
  omega

end Span

section Segment
variable {f : ElfFile} {ph : Phdr}

/-- The values of `uint64_t` fields. -/
structure Phdr.Word (ph : Phdr) : Prop where
  offset : ph.offset < 2 ^ 64
  vaddr : ph.vaddr < 2 ^ 64
  filesz : ph.filesz < 2 ^ 64

theorem ElfFile.phdr_word (f : ElfFile) (i : Nat) : (f.phdr i).Word where
  offset := f.field_lt _ 8
  vaddr := f.field_lt _ 8
  filesz := f.field_lt _ 8

theorem Phdr.vaddr_le_copyStart (ph : Phdr) (va : Nat) : ph.vaddr ≤ ph.copyStart va := by
  unfold Phdr.copyStart
  split <;> omega

/-- The byte for address `x` is read at `p_offset + (x - p_vaddr)`. -/
theorem Phdr.mem_copyReads {va a : Nat} :
    a ∈ ph.copyReads va ↔
      ∃ x, ph.copyStart va ≤ x ∧ x < ph.copyEnd va ∧ a = add64 ph.offset (x - ph.vaddr) := by
  have hv := ph.vaddr_le_copyStart va
  have hsum : ∀ k, add64 (add64 ph.offset (ph.copyStart va - ph.vaddr)) k =
      add64 ph.offset (ph.copyStart va + k - ph.vaddr) := by
    intro k
    unfold add64
    rw [Nat.mod_add_mod]
    congr 1
    omega
  rw [Phdr.copyReads, mem_span]
  constructor
  · rintro ⟨k, hk, rfl⟩
    exact ⟨ph.copyStart va + k, by omega, by omega, hsum k⟩
  · rintro ⟨x, hlo, hhi, rfl⟩
    refine ⟨x - ph.copyStart va, by omega, ?_⟩
    rw [hsum]
    congr 1
    omega

/-- An address that is copied for lies in the segment and in its page. -/
theorem Phdr.copied_bounds (hw : ph.Word) {va x : Nat} (hva : va ∈ ph.pages)
    (hlo : ph.copyStart va ≤ x) (hhi : x < ph.copyEnd va) :
    ph.vaddr ≤ x ∧ x < ph.virtEnd ∧ x < ph.vaddr + ph.filesz ∧
      ph.vaddr + ph.filesz < 2 ^ 64 := by
  obtain ⟨-, hend, hdvd⟩ := Phdr.mem_pages.mp hva
  have hmax := ph.virtEnd_add_le
  have hdvd' : 4096 ∣ ph.virtEnd := Nat.dvd_mul_left _ _
  have hv := ph.vaddr_le_copyStart va
  have hnext : add64 va 4096 = va + 4096 := add64_of_lt (by omega)
  have hseg : x < ph.segFileEnd ∧ x < va + 4096 := by
    unfold Phdr.copyEnd at hhi
    rw [hnext] at hhi
    split at hhi <;> omega
  have hsegEnd : ph.segFileEnd = (ph.vaddr + ph.filesz) % 2 ^ 64 := rfl
  have := hw.vaddr
  have := hw.filesz
  omega

/-- The page of an address of the segment copies for it. -/
theorem Phdr.copied_of_bounds {x : Nat} (hlo : ph.vaddr ≤ x) (hend : x < ph.virtEnd)
    (hseg : x < ph.segFileEnd) :
    pageDown x ∈ ph.pages ∧ ph.copyStart (pageDown x) ≤ x ∧ x < ph.copyEnd (pageDown x) := by
  have hmax := ph.virtEnd_add_le
  have hdown := pageDown_le x
  have hnext : add64 (pageDown x) 4096 = pageDown x + 4096 := add64_of_lt (by omega)
  refine ⟨Phdr.mem_pages.mpr ⟨?_, by omega, Nat.dvd_mul_left _ _⟩, ?_, ?_⟩
  · exact Nat.mul_le_mul_right _ (Nat.div_le_div_right hlo)
  · unfold Phdr.copyStart
    split <;> omega
  · have hx := lt_pageDown_add x
    unfold Phdr.copyEnd
    rw [hnext]
    split <;> omega

/-- The pages of an accepted segment are filled from inside the file exactly if it fits. -/
theorem copyReads_lt_iff (hw : ph.Word) (hin : ¬f.SegmentOutside ph) :
    (∀ va ∈ ph.pages, ∀ a ∈ ph.copyReads va, a < f.size.toNat) ↔ f.SegmentFits ph := by
  have hsize := f.size.toNat_lt
  have hoff := hw.offset
  have haccept : ph.filesz = 0 ∨
      (ph.offset < f.size.toNat ∧ (ph.offset + ph.filesz) % 2 ^ 64 ≤ f.size.toNat) := by
    unfold ElfFile.SegmentOutside add64 at hin
    omega
  unfold ElfFile.SegmentFits
  constructor
  · intro h
    by_contra hfits
    simp only [not_or, Nat.not_lt, Nat.not_le] at hfits
    obtain ⟨hpos, hwrap, hmem, hend, hbig⟩ := hfits
    -- the address whose byte would stand at index `size`
    let x := ph.vaddr + (f.size.toNat - ph.offset)
    have hseg : ph.segFileEnd = ph.vaddr + ph.filesz := add64_of_lt hmem
    have hseg' : x < ph.segFileEnd := by
      have := hw.filesz
      omega
    obtain ⟨hpage, hlo, hhi⟩ := Phdr.copied_of_bounds (Nat.le_add_right _ _) (by omega) hseg'
    have hlt := h _ hpage _ (Phdr.mem_copyReads.mpr ⟨x, hlo, hhi, rfl⟩)
    have hx : ph.offset + (x - ph.vaddr) = f.size.toNat := by omega
    rw [add64, hx] at hlt
    omega
  · intro hfits va hva a ha
    obtain ⟨x, hlo, hhi, rfl⟩ := Phdr.mem_copyReads.mp ha
    obtain ⟨hv, hend, hseg, hmem⟩ := Phdr.copied_bounds hw hva hlo hhi
    have hle : add64 ph.offset (x - ph.vaddr) ≤ ph.offset + (x - ph.vaddr) := Nat.mod_le _ _
    omega

end Segment

/-! ## Program headers -/

section Header
variable {f : ElfFile} {i : Nat}

theorem ElfFile.header_span_lt (h : 64 ≤ f.size.toNat) {off n : Nat} (hn : off + n ≤ 64) :
    ∀ a ∈ span off n, a < f.size.toNat := by
  have hsize := f.size.toNat_lt
  exact span_lt (by omega) (by omega)

theorem ElfFile.turnReads_lt (h : 64 ≤ f.size.toNat) :
    ∀ a ∈ ElfFile.turnReads, a < f.size.toNat := by
  intro a ha
  rw [ElfFile.turnReads, List.mem_append, List.mem_append] at ha
  rcases ha with (ha | ha) | ha
  · exact f.header_span_lt h (by omega) a ha
  · exact f.header_span_lt h (by omega) a ha
  · exact f.header_span_lt h (by omega) a ha

/-- What turn `i` reads of its program header. -/
def ElfFile.phdrReads (f : ElfFile) (i : Nat) : List Nat :=
  span (f.phOff i) 4 ++
    if (f.phdr i).type ≠ 1 then []
    else f.checkReads i ++ if f.SegmentOutside (f.phdr i) then [] else f.rangeReads i

/-- The program header is read inside the file exactly as far as it lies there. -/
theorem ElfFile.phdrReads_lt_iff :
    (∀ a ∈ f.phdrReads i, a < f.size.toNat) ↔ f.phOff i + f.phdrSize i ≤ f.size.toNat := by
  have hsize := f.size.toNat_lt
  constructor
  · intro h
    have htype := add_le_of_span_lt (m := f.size.toNat) (f.phOff_lt i) (n := 4) (by omega)
      (by omega) fun a ha => h a (List.mem_append_left _ ha)
    -- the last field that is read
    have hfield : ∀ c, (∀ a ∈ span (add64 (f.phOff i) c) 8, a < f.size.toNat) → c < 2 ^ 32 →
        f.phOff i + c + 8 ≤ f.size.toNat := by
      intro c hc hlt
      have hle := add_le_of_span_lt (add64_lt _ _) (by omega) (by omega) hc
      rwa [add64_of_lt (by omega)] at hle
    unfold ElfFile.phdrSize
    unfold ElfFile.phdrReads at h
    split_ifs at h ⊢ with hload hsegment
    · exact htype
    · refine hfield 32 (fun a ha => h a ?_) (by omega)
      simp [ElfFile.checkReads, ha]
    · refine hfield 40 (fun a ha => h a ?_) (by omega)
      simp [ElfFile.rangeReads, ha]
  · intro h a ha
    have hspan : ∀ c n, c + n ≤ f.phdrSize i → a ∈ span (add64 (f.phOff i) c) n →
        a < f.size.toNat := by
      intro c n hc ha
      rw [add64_of_lt (by omega)] at ha
      exact span_lt (by omega) (by omega) a ha
    unfold ElfFile.phdrSize at h hspan
    unfold ElfFile.phdrReads ElfFile.checkReads ElfFile.rangeReads at ha
    have hzero := hspan 0 4
    rw [add64_zero (f.phOff_lt i)] at hzero
    split_ifs at h hspan ha hzero <;>
      simp only [List.mem_append, List.not_mem_nil, or_false] at ha <;>
      grind

end Header

/-! ## Runs -/

section Runs
variable {σ : Type} {ops : PageOps σ} {f : ElfFile} {ph : Phdr}

theorem mem_reads_loadPages {l : List Nat} {s : σ} {a : Nat}
    (h : a ∈ (loadPages ops f ph l s).reads) : ∃ va ∈ l, a ∈ ph.copyReads va := by
  induction l generalizing s with
  | nil => cases h
  | cons va l ih =>
      rw [loadPages] at h
      dsimp only at h
      split at h
      · cases h
      · rw [List.mem_append] at h
        rcases h with h | h
        · exact ⟨va, List.mem_cons_self, h⟩
        · obtain ⟨w, hw, ha⟩ := ih h
          exact ⟨w, List.mem_cons_of_mem va hw, ha⟩

/-- Turns that fit read nothing outside of the file. -/
theorem reads_runHeaders_lt (hsize : 64 ≤ f.size.toNat) {n i : Nat} {s : σ}
    (hfits : ∀ j, i ≤ j → j < i + n → (∀ k, i ≤ k → k < j → f.Passes k) → f.TurnFits j) :
    ∀ a ∈ (runHeaders ops f n i s).reads, a < f.size.toNat := by
  induction n generalizing i s with
  | zero =>
      intro a ha
      rw [runHeaders, List.mem_append] at ha
      rcases ha with ha | ha
      · exact f.header_span_lt hsize (by omega) a ha
      · exact f.header_span_lt hsize (by omega) a ha
  | succ n ih =>
      have hturn := f.turnReads_lt hsize
      have hthis : f.TurnFits i := hfits i (Nat.le_refl i) (by omega) fun k _ _ => by omega
      have hnext : f.Passes i →
          ∀ s, ∀ a ∈ (runHeaders ops f n (i + 1) s).reads, a < f.size.toNat := by
        intro hpass s
        refine ih fun j hj hlt hbefore => hfits j (by omega) (by omega) fun k hk hkj => ?_
        rcases Nat.eq_or_lt_of_le hk with rfl | hk
        · exact hpass
        · exact hbefore k hk hkj
      rw [runHeaders]
      dsimp only
      by_cases houtside : f.HeaderOutside i
      · rw [if_pos houtside]
        exact hturn
      rw [if_neg houtside]
      obtain ⟨hphdr, hsegment⟩ := hthis houtside
      have hreads := ElfFile.phdrReads_lt_iff.mpr hphdr
      unfold ElfFile.phdrReads at hreads
      by_cases htype : (f.phdr i).type = 1
      · rw [if_neg (not_not.mpr htype)] at hreads ⊢
        by_cases hout : f.SegmentOutside (f.phdr i)
        · rw [if_pos hout] at hreads ⊢
          simp only [List.forall_mem_append] at hreads ⊢
          exact ⟨⟨hturn, hreads.1⟩, hreads.2.1⟩
        · rw [if_neg hout] at hreads ⊢
          have hcopied := (copyReads_lt_iff (f.phdr_word i) hout).mpr (hsegment htype hout)
          have hpages : ∀ a ∈ (loadPages ops f (f.phdr i) (f.phdr i).pages s).reads,
              a < f.size.toNat := by
            intro a ha
            obtain ⟨va, hva, ha⟩ := mem_reads_loadPages ha
            exact hcopied va hva a ha
          have hafter := hnext ⟨houtside, fun _ => hout⟩
          split_ifs
          all_goals
            simp only [Outcome.after, List.forall_mem_append] at hreads ⊢
          · exact ⟨⟨⟨⟨⟨hturn, hreads.1⟩, hreads.2.1⟩, hreads.2.2⟩, hpages⟩, hafter _⟩
          · exact ⟨⟨⟨⟨hturn, hreads.1⟩, hreads.2.1⟩, hreads.2.2⟩, hpages⟩
      · rw [if_pos htype] at hreads ⊢
        simp only [Outcome.after, List.forall_mem_append] at hreads ⊢
        exact ⟨⟨hturn, hreads.1⟩, hnext ⟨houtside, fun h => absurd h htype⟩ s⟩

theorem ElfFile.runTests_lt {l : List (Nat × Nat × Nat)} {m : Nat} (hm : m ≤ 2 ^ 64)
    (h : ∀ t ∈ l, t.1 + t.2.1 ≤ m) : ∀ a ∈ (f.runTests l).2, a < m := by
  induction l with
  | nil => simp [ElfFile.runTests]
  | cons t l ih =>
      have hspan := span_lt (h t List.mem_cons_self) hm
      rw [ElfFile.runTests]
      split
      · rw [List.forall_mem_append]
        exact ⟨hspan, ih fun t ht => h t (List.mem_cons_of_mem _ ht)⟩
      · exact hspan

/-- The checks of the file header read nothing behind its 64 bytes. -/
theorem ElfFile.headerTests_lt (hsize : 64 ≤ f.size.toNat) :
    ∀ a ∈ (f.runTests ElfFile.headerTests).2, a < f.size.toNat := by
  have hlt := f.size.toNat_lt
  have hbound : ∀ t ∈ ElfFile.headerTests, t.1 + t.2.1 ≤ 64 := by decide
  exact ElfFile.runTests_lt (by omega) fun t ht => Nat.le_trans (hbound t ht) hsize

/-- On a file that fits the loader reads nothing outside of it. -/
theorem reads_runElf_lt (hfits : f.Fits) (s : σ) :
    ∀ a ∈ (runElf ops f s).reads, a < f.size.toNat := by
  unfold runElf
  dsimp only
  split_ifs with hsize htests hphnum
  · simp
  · exact ElfFile.headerTests_lt (by omega)
  · rw [List.forall_mem_append]
    exact ⟨ElfFile.headerTests_lt (by omega), f.header_span_lt (by omega) (by omega)⟩
  · have hsize' : 64 ≤ f.size.toNat := by omega
    have hok : f.HeaderOk := ⟨hsize', by simpa using htests⟩
    simp only [Outcome.after, List.forall_mem_append]
    refine ⟨⟨ElfFile.headerTests_lt hsize', f.header_span_lt hsize' (by omega)⟩, ?_⟩
    refine reads_runHeaders_lt hsize' fun j _ hj hbefore => hfits hok j ⟨by omega, ?_⟩
    exact fun k hk => hbefore k (Nat.zero_le k) hk

end Runs

/-! ## When no frame is missing -/

/-- A memory that always has a frame. -/
def granting : PageOps Unit where
  allocFrame := fun _ => ((), 1)
  zeroFrame := fun _ _ => ()
  copyToFrame := fun _ _ _ _ => ()
  mapPage := fun _ _ _ => ()

section Granting
variable {f : ElfFile} {ph : Phdr}

theorem loadPages_granting (l : List Nat) :
    (loadPages granting f ph l ()).ok = true ∧
      ∀ va ∈ l, ∀ a ∈ ph.copyReads va, a ∈ (loadPages granting f ph l ()).reads := by
  induction l with
  | nil => exact ⟨rfl, by simp⟩
  | cons va l ih =>
      obtain ⟨hok, hreads⟩ := ih
      refine ⟨hok, fun w hw a ha => List.mem_append.mpr ?_⟩
      rcases List.mem_cons.mp hw with rfl | hw
      · exact Or.inl ha
      · exact Or.inr (hreads w hw a ha)

/-- Every turn the loop comes to fits if the loop reads inside the file. -/
theorem turnFits_of_reads {n i : Nat}
    (h : ∀ a ∈ (runHeaders granting f n i ()).reads, a < f.size.toNat) :
    ∀ j, i ≤ j → j < i + n → (∀ k, i ≤ k → k < j → f.Passes k) → f.TurnFits j := by
  induction n generalizing i with
  | zero => intro j hj hlt; omega
  | succ n ih =>
      -- the turn itself, and what remains to read after it
      have hturn : f.TurnFits i ∧ (f.Passes i →
          ∀ a ∈ (runHeaders granting f n (i + 1) ()).reads, a < f.size.toNat) := by
        rw [runHeaders] at h
        dsimp only at h
        by_cases houtside : f.HeaderOutside i
        · exact ⟨fun hin => absurd houtside hin, fun hpass => absurd houtside hpass.1⟩
        rw [if_neg houtside] at h
        have hphdr : (∀ a ∈ f.phdrReads i, a < f.size.toNat) →
            f.phOff i + f.phdrSize i ≤ f.size.toNat := ElfFile.phdrReads_lt_iff.mp
        unfold ElfFile.phdrReads at hphdr
        by_cases htype : (f.phdr i).type = 1
        · rw [if_neg (not_not.mpr htype)] at h hphdr
          by_cases hout : f.SegmentOutside (f.phdr i)
          · rw [if_pos hout] at h hphdr
            simp only [List.forall_mem_append] at h
            refine ⟨fun _ => ⟨hphdr ?_, fun _ hin => absurd hout hin⟩,
              fun hpass => absurd hout (hpass.2 htype)⟩
            simp only [List.forall_mem_append]
            exact ⟨h.1.2, h.2, by simp⟩
          · rw [if_neg hout] at h hphdr
            obtain ⟨hok, hreads⟩ := @loadPages_granting f (f.phdr i) (f.phdr i).pages
            rw [if_pos hok] at h
            simp only [Outcome.after, List.forall_mem_append] at h
            obtain ⟨⟨⟨⟨⟨-, hspan⟩, hcheck⟩, hrange⟩, hpages⟩, hrest⟩ := h
            refine ⟨fun _ => ⟨hphdr ?_, fun _ _ => ?_⟩, fun _ => hrest⟩
            · simp only [List.forall_mem_append]
              exact ⟨hspan, hcheck, hrange⟩
            · refine (copyReads_lt_iff (f.phdr_word i) hout).mp fun va hva a ha => ?_
              exact hpages a (hreads va hva a ha)
        · rw [if_pos htype] at h hphdr
          simp only [Outcome.after, List.forall_mem_append] at h
          refine ⟨fun _ => ⟨hphdr ?_, fun h => absurd h htype⟩, fun _ => h.2⟩
          simp only [List.forall_mem_append]
          exact ⟨h.1.2, by simp⟩
      intro j hj hlt hbefore
      rcases Nat.eq_or_lt_of_le hj with rfl | hj
      · exact hturn.1
      · have hpass := hbefore i (Nat.le_refl i) hj
        exact ih (hturn.2 hpass) j hj (by omega) fun k hk => hbefore k (by omega)

end Granting

/-- The loader ends and stays in a file exactly if the file fits: every program header it
can come to lies in the file as far as it is read, and so does every byte of a segment whose
end in the file wraps. -/
theorem stays_in_file_iff (f : ElfFile) : StaysInFile f ↔ f.Fits := by
  constructor
  · intro h hok i hi
    obtain ⟨fuel, r, hr, hlt⟩ := h Unit granting ()
    obtain rfl := elfLoad_some hr
    obtain ⟨hn, hbefore⟩ := hi
    unfold runElf at hlt
    dsimp only at hlt
    rw [if_neg (Nat.not_lt.mpr hok.1), if_neg (by simp [hok.2]), if_neg (by omega)] at hlt
    simp only [Outcome.after, List.forall_mem_append] at hlt
    exact turnFits_of_reads hlt.2 i (Nat.zero_le i) (by omega) fun k _ => hbefore k
  · intro hfits σ ops s
    exact ⟨2 ^ 52, runElf ops f s, elfLoad_eq (Nat.le_refl _), reads_runElf_lt hfits s⟩

/-! ## A table of empty entries -/

/-- A file header alone: `e_phnum` is 1, `e_phentsize` is 0 and `e_phoff` is 64. -/
def emptyEntries : ElfFile where
  data
    | 0 => 0x7F
    | 1 => 0x45
    | 2 => 0x4C
    | 3 => 0x46
    | 4 => 2
    | 16 => 2
    | 18 => 0x3E
    | 32 => 64
    | 56 => 1
    | _ => 0
  size := 64

/-- The loader reads `p_type` behind a file that ends with its file header. -/
theorem empty_entry_read : ¬StaysInFile emptyEntries := by
  intro h
  obtain ⟨fuel, r, hr, hlt⟩ := h Unit granting ()
  obtain rfl := elfLoad_some hr
  have hread : 64 ∈ (runElf granting emptyEntries ()).reads := by decide +kernel
  exact absurd (hlt 64 hread) (by decide)

end OriaOS.Elf
