import OriaOS.Heap.Invariant

/-!
# The bytes of the heap

Headers and payloads lie in one memory. A header that is written destroys the bytes
that stood there, and a stored byte destroys the header it falls into; what stands
there afterwards is an argument of the call. Live payloads keep their bytes through
every call but a store into them.
-/

namespace OriaOS.Heap

open Lib Lib.BlockList

/-- The headers of the heap, and the bytes of its memory. -/
structure HeapMem where
  heap : KHeap
  byte : Nat → UInt8

/-- The byte lies in a header that was written. -/
def written (old new : Nat → Cell) (x : Nat) : Bool :=
  (List.range headerSize).any fun d => decide (d ≤ x ∧ new (x - d) ≠ old (x - d))

/-- The bytes after a call that wrote headers. -/
def stamp (old new : Nat → Cell) (junk byte : Nat → UInt8) : Nat → UInt8 := fun x =>
  if written old new x then junk x else byte x

namespace HeapMem

def malloc (h : HeapMem) (n : Nat) (junk : Nat → UInt8) : Option (HeapMem × Nat) :=
  (Heap.malloc h.heap n).map fun r => (⟨r.1, stamp h.heap.mem r.1.mem junk h.byte⟩, r.2)

def free (h : HeapMem) (p : Nat) (junk : Nat → UInt8) : Option HeapMem :=
  (Heap.free h.heap p).map fun heap => ⟨heap, stamp h.heap.mem heap.mem junk h.byte⟩

/-- Store bytes from an address on. -/
def store (h : HeapMem) (p : Nat) (bytes : List UInt8) (scrap : Nat → Cell) : HeapMem where
  heap :=
    { h.heap with mem := fun a =>
        if a < p + bytes.length ∧ p < a + headerSize then scrap a else h.heap.mem a }
  byte := fun x => if p ≤ x then bytes.getD (x - p) (h.byte x) else h.byte x

def bytesAt (h : HeapMem) (p n : Nat) : List UInt8 := (List.range n).map fun k => h.byte (p + k)

theorem bytesAt_congr {h h' : HeapMem} {p n : Nat}
    (heq : ∀ k, k < n → h'.byte (p + k) = h.byte (p + k)) : h'.bytesAt p n = h.bytesAt p n := by
  apply List.map_congr_left
  intro k hk
  exact heq k (List.mem_range.mp hk)

end HeapMem

/-! ## Live payloads -/

/-- The bytes of a payload lie in no header that was written. -/
theorem written_of_apart {old new : Nat → Cell} {bs : List Blk} {p m k : Nat}
    (hframe : ∀ x, (∀ b, (x, b) ∉ positions headerSize heapStart bs) → new x = old x)
    (hapart : ∀ q ∈ positions headerSize heapStart bs, Apart p m q.1 headerSize) (hk : k < m) :
    written old new (p + k) = false := by
  rw [written, List.any_eq_false]
  intro d hd
  have hlt := List.mem_range.mp hd
  rw [decide_eq_true_eq]
  rintro ⟨hle, hne⟩
  apply hne
  apply hframe
  intro b hb
  rcases hapart _ hb with hbefore | hbehind
  · simp only at hbefore
    omega
  · simp only at hbehind
    omega

namespace HeapMem

variable {s : HeapMem} {live : List (Nat × Nat)} {bs bs' : List Blk} {junk : Nat → UInt8}

/-- What the allocator writes leaves the payloads of a list that holds the headers. -/
theorem bytesAt_stamp {new : KHeap} {e : Nat × Nat} {b : Blk}
    (hframe : ∀ x, (∀ b, (x, b) ∉ positions headerSize heapStart bs) →
      new.mem x = s.heap.mem x)
    (hb : Payload bs e.1 b) (hsize : e.2 ≤ b.size) :
    bytesAt ⟨new, stamp s.heap.mem new.mem junk s.byte⟩ e.1 e.2 = s.bytesAt e.1 e.2 := by
  apply bytesAt_congr
  intro k hk
  have hclear := written_of_apart hframe (payload_apart hb).2 (hk.trans_le hsize)
  simp only [stamp, hclear]
  rfl

theorem malloc_live (junk : Nat → UInt8) {n : Nat} (inv : HeapInv ⟨s.heap, live⟩ bs) (h1 : 1 ≤ n)
    (h2 : n ≤ 2 ^ 32 - 4) :
    ∃ s' p, s.malloc n junk = some (s', p) ∧
      (∃ bs', HeapInv ⟨s'.heap, if p = 0 then live else (p, n) :: live⟩ bs') ∧
      ∀ e ∈ live, s'.bytesAt e.1 e.2 = s.bytesAt e.1 e.2 := by
  obtain ⟨t, bs', ht, inv', hframe⟩ := heapInv_malloc inv h1 h2
  obtain ⟨r, hr, rfl⟩ := Option.map_eq_some_iff.mp ht
  refine ⟨_, _, by rw [HeapMem.malloc, hr]; rfl, ⟨bs', inv'⟩, ?_⟩
  intro e he
  have hlive : e ∈ if r.2 = 0 then live else (r.2, n) :: live := by
    split
    · exact he
    · exact List.mem_cons_of_mem _ he
  obtain ⟨b, hb, hsize⟩ := inv'.size e hlive
  exact bytesAt_stamp hframe hb hsize

theorem free_live (junk : Nat → UInt8) {p n : Nat} (inv : HeapInv ⟨s.heap, live⟩ bs)
    (hp : (p, n) ∈ live) :
    ∃ s', s.free p junk = some s' ∧
      (∃ bs', HeapInv ⟨s'.heap, live.filter fun e => e.1 ≠ p⟩ bs') ∧
      ∀ e ∈ live, s'.bytesAt e.1 e.2 = s.bytesAt e.1 e.2 := by
  obtain ⟨t, bs', ht, inv', hframe⟩ := heapInv_free inv hp
  obtain ⟨r, hr, rfl⟩ := Option.map_eq_some_iff.mp ht
  refine ⟨_, by rw [HeapMem.free, hr]; rfl, ⟨bs', inv'⟩, ?_⟩
  intro e he
  obtain ⟨b, hb, hsize⟩ := inv.size e he
  exact bytesAt_stamp hframe hb hsize

/-- A store into a live payload. -/
theorem store_live (scrap : Nat → Cell) {p n : Nat} {bytes : List UInt8}
    (inv : HeapInv ⟨s.heap, live⟩ bs) (hp : (p, n) ∈ live) (hlen : bytes.length ≤ n) :
    HeapInv ⟨(s.store p bytes scrap).heap, live⟩ bs ∧
      (s.store p bytes scrap).bytesAt p bytes.length = bytes ∧
      ∀ e ∈ live, e.1 ≠ p →
        (s.store p bytes scrap).bytesAt e.1 e.2 = s.bytesAt e.1 e.2 := by
  obtain ⟨b, hb, hsize⟩ := inv.size _ hp
  obtain ⟨hother, hheaders⟩ := payload_apart hb
  simp only at hsize hother hheaders
  refine ⟨⟨⟨inv.tiles.head, ?_, inv.tiles.span⟩, inv.pair, inv.live, inv.size⟩, ?_, ?_⟩
  · apply inv.tiles.linked.of_positions
    intro q hq
    have hout : ¬ (q.1 < p + bytes.length ∧ p < q.1 + headerSize) := by
      rcases hheaders q hq with h | h
      · omega
      · omega
    simp only [store, if_neg hout]
  · apply List.ext_getElem
    · simp [bytesAt]
    · intro k hk hk'
      simp [bytesAt, store, hk']
  · intro e he hne
    obtain ⟨c, hc, hcsize⟩ := inv.size e he
    apply bytesAt_congr
    intro k hk
    rcases hother e.1 c hc (Ne.symm hne) with h | h
    · have hbehind : bytes.length ≤ e.1 + k - p := by omega
      simp only [store]
      split
      · exact List.getD_eq_default _ _ hbehind
      · rfl
    · have hbefore : ¬ p ≤ e.1 + k := by omega
      simp only [store, if_neg hbefore]

/-- A block that is taken and filled. -/
theorem malloc_store_live (junk : Nat → UInt8) (scrap : Nat → Cell) {bytes : List UInt8}
    (inv : HeapInv ⟨s.heap, live⟩ bs) (h1 : 1 ≤ bytes.length) (h2 : bytes.length ≤ 2 ^ 32 - 4) :
    ∃ s' p, s.malloc bytes.length junk = some (s', p) ∧ (p ≠ 0 →
      (∃ bs', HeapInv ⟨(s'.store p bytes scrap).heap, (p, bytes.length) :: live⟩ bs') ∧
      (s'.store p bytes scrap).bytesAt p bytes.length = bytes ∧
      ∀ e ∈ live, e.1 ≠ p ∧
        (s'.store p bytes scrap).bytesAt e.1 e.2 = s.bytesAt e.1 e.2) := by
  obtain ⟨s', p, hm, ⟨bs', inv'⟩, hkept⟩ := malloc_live junk inv h1 h2
  refine ⟨s', p, hm, fun hp => ?_⟩
  rw [if_neg hp] at inv'
  obtain ⟨hinv, hbytes, hothers⟩ :=
    store_live scrap inv' List.mem_cons_self (Nat.le_refl _)
  refine ⟨⟨bs', hinv⟩, hbytes, ?_⟩
  intro e he
  have hne : e.1 ≠ p := by
    have hnodup := inv'.nodup
    simp only [List.map_cons, List.nodup_cons] at hnodup
    rintro rfl
    exact hnodup.1 (List.mem_map_of_mem he)
  exact ⟨hne, (hothers e (List.mem_cons_of_mem _ he) hne).trans (hkept e he)⟩

end HeapMem

end OriaOS.Heap
