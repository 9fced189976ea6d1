import OriaOS.Lib.Reach
import OriaOS.Lib.BlockList

/-!
# The kernel heap allocator

`mem_init`, `malloc` and `free` of `memory.c`. The heap region is a memory of
block headers indexed by address; both functions walk it through the `next`
pointers and rewrite headers in place. Sizes are 32-bit: every sum and
difference the code forms on them is taken modulo `2 ^ 32`.

A walk carries a step bound because an arbitrary memory may be cyclic; the
result `none` is a call that has not returned. The bound is the heap size,
and in every reachable state no walk meets it.

The interrupt flag, saved and restored around both bodies, makes each call
one atomic step; it is not part of the state.
-/

namespace OriaOS.Heap

open Lib Lib.BlockList

variable {bs : List Blk} {a x : Nat} {m : Nat → Cell}

/-- `MM_HEAP_START`. -/
def heapStart : Nat := 0x100000

/-- `MM_HEAP_SIZE`. -/
def heapSize : Nat := 0x600000

/-- `sizeof(BlockHeader)` with the 64-bit `next` pointer. -/
def headerSize : Nat := 16

/-- A stored `uint32_t`. -/
def u32 (x : Nat) : Nat := x % 2 ^ 32

/-- `a - b` on `uint32_t`. -/
def sub32 (a b : Nat) : Nat := u32 (a + (2 ^ 32 - u32 b))

/-- The header memory and `heap_head`. -/
structure KHeap where
  mem : Nat → Cell
  head : Nat

/-- `mem_init`: one free block over the whole region. -/
def memInit (mem : Nat → Cell) : KHeap where
  mem := Function.update mem heapStart ⟨u32 (heapSize - headerSize), true, 0⟩
  head := heapStart

/-- `(size + 3u) & ~3u`. -/
def roundUp (size : Nat) : Nat := u32 (size + 3) / 4 * 4

/-- The body of the `malloc` loop at a block that is taken: split when a
header and four bytes fit behind the request, then mark the block used. -/
def takeBlock (size curr : Nat) (m : Nat → Cell) : Nat → Cell :=
  let m :=
    if u32 (size + headerSize + 4) ≤ (m curr).size then
      let split := curr + headerSize + size
      let m := Function.update m split
        ⟨sub32 (sub32 (m curr).size size) headerSize, true, (m curr).next⟩
      Function.update m curr ⟨size, (m curr).free, split⟩
    else m
  Function.update m curr ⟨(m curr).size, false, (m curr).next⟩

/-- The `while (curr)` loop of `malloc`. -/
def mallocLoop (size : Nat) : Nat → Nat → (Nat → Cell) → Option ((Nat → Cell) × Nat)
  | 0, _, _ => none
  | fuel + 1, curr, m =>
      if curr = 0 then some (m, 0)
      else if (m curr).free = true ∧ size ≤ (m curr).size then
        some (takeBlock size curr m, curr + headerSize)
      else mallocLoop size fuel (m curr).next m

/-- `malloc`: the new heap and the returned pointer, zero for failure. -/
def malloc (h : KHeap) (size : Nat) : Option (KHeap × Nat) :=
  if size = 0 then some (h, 0)
  else (mallocLoop (roundUp size) heapSize h.head h.mem).map fun r =>
    ({ h with mem := r.1 }, r.2)

/-- The coalescing loop of `free`. -/
def coalesceLoop : Nat → Nat → (Nat → Cell) → Option (Nat → Cell)
  | 0, _, _ => none
  | fuel + 1, curr, m =>
      if curr = 0 then some m
      else
        let c := m curr
        if c.free = true ∧ c.next ≠ 0 ∧ (m c.next).free = true then
          coalesceLoop fuel curr <| Function.update m curr
            ⟨u32 (c.size + u32 (headerSize + (m c.next).size)), true, (m c.next).next⟩
        else coalesceLoop fuel c.next m

/-- `free`. -/
def free (h : KHeap) (ptr : Nat) : Option KHeap :=
  if ptr = 0 then some h
  else
    let block := ptr - headerSize
    let m := Function.update h.mem block ⟨(h.mem block).size, true, (h.mem block).next⟩
    (coalesceLoop heapSize h.head m).map fun m => { h with mem := m }

/-! ## The loops on a linked block list -/

theorem roundUp_le {n : Nat} (h1 : 1 ≤ n) (h2 : n ≤ 2 ^ 32 - 4) :
    n ≤ roundUp n ∧ 1 ≤ roundUp n := by
  simp only [roundUp, u32]
  omega

/-- Taking a block writes its header, and that of the rest when it is split. -/
theorem takeBlock_frame {size curr : Nat} (hx : x ≠ curr)
    (hsplit : u32 (size + headerSize + 4) ≤ (m curr).size → x ≠ curr + headerSize + size) :
    takeBlock size curr m x = m x := by
  simp only [takeBlock]
  split
  · next h => simp [Function.update_of_ne, hx, hsplit h]
  · simp [Function.update_of_ne, hx]

/-- Taking a block rewrites the list as the first-fit choice does. The sum in
the split test cannot wrap because a block is no larger than the heap. -/
theorem takeBlock_linked {size : Nat} {b : Blk} (hl : Linked headerSize m a (b :: bs))
    (hsize : size ≤ b.size) (hspan : span headerSize (b :: bs) ≤ heapSize) :
    Linked headerSize (takeBlock size a m) a
      (if size + headerSize + 4 ≤ b.size then
        ⟨size, false⟩ :: ⟨b.size - size - headerSize, true⟩ :: bs
      else ⟨b.size, false⟩ :: bs) := by
  obtain ⟨hcell, htail⟩ := hl
  have hb : b.size + headerSize ≤ heapSize := by
    simp only [span] at hspan
    omega
  have hguard : u32 (size + headerSize + 4) ≤ b.size ↔ size + headerSize + 4 ≤ b.size := by
    simp only [u32, headerSize, heapSize] at *
    omega
  by_cases hsplit : size + headerSize + 4 ≤ b.size
  · have hsub : sub32 (sub32 b.size size) headerSize = b.size - size - headerSize := by
      simp only [sub32, u32, headerSize, heapSize] at *
      omega
    have haddr : a + headerSize + size + headerSize + (b.size - size - headerSize) =
        a + headerSize + b.size := by
      simp only [headerSize] at *
      omega
    have hne : a ≠ a + headerSize + size := by
      simp only [headerSize]
      omega
    have hlink : link headerSize a b bs =
        link headerSize (a + headerSize + size) ⟨b.size - size - headerSize, true⟩ bs := by
      simp only [link, haddr]
    simp only [takeBlock, hcell, hguard, if_pos hsplit, Function.update_self, hsub]
    refine ⟨?_, ?_, ?_⟩
    · simp
    · rw [Function.update_of_ne hne.symm, Function.update_of_ne hne.symm,
        Function.update_self, hlink]
    · simp only [haddr]
      refine Linked.update _ ?_ _ (Linked.update _ ?_ _ (Linked.update _ ?_ _ htail)) <;>
        (simp only [headerSize] at *; omega)
  · simp only [takeBlock, hcell, hguard, if_neg hsplit]
    refine ⟨?_, ?_⟩
    · simp [link]
    · refine Linked.update _ ?_ _ htail
      simp only [headerSize]
      omega

/-- The walk of `malloc` is first fit on the block list, and writes headers of the new
list only. -/
theorem mallocLoop_spec (size fuel : Nat) (hl : Linked headerSize m a bs) (hne : bs ≠ [])
    (ha : a ≠ 0) (hfuel : bs.length < fuel) (hspan : span headerSize bs ≤ heapSize) :
    match firstFit headerSize 4 size bs with
    | none => mallocLoop size fuel a m = some (m, 0)
    | some (off, bs') => ∃ m', mallocLoop size fuel a m = some (m', a + off + headerSize) ∧
        Linked headerSize m' a bs' ∧
          ∀ x, (∀ b, (x, b) ∉ positions headerSize a bs') → m' x = m x := by
  induction bs generalizing fuel a with
  | nil => exact absurd rfl hne
  | cons b bs ih =>
      obtain ⟨fuel, rfl⟩ : ∃ f, fuel = f + 1 := ⟨fuel - 1, by omega⟩
      have hcell : m a = ⟨b.size, b.free, link headerSize a b bs⟩ := hl.1
      by_cases hb : b.free = true ∧ size ≤ b.size
      · have htake := takeBlock_linked hl hb.2 hspan
        have hloop : mallocLoop size (fuel + 1) a m =
            some (takeBlock size a m, a + headerSize) := by
          simp only [mallocLoop, if_neg ha, hcell, if_pos hb]
        have hguard : u32 (size + headerSize + 4) ≤ (m a).size →
            size + headerSize + 4 ≤ b.size := by
          rw [hcell]
          simp only [span, u32, headerSize, heapSize] at hspan ⊢
          omega
        by_cases hsplit : size + headerSize + 4 ≤ b.size
        · simp only [firstFit, if_pos hb, if_pos hsplit] at htake ⊢
          refine ⟨_, by simpa using hloop, htake, fun x hx => takeBlock_frame ?_ fun _ => ?_⟩
          · rintro rfl
            exact hx _ List.mem_cons_self
          · rintro rfl
            exact hx _ (List.mem_cons_of_mem _ List.mem_cons_self)
        · simp only [firstFit, if_pos hb, if_neg hsplit] at htake ⊢
          refine ⟨_, by simpa using hloop, htake, fun x hx => takeBlock_frame ?_ fun h => ?_⟩
          · rintro rfl
            exact hx _ List.mem_cons_self
          · exact absurd (hguard h) hsplit
      · have hloop : mallocLoop size (fuel + 1) a m =
            mallocLoop size fuel (link headerSize a b bs) m := by
          simp only [mallocLoop, if_neg ha, hcell, if_neg hb]
        simp only [List.length_cons] at hfuel
        simp only [firstFit, if_neg hb]
        cases bs with
        | nil =>
            obtain ⟨fuel, rfl⟩ : ∃ f, fuel = f + 1 := ⟨fuel - 1, by omega⟩
            rw [hloop]
            simp [firstFit, mallocLoop]
        | cons c cs =>
            have hrec := ih fuel hl.2 (by simp) (by omega) (by omega)
              (by simp only [span] at hspan ⊢; omega)
            cases hfit : firstFit headerSize 4 size (c :: cs) with
            | none =>
                simp only [hfit] at hrec
                simpa [hloop] using hrec
            | some r =>
                obtain ⟨off, bs'⟩ := r
                simp only [hfit] at hrec
                obtain ⟨m', hm', hl', hframe⟩ := hrec
                have hne' : bs' ≠ [] := by
                  obtain ⟨pre, d, post, -, -, -, -, ⟨-, rfl⟩ | ⟨-, rfl⟩⟩ :=
                    firstFit_cases headerSize hfit <;> simp
                have hlink : link headerSize a b (c :: cs) = link headerSize a b bs' := by
                  simp [link, hne']
                refine ⟨m', ?_, ⟨?_, hl'⟩, ?_⟩
                · rw [hloop, link_cons, hm']
                  congr 2
                  omega
                · rw [hframe a (notMem_positions headerSize (by simp only [headerSize]; omega)),
                    hcell, hlink]
                · exact fun x hx => hframe x fun d hd => hx d (List.mem_cons_of_mem _ hd)

theorem markFree_ne_nil (h : bs ≠ []) : markFree headerSize x a bs ≠ [] := by
  cases bs with
  | nil => exact absurd rfl h
  | cons b bs => simp [markFree]

/-- Setting the free mark of one header marks that block of the list. -/
theorem linked_markFree (hl : Linked headerSize m a bs) :
    Linked headerSize (Function.update m x ⟨(m x).size, true, (m x).next⟩) a
      (markFree headerSize x a bs) := by
  induction bs generalizing a with
  | nil => trivial
  | cons b bs ih =>
      have hrest := ih hl.2
      have hlink : ∀ c : Blk, c.size = b.size →
          link headerSize a c (markFree headerSize x (a + headerSize + b.size) bs) =
            link headerSize a b bs := by
        intro c hc
        cases bs with
        | nil => rfl
        | cons d ds => simp [link, markFree, hc]
      by_cases hax : a = x
      · subst hax
        simp only [markFree, if_pos]
        refine ⟨?_, hrest⟩
        simp only [Function.update_self, hl.1, hlink ⟨b.size, true⟩ rfl]
      · simp only [markFree, if_neg hax]
        refine ⟨?_, hrest⟩
        rw [Function.update_of_ne hax, hl.1, hlink _ rfl]

/-- The coalescing pass joins the free runs of the list. -/
theorem coalesceLoop_spec (fuel : Nat) (hl : Linked headerSize m a bs) (hne : bs ≠ [])
    (ha : a ≠ 0) (hfuel : bs.length < fuel) (hspan : span headerSize bs ≤ heapSize) :
    ∃ m', coalesceLoop fuel a m = some m' ∧
      Linked headerSize m' a (merge headerSize bs) ∧
        ∀ x, (∀ b, (x, b) ∉ positions headerSize a bs) → m' x = m x := by
  induction bs using merge.induct headerSize generalizing fuel a m with
  | case1 => exact absurd rfl hne
  | case2 b =>
      obtain ⟨fuel, rfl⟩ : ∃ f, fuel = f + 2 := ⟨fuel - 2, by simp at hfuel; omega⟩
      have hcell : m a = ⟨b.size, b.free, 0⟩ := hl.1
      refine ⟨m, ?_, by simpa [merge] using hl, fun _ _ => rfl⟩
      simp [coalesceLoop, ha, hcell]
  | case3 b c bs h ih =>
      obtain ⟨fuel, rfl⟩ : ∃ f, fuel = f + 1 := ⟨fuel - 1, by omega⟩
      have hb : m a = ⟨b.size, b.free, a + headerSize + b.size⟩ := hl.1
      have hc : m (a + headerSize + b.size) =
          ⟨c.size, c.free, link headerSize (a + headerSize + b.size) c bs⟩ := hl.2.1
      have hsum : u32 (b.size + u32 (headerSize + c.size)) = b.size + (headerSize + c.size) := by
        simp only [span, u32, headerSize, heapSize] at hspan ⊢
        omega
      have haddr : a + headerSize + (b.size + (headerSize + c.size)) =
          a + headerSize + b.size + headerSize + c.size := by omega
      have hnz : a + headerSize + b.size ≠ 0 := by omega
      have hloop : coalesceLoop (fuel + 1) a m = coalesceLoop fuel a (Function.update m a
          ⟨b.size + (headerSize + c.size), true,
            link headerSize (a + headerSize + b.size) c bs⟩) := by
        simp only [coalesceLoop, if_neg ha, hb, hc, h.1, h.2, hnz, ne_eq, not_false_eq_true,
          and_self, if_true, hsum]
      have hl' : Linked headerSize (Function.update m a
          ⟨b.size + (headerSize + c.size), true,
            link headerSize (a + headerSize + b.size) c bs⟩) a
          (⟨b.size + (headerSize + c.size), true⟩ :: bs) := by
        refine ⟨?_, ?_⟩
        · rw [Function.update_self]
          simp only [link, haddr]
        · rw [haddr]
          exact Linked.update _ (by simp only [headerSize]; omega) _ hl.2.2
      simp only [List.length_cons] at hfuel
      obtain ⟨m', hm', hlm, hframe⟩ := ih fuel hl' (by simp) ha (by simp; omega)
        (by simp only [span] at hspan ⊢; omega)
      refine ⟨m', by rw [hloop, hm'], by rw [merge, if_pos h]; exact hlm, ?_⟩
      intro x hx
      have hxa : x ≠ a := by
        rintro rfl
        exact hx _ List.mem_cons_self
      have hout : ∀ d, (x, d) ∉ positions headerSize a
          (⟨b.size + (headerSize + c.size), true⟩ :: bs) := by
        intro d hd
        rcases List.mem_cons.mp hd with hd | hd
        · exact hxa (Prod.mk.inj hd).1
        · rw [haddr] at hd
          exact hx d (List.mem_cons_of_mem _ (List.mem_cons_of_mem _ hd))
      rw [hframe x hout, Function.update_of_ne hxa]
  | case4 b c bs h ih =>
      obtain ⟨fuel, rfl⟩ : ∃ f, fuel = f + 1 := ⟨fuel - 1, by omega⟩
      have hb : m a = ⟨b.size, b.free, a + headerSize + b.size⟩ := hl.1
      have hc : m (a + headerSize + b.size) =
          ⟨c.size, c.free, link headerSize (a + headerSize + b.size) c bs⟩ := hl.2.1
      have hcond : ¬ (b.free = true ∧ a + headerSize + b.size ≠ 0 ∧ c.free = true) :=
        fun hbc => h ⟨hbc.1, hbc.2.2⟩
      have hloop : coalesceLoop (fuel + 1) a m =
          coalesceLoop fuel (a + headerSize + b.size) m := by
        simp only [coalesceLoop, if_neg ha, hb, hc, if_neg hcond]
      simp only [List.length_cons] at hfuel
      obtain ⟨m', hm', hlm, hframe⟩ := ih fuel hl.2 (by simp) (by omega)
        (by simp; omega) (by simp only [span] at hspan ⊢; omega)
      obtain ⟨r, rs, hr, -⟩ := merge_head_free headerSize c bs
      refine ⟨m', by rw [hloop, hm'], ?_,
        fun x hx => hframe x fun d hd => hx d (List.mem_cons_of_mem _ hd)⟩
      rw [merge, if_neg h]
      refine ⟨?_, hlm⟩
      rw [hframe a (notMem_positions headerSize (by simp only [headerSize]; omega)), hb, hr]
      rfl

end OriaOS.Heap
