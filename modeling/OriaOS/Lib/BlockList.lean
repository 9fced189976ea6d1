import Mathlib

/-!
# First-fit block lists

A heap region is cut into consecutive blocks, each a header of `hdr` bytes
and a payload. The list of blocks determines every address: the position of a
block is the sum of the sizes before it, so a list whose `span` is the region
size tiles the region. Allocation takes the first free block that is large
enough and splits it when a further block fits behind; release marks a block
and joins neighbouring free blocks.

The second half relates a block list to a memory of header cells linked by
absolute addresses.
-/

namespace OriaOS.Lib.BlockList

variable {a n off slack x : Nat}

/-- Payload size and free mark of one block. -/
structure Blk where
  size : Nat
  free : Bool
  deriving Repr, DecidableEq

variable (hdr : Nat)

/-- Bytes covered by a block list, headers included. -/
def span : List Blk → Nat
  | [] => 0
  | b :: bs => hdr + b.size + span bs

/-- The blocks with the addresses of their headers, starting at `a`. -/
def positions : Nat → List Blk → List (Nat × Blk)
  | _, [] => []
  | a, b :: bs => (a, b) :: positions (a + hdr + b.size) bs

/-- The allocated blocks with their header addresses. -/
def taken (a : Nat) (bs : List Blk) : List (Nat × Blk) :=
  (positions hdr a bs).filter fun q => !q.2.free

/-- No two neighbouring blocks are both free. -/
def NoFreePair : List Blk → Prop
  | [] => True
  | [_] => True
  | b :: c :: bs => ¬ (b.free = true ∧ c.free = true) ∧ NoFreePair (c :: bs)

theorem positions_bounds {bs : List Blk} {q : Nat × Blk} (hq : q ∈ positions hdr a bs) :
    a ≤ q.1 ∧ q.1 + hdr + q.2.size ≤ a + span hdr bs := by
  induction bs generalizing a with
  | nil => simp [positions] at hq
  | cons b bs ih =>
      simp only [positions, List.mem_cons] at hq
      rcases hq with rfl | hq
      · simp only [span]
        omega
      · have h := ih hq
        simp only [span]
        omega

/-- Blocks lie one behind the other. -/
theorem positions_pairwise (a : Nat) (bs : List Blk) :
    (positions hdr a bs).Pairwise fun q r => q.1 + hdr + q.2.size ≤ r.1 := by
  induction bs generalizing a with
  | nil => exact List.Pairwise.nil
  | cons b bs ih =>
      refine List.Pairwise.cons ?_ (ih _)
      intro r hr
      exact (positions_bounds hdr hr).1

/-- Two blocks of one list are the same block or do not overlap. -/
theorem positions_disjoint {bs : List Blk} {q r : Nat × Blk} (hq : q ∈ positions hdr a bs)
    (hr : r ∈ positions hdr a bs) :
    q = r ∨ q.1 + hdr + q.2.size ≤ r.1 ∨ r.1 + hdr + r.2.size ≤ q.1 := by
  induction bs generalizing a with
  | nil => simp [positions] at hq
  | cons b bs ih =>
      simp only [positions, List.mem_cons] at hq hr
      rcases hq with rfl | hq <;> rcases hr with rfl | hr
      · exact Or.inl rfl
      · exact Or.inr (Or.inl (positions_bounds hdr hr).1)
      · exact Or.inr (Or.inr (positions_bounds hdr hq).1)
      · exact ih hq hr

/-- No header lies below a list. -/
theorem notMem_positions {bs : List Blk} (hx : x < a) (b : Blk) : (x, b) ∉ positions hdr a bs := by
  intro hmem
  have hle := (positions_bounds hdr hmem).1
  simp only at hle
  omega

theorem mem_taken {bs : List Blk} {q : Nat × Blk} :
    q ∈ taken hdr a bs ↔ q ∈ positions hdr a bs ∧ q.2.free = false := by
  simp [taken]

@[simp] theorem taken_nil (a : Nat) : taken hdr a [] = [] := rfl

theorem taken_cons_free {b : Blk} (hb : b.free = true) (a : Nat) (bs : List Blk) :
    taken hdr a (b :: bs) = taken hdr (a + hdr + b.size) bs := by
  simp [taken, positions, hb]

theorem taken_cons_used {b : Blk} (hb : b.free = false) (a : Nat) (bs : List Blk) :
    taken hdr a (b :: bs) = (a, b) :: taken hdr (a + hdr + b.size) bs := by
  simp [taken, positions, hb]

/-- The headers of allocated blocks have distinct addresses. -/
theorem taken_nodup (hpos : 0 < hdr) (a : Nat) (bs : List Blk) :
    ((taken hdr a bs).map Prod.fst).Nodup := by
  rw [List.Nodup, List.pairwise_map]
  refine ((positions_pairwise hdr a bs).filter _).imp ?_
  intro q r h heq
  omega

/-! ## Allocation -/

/-- First fit: the offset of the chosen header and the list after the choice.
A block is split when a header and `slack` bytes remain behind the request. -/
def firstFit (slack n : Nat) : List Blk → Option (Nat × List Blk)
  | [] => none
  | b :: bs =>
      if b.free = true ∧ n ≤ b.size then
        if n + hdr + slack ≤ b.size then
          some (0, ⟨n, false⟩ :: ⟨b.size - n - hdr, true⟩ :: bs)
        else some (0, ⟨b.size, false⟩ :: bs)
      else (firstFit slack n bs).map fun r => (hdr + b.size + r.1, b :: r.2)

theorem firstFit_eq_none_iff {slack n : Nat} {bs : List Blk} :
    firstFit hdr slack n bs = none ↔ ∀ b ∈ bs, b.free = true → b.size < n := by
  induction bs with
  | nil => simp [firstFit]
  | cons b bs ih =>
      by_cases hb : b.free = true ∧ n ≤ b.size
      · have hno : ¬ ∀ c ∈ b :: bs, c.free = true → c.size < n := by
          intro h
          have := h b (by simp) hb.1
          omega
        simp only [firstFit, if_pos hb]
        split <;> simp only [reduceCtorEq, hno]
      · simp only [firstFit, if_neg hb, Option.map_eq_none_iff, ih, List.mem_cons,
          forall_eq_or_imp]
        constructor
        · intro h
          refine ⟨fun hf => ?_, h⟩
          by_contra hlt
          exact hb ⟨hf, by omega⟩
        · exact fun h => h.2

/-- What an allocation does, at the block it takes. -/
theorem firstFit_cases {bs bs' : List Blk} (h : firstFit hdr slack n bs = some (off, bs')) :
    ∃ pre b post, bs = pre ++ b :: post ∧ off = span hdr pre ∧
      b.free = true ∧ n ≤ b.size ∧
      ((n + hdr + slack ≤ b.size ∧
          bs' = pre ++ ⟨n, false⟩ :: ⟨b.size - n - hdr, true⟩ :: post) ∨
        (b.size < n + hdr + slack ∧ bs' = pre ++ ⟨b.size, false⟩ :: post)) := by
  induction bs generalizing off bs' with
  | nil => simp [firstFit] at h
  | cons b bs ih =>
      simp only [firstFit] at h
      split at h
      · rename_i hb
        split at h
        · rename_i hsplit
          obtain ⟨rfl, rfl⟩ := Prod.mk.inj (Option.some.inj h)
          exact ⟨[], b, bs, rfl, rfl, hb.1, hb.2, Or.inl ⟨hsplit, rfl⟩⟩
        · rename_i hsplit
          obtain ⟨rfl, rfl⟩ := Prod.mk.inj (Option.some.inj h)
          exact ⟨[], b, bs, rfl, rfl, hb.1, hb.2, Or.inr ⟨by omega, rfl⟩⟩
      · obtain ⟨⟨off₁, bs₁⟩, hrec, heq⟩ := Option.map_eq_some_iff.mp h
        obtain ⟨rfl, rfl⟩ := Prod.mk.inj heq
        obtain ⟨pre, c, post, rfl, rfl, hfree, hn, hcase⟩ := ih hrec
        refine ⟨b :: pre, c, post, rfl, rfl, hfree, hn, ?_⟩
        rcases hcase with ⟨hs, rfl⟩ | ⟨hs, rfl⟩
        · exact Or.inl ⟨hs, rfl⟩
        · exact Or.inr ⟨hs, rfl⟩

theorem span_append (bs cs : List Blk) :
    span hdr (bs ++ cs) = span hdr bs + span hdr cs := by
  induction bs with
  | nil => simp [span]
  | cons b bs ih =>
      simp only [List.cons_append, span, ih]
      omega

theorem positions_append (a : Nat) (bs cs : List Blk) :
    positions hdr a (bs ++ cs) =
      positions hdr a bs ++ positions hdr (a + span hdr bs) cs := by
  induction bs generalizing a with
  | nil => simp [positions, span]
  | cons b bs ih =>
      simp only [List.cons_append, positions, span, ih]
      congr 3
      omega

theorem taken_append (a : Nat) (bs cs : List Blk) :
    taken hdr a (bs ++ cs) = taken hdr a bs ++ taken hdr (a + span hdr bs) cs := by
  simp [taken, positions_append]

theorem firstFit_span {bs bs' : List Blk} (h : firstFit hdr slack n bs = some (off, bs')) :
    span hdr bs' = span hdr bs := by
  obtain ⟨pre, b, post, rfl, -, -, -, ⟨hs, rfl⟩ | ⟨hs, rfl⟩⟩ := firstFit_cases hdr h
  · simp only [span_append, span]
    omega
  · simp only [span_append, span]

/-- An allocation adds exactly one allocated block, at the returned offset and
at least as large as the request. -/
theorem firstFit_taken {bs bs' : List Blk} (h : firstFit hdr slack n bs = some (off, bs'))
    (a : Nat) :
    ∃ b, b.free = false ∧ n ≤ b.size ∧
      (taken hdr a bs').Perm ((a + off, b) :: taken hdr a bs) := by
  obtain ⟨pre, b, post, rfl, rfl, hfree, hn, ⟨hs, rfl⟩ | ⟨hs, rfl⟩⟩ := firstFit_cases hdr h
  · refine ⟨⟨n, false⟩, rfl, (Nat.le_refl _), ?_⟩
    have haddr : a + span hdr pre + hdr + n + hdr + (b.size - n - hdr) =
        a + span hdr pre + hdr + b.size := by omega
    rw [taken_append, taken_append, taken_cons_used hdr rfl, taken_cons_free hdr rfl,
      taken_cons_free hdr hfree, haddr]
    exact List.perm_middle
  · refine ⟨⟨b.size, false⟩, rfl, hn, ?_⟩
    rw [taken_append, taken_append, taken_cons_used hdr rfl, taken_cons_free hdr hfree]
    exact List.perm_middle

theorem noFreePair_cons_used {b : Blk} (hb : b.free = false) {bs : List Blk}
    (h : NoFreePair bs) : NoFreePair (b :: bs) := by
  cases bs with
  | nil => trivial
  | cons c bs => exact ⟨by simp [hb], h⟩

theorem NoFreePair.tail {b : Blk} {bs : List Blk} (h : NoFreePair (b :: bs)) :
    NoFreePair bs := by
  cases bs with
  | nil => trivial
  | cons c bs => exact h.2

theorem noFreePair_splice {pre : List Blk} {b : Blk} {post cs : List Blk}
    (h : NoFreePair (pre ++ b :: post)) (hcs : NoFreePair cs)
    (hhead : ∀ c ∈ cs.head?, c.free = true → b.free = true) :
    NoFreePair (pre ++ cs) := by
  induction pre with
  | nil => simpa using hcs
  | cons p pre ih =>
      cases pre with
      | nil =>
          cases cs with
          | nil => trivial
          | cons c cs =>
              refine ⟨fun hpc => h.1 ⟨hpc.1, hhead c (by simp) hpc.2⟩, hcs⟩
      | cons q pre => exact ⟨h.1, ih h.2⟩

/-- Splitting leaves a free rest only behind the block just taken, whose old
neighbour was not free. -/
theorem firstFit_noFreePair {bs bs' : List Blk} (h : firstFit hdr slack n bs = some (off, bs'))
    (hbs : NoFreePair bs) : NoFreePair bs' := by
  obtain ⟨pre, b, post, rfl, -, hfree, -, hcase⟩ := firstFit_cases hdr h
  have htail : NoFreePair (b :: post) := by
    clear hcase h
    induction pre with
    | nil => exact hbs
    | cons p pre ih => exact ih hbs.tail
  have hrest : ∀ r, NoFreePair (⟨r, true⟩ :: post) := by
    intro r
    cases post with
    | nil => trivial
    | cons c post => exact ⟨fun hrc => htail.1 ⟨hfree, hrc.2⟩, htail.2⟩
  rcases hcase with ⟨-, rfl⟩ | ⟨-, rfl⟩
  · exact noFreePair_splice hbs (noFreePair_cons_used rfl (hrest _)) (by simp)
  · exact noFreePair_splice hbs (noFreePair_cons_used rfl htail.tail) (by simp)

/-! ## Release -/

/-- Mark the block whose header is at address `x` as free. -/
def markFree (x : Nat) : Nat → List Blk → List Blk
  | _, [] => []
  | a, b :: bs =>
      (if a = x then ⟨b.size, true⟩ else b) :: markFree x (a + hdr + b.size) bs

/-- Join every run of neighbouring free blocks into one. -/
def merge : List Blk → List Blk
  | [] => []
  | [b] => [b]
  | b :: c :: bs =>
      if b.free = true ∧ c.free = true then
        merge (⟨b.size + (hdr + c.size), true⟩ :: bs)
      else b :: merge (c :: bs)
termination_by bs => bs.length

theorem markFree_size (x a : Nat) (b : Blk) :
    (if a = x then (⟨b.size, true⟩ : Blk) else b).size = b.size := by
  split <;> rfl

theorem markFree_span (x a : Nat) (bs : List Blk) :
    span hdr (markFree hdr x a bs) = span hdr bs := by
  induction bs generalizing a with
  | nil => rfl
  | cons b bs ih => simp only [markFree, span, markFree_size, ih]

theorem markFree_length (x a : Nat) (bs : List Blk) :
    (markFree hdr x a bs).length = bs.length := by
  induction bs generalizing a with
  | nil => rfl
  | cons b bs ih => simp [markFree, ih]

/-- Marking moves no header. -/
theorem mem_positions_markFree {y : Nat} {bs : List Blk} {b : Blk}
    (h : (y, b) ∈ positions hdr a (markFree hdr x a bs)) : ∃ c, (y, c) ∈ positions hdr a bs := by
  induction bs generalizing a with
  | nil => simp [markFree, positions] at h
  | cons c bs ih =>
      simp only [markFree, positions, List.mem_cons, markFree_size] at h
      rcases h with h | h
      · obtain ⟨rfl, -⟩ := Prod.mk.inj h
        exact ⟨c, List.mem_cons_self⟩
      · obtain ⟨d, hd⟩ := ih h
        exact ⟨d, List.mem_cons_of_mem _ hd⟩

/-- Marking removes exactly the marked address from the allocated blocks. -/
theorem markFree_taken (x a : Nat) (bs : List Blk) :
    taken hdr a (markFree hdr x a bs) = (taken hdr a bs).filter fun q => q.1 ≠ x := by
  induction bs generalizing a with
  | nil => rfl
  | cons b bs ih =>
      by_cases hax : a = x
      · have hf : (markFree hdr x a (b :: bs)) =
            ⟨b.size, true⟩ :: markFree hdr x (a + hdr + b.size) bs := by
          simp [markFree, hax]
        rw [hf, taken_cons_free hdr rfl, ih]
        cases hb : b.free with
        | true => rw [taken_cons_free hdr hb]
        | false => rw [taken_cons_used hdr hb, List.filter_cons_of_neg (by simp [hax])]
      · have hf : (markFree hdr x a (b :: bs)) =
            b :: markFree hdr x (a + hdr + b.size) bs := by
          simp [markFree, hax]
        rw [hf]
        cases hb : b.free with
        | true => rw [taken_cons_free hdr hb, taken_cons_free hdr hb, ih]
        | false =>
            rw [taken_cons_used hdr hb, taken_cons_used hdr hb, ih,
              List.filter_cons_of_pos (by simpa using hax)]

theorem merge_span (bs : List Blk) : span hdr (merge hdr bs) = span hdr bs := by
  induction bs using merge.induct hdr with
  | case1 => simp [merge]
  | case2 b => simp [merge]
  | case3 b c bs h ih =>
      rw [merge, if_pos h, ih]
      simp only [span]
      omega
  | case4 b c bs h ih =>
      rw [merge, if_neg h, span, ih]
      rfl

theorem merge_taken (a : Nat) (bs : List Blk) :
    taken hdr a (merge hdr bs) = taken hdr a bs := by
  induction bs using merge.induct hdr generalizing a with
  | case1 => simp [merge]
  | case2 b => simp [merge]
  | case3 b c bs h ih =>
      have haddr : a + hdr + (b.size + (hdr + c.size)) =
          a + hdr + b.size + hdr + c.size := by omega
      rw [merge, if_pos h, ih, taken_cons_free hdr rfl, taken_cons_free hdr h.1,
        taken_cons_free hdr h.2, haddr]
  | case4 b c bs h ih =>
      rw [merge, if_neg h]
      cases hb : b.free with
      | true => rw [taken_cons_free hdr hb, taken_cons_free hdr hb, ih]
      | false => rw [taken_cons_used hdr hb, taken_cons_used hdr hb, ih]

theorem merge_head_free (b : Blk) (bs : List Blk) :
    ∃ r rs, merge hdr (b :: bs) = r :: rs ∧ r.free = b.free := by
  induction hn : bs.length generalizing b bs with
  | zero =>
      obtain rfl := List.length_eq_zero_iff.mp hn
      exact ⟨b, [], by simp [merge], rfl⟩
  | succ n ih =>
      cases bs with
      | nil => simp at hn
      | cons c bs =>
          by_cases h : b.free = true ∧ c.free = true
          · obtain ⟨r, rs, hr, hfree⟩ := ih ⟨b.size + (hdr + c.size), true⟩ bs (by simpa using hn)
            exact ⟨r, rs, by rw [merge, if_pos h, hr], by rw [hfree, h.1]⟩
          · exact ⟨b, merge hdr (c :: bs), by rw [merge, if_neg h], rfl⟩

/-- One joining pass leaves no two neighbouring free blocks. -/
theorem merge_noFreePair (bs : List Blk) : NoFreePair (merge hdr bs) := by
  induction bs using merge.induct hdr with
  | case1 => simp [merge, NoFreePair]
  | case2 b => simp [merge, NoFreePair]
  | case3 b c bs h ih =>
      rw [merge, if_pos h]
      exact ih
  | case4 b c bs h ih =>
      rw [merge, if_neg h]
      obtain ⟨r, rs, hr, hfree⟩ := merge_head_free hdr c bs
      rw [hr] at ih ⊢
      exact ⟨by rw [hfree]; exact h, ih⟩

/-- With nothing allocated and no two neighbouring free blocks there is at
most one block, and it covers the whole span. -/
theorem eq_single_of_taken_nil {bs : List Blk} (hne : bs ≠ []) (hpair : NoFreePair bs)
    (htaken : taken hdr a bs = []) : bs = [⟨span hdr bs - hdr, true⟩] := by
  have hfree : ∀ b ∈ bs, b.free = true := by
    clear hne hpair
    induction bs generalizing a with
    | nil => simp
    | cons b bs ih =>
        cases hb : b.free with
        | false => simp [taken_cons_used hdr hb] at htaken
        | true =>
            rw [taken_cons_free hdr hb] at htaken
            simpa [hb] using ih htaken
  match bs, hne, hpair, hfree with
  | [b], _, _, hfree =>
      have hb : b.free = true := hfree b (by simp)
      have hsize : span hdr [b] - hdr = b.size := by simp [span]
      rw [hsize, ← hb]
  | b :: c :: bs, _, hpair, hfree =>
      exact absurd ⟨hfree b (by simp), hfree c (by simp)⟩ hpair.1

/-! ## Header cells in memory -/

/-- One header cell: payload size, free mark and the address of the next
header, zero at the end of the list. -/
structure Cell where
  size : Nat
  free : Bool
  next : Nat
  deriving Repr, DecidableEq

/-- The next field of a block at `a` followed by the blocks `bs`. -/
def link (a : Nat) (b : Blk) (bs : List Blk) : Nat :=
  if bs = [] then 0 else a + hdr + b.size

/-- The memory `m` holds the headers of the block list `bs` from address `a`. -/
def Linked (m : Nat → Cell) : Nat → List Blk → Prop
  | _, [] => True
  | a, b :: bs =>
      m a = ⟨b.size, b.free, link hdr a b bs⟩ ∧ Linked m (a + hdr + b.size) bs

theorem Linked.congr {m m' : Nat → Cell} {bs : List Blk} (heq : ∀ x, a ≤ x → m' x = m x)
    (h : Linked hdr m a bs) : Linked hdr m' a bs := by
  induction bs generalizing a with
  | nil => trivial
  | cons b bs ih =>
      refine ⟨by rw [heq a (Nat.le_refl _)]; exact h.1, ih ?_ h.2⟩
      intro x hx
      exact heq x (by omega)

/-- The list depends on the cells of its headers only. -/
theorem Linked.of_positions {m m' : Nat → Cell} {bs : List Blk}
    (heq : ∀ q ∈ positions hdr a bs, m' q.1 = m q.1) (h : Linked hdr m a bs) :
    Linked hdr m' a bs := by
  induction bs generalizing a with
  | nil => trivial
  | cons b bs ih =>
      have hhead : m' a = m a := heq (a, b) List.mem_cons_self
      refine ⟨hhead.trans h.1, ih ?_ h.2⟩
      exact fun q hq => heq q (List.mem_cons_of_mem _ hq)

/-- Writing below a list leaves the list as it is. -/
theorem Linked.update {m : Nat → Cell} {bs : List Blk} (hx : x < a) (c : Cell)
    (h : Linked hdr m a bs) : Linked hdr (Function.update m x c) a bs :=
  h.congr hdr fun y hy => Function.update_of_ne (by omega) c m

/-- The list from a block on. -/
theorem Linked.suffix {m : Nat → Cell} {pre bs : List Blk} (h : Linked hdr m a (pre ++ bs)) :
    Linked hdr m (a + span hdr pre) bs := by
  induction pre generalizing a with
  | nil => simpa [span] using h
  | cons b pre ih =>
      have hrest := ih h.2
      rwa [show a + hdr + b.size + span hdr pre = a + span hdr (b :: pre) by
        simp only [span]; omega] at hrest

/-- The list behind a block is exchanged. -/
theorem Linked.splice {m m' : Nat → Cell} {pre bs cs : List Blk} (hpos : 0 < hdr)
    (h : Linked hdr m a (pre ++ bs)) (hbs : bs ≠ []) (hcs : cs ≠ [])
    (hsame : ∀ x, x < a + span hdr pre → m' x = m x)
    (hlinked : Linked hdr m' (a + span hdr pre) cs) : Linked hdr m' a (pre ++ cs) := by
  induction pre generalizing a with
  | nil => simpa [span] using hlinked
  | cons b pre ih =>
      have haddr : a + hdr + b.size + span hdr pre = a + span hdr (b :: pre) := by
        simp only [span]
        omega
      have hlink : link hdr a b (pre ++ cs) = link hdr a b (pre ++ bs) := by
        simp [link, hbs, hcs]
      have hhead : m' a = ⟨b.size, b.free, link hdr a b (pre ++ cs)⟩ := by
        rw [hsame a (by simp only [span]; omega), hlink]
        exact h.1
      refine ⟨hhead, ih h.2 ?_ ?_⟩
      · rwa [haddr]
      · rwa [haddr]

/-- A block is put behind the last one. -/
theorem Linked.snoc {m : Nat → Cell} {pre : List Blk} {b c : Blk} (hpos : 0 < hdr)
    (h : Linked hdr m a (pre ++ [b])) :
    Linked hdr (Function.update (Function.update m (a + span hdr (pre ++ [b]))
        ⟨c.size, c.free, 0⟩) (a + span hdr pre) ⟨b.size, b.free, a + span hdr (pre ++ [b])⟩) a
      (pre ++ [b, c]) := by
  have hspan : span hdr (pre ++ [b]) = span hdr pre + (hdr + b.size) := by
    rw [span_append]
    rfl
  refine h.splice hdr hpos (by simp) (by simp) ?_ ?_
  · intro x hx
    rw [Function.update_of_ne (by omega), Function.update_of_ne (by omega)]
  · have haddr : a + span hdr (pre ++ [b]) = a + span hdr pre + hdr + b.size := by omega
    refine ⟨?_, ?_, trivial⟩
    · rw [Function.update_self, haddr]
      rfl
    · rw [← haddr, Function.update_of_ne (by omega), Function.update_self]
      rfl

@[simp] theorem link_nil (a : Nat) (b : Blk) : link hdr a b [] = 0 := rfl

@[simp] theorem link_cons (a : Nat) (b c : Blk) (bs : List Blk) :
    link hdr a b (c :: bs) = a + hdr + b.size := rfl

end OriaOS.Lib.BlockList
