import OriaOS.Heap.User

/-!
# Where the heap of a program may start

The heap of a program keeps its promises in every run if and only if the image stops at
a page boundary and not behind the address where the kernel takes the heap to start.
Behind it, the first `SYS_BRK` maps pages over the image; inside a page, the first block
shares the page with the image.
-/

namespace OriaOS.Heap.User

open Lib Lib.BlockList

variable {b : Blk} {n : Int} {pre : List Blk} {a : Nat}

/-! ## `SYS_BRK` -/

/-- The heap has grown at its end, in whole pages; what lies below is as before. -/
structure Extends (h h' : UHeap) : Prop where
  heapEnd : h.heapEnd ≤ h'.heapEnd
  whole : h'.heapEnd % 0x1000 = 0
  uheap : h'.uheap = h.uheap
  ubrk : h'.ubrk = h.ubrk
  byte : ∀ x, x < h.heapEnd → h'.byte x = h.byte x
  mem : ∀ a, a + headerSize ≤ h.heapEnd → h'.mem a = h.mem a

section Brk
variable {h h' h'' : UHeap} {r : Reply} {k newEnd : Nat}

theorem Extends.refl (hwhole : h.heapEnd % 0x1000 = 0) : Extends h h :=
  ⟨Nat.le_refl _, hwhole, rfl, rfl, fun _ _ => rfl, fun _ _ => rfl⟩

theorem Extends.trans (a : Extends h h') (b : Extends h' h'') : Extends h h'' where
  heapEnd := a.heapEnd.trans b.heapEnd
  whole := b.whole
  uheap := b.uheap.trans a.uheap
  ubrk := b.ubrk.trans a.ubrk
  byte := fun x hx => (b.byte x (hx.trans_le a.heapEnd)).trans (a.byte x hx)
  mem := fun x hx => (b.mem x (hx.trans a.heapEnd)).trans (a.mem x hx)

theorem mapFresh_heapEnd (r : Reply) (k : Nat) (h : UHeap) :
    (mapFresh r k h).heapEnd = (k + 1) * 0x1000 := by
  unfold mapFresh
  split <;> rfl

/-- A page that is mapped at the end lies behind all that was there. -/
theorem mapFresh_extends (r : Reply) (hk : h.heapEnd = k * 0x1000) :
    Extends h (mapFresh r k h) := by
  constructor
  case heapEnd =>
    rw [mapFresh_heapEnd]
    omega
  case whole =>
    rw [mapFresh_heapEnd]
    omega
  case uheap => unfold mapFresh; split <;> rfl
  case ubrk => unfold mapFresh; split <;> rfl
  case byte =>
    intro x hx
    unfold mapFresh
    split
    · exact if_neg (by omega)
    · rfl
  case mem =>
    intro a ha
    unfold mapFresh
    split
    · refine if_neg ?_
      simp only [headerSize] at ha ⊢
      omega
    · rfl

theorem brkLoop_extends (r : Reply) (newEnd frames : Nat) (hk : h.heapEnd = k * 0x1000) :
    Extends h (brkLoop r newEnd frames k h) := by
  induction frames generalizing k h with
  | zero => exact Extends.refl (by omega)
  | succ frames ih =>
      rw [brkLoop]
      split
      · apply (mapFresh_extends r hk).trans
        apply ih
        exact mapFresh_heapEnd r k h
      · exact Extends.refl (by omega)

/-- The loop does not go beyond the new end. -/
theorem brkLoop_le (r : Reply) (frames : Nat) (hk : h.heapEnd = k * 0x1000)
    (hend : newEnd % 0x1000 = 0) :
    (brkLoop r newEnd frames k h).heapEnd ≤ max h.heapEnd newEnd := by
  induction frames generalizing k h with
  | zero => exact le_max_left _ _
  | succ frames ih =>
      rw [brkLoop]
      split
      · have hle := ih (mapFresh_heapEnd r k h)
        rw [mapFresh_heapEnd] at hle
        omega
      · exact le_max_left _ _

/-- With frames enough the loop comes to the new end. -/
theorem le_brkLoop (r : Reply) (frames : Nat) (hk : h.heapEnd = k * 0x1000)
    (hframes : newEnd ≤ (k + frames) * 0x1000) :
    newEnd ≤ (brkLoop r newEnd frames k h).heapEnd := by
  induction frames generalizing k h with
  | zero =>
      rw [brkLoop, hk]
      exact hframes
  | succ frames ih =>
      rw [brkLoop]
      split
      · have hnext : newEnd ≤ (k + 1 + frames) * 0x1000 := by
          rw [show k + 1 + frames = k + (frames + 1) by omega]
          exact hframes
        apply ih _ hnext
        exact mapFresh_heapEnd r k h
      · omega

/-- A `SYS_BRK` returns the end of the heap, which it may have moved. -/
theorem sysBrk_spec (r : Reply) (hwhole : h.heapEnd % 0x1000 = 0) (hend : newEnd % 0x1000 = 0)
    (hlimit : h.heapEnd ≤ brkLimit) :
    Extends h (sysBrk h newEnd r).1 ∧ (sysBrk h newEnd r).2 = (sysBrk h newEnd r).1.heapEnd ∧
      (sysBrk h newEnd r).1.heapEnd ≤ brkLimit := by
  unfold sysBrk
  split
  · exact ⟨Extends.refl hwhole, rfl, hlimit⟩
  · next hno =>
    have hk : h.heapEnd = h.heapEnd / 0x1000 * 0x1000 := by omega
    have hle := brkLoop_le r r.frames hk hend
    refine ⟨brkLoop_extends r newEnd r.frames hk, rfl, ?_⟩
    dsimp only
    omega

end Brk

/-! ## The invariant of the list -/

/-- The list, and the two ends. -/
structure Core (e : Nat) (image : Nat → UInt8) (h : UHeap) (bs : List Blk) : Prop where
  head : h.uheap = if bs = [] then 0 else e
  linked : Linked headerSize h.mem e bs
  tiles : bs ≠ [] → e + span headerSize bs = h.ubrk ∧ h.heapEnd = h.ubrk
  empty : bs = [] → h.heapEnd = userHeapStart ∧ h.ubrk ≤ e
  low : userHeapStart ≤ h.heapEnd
  high : h.heapEnd ≤ brkLimit
  whole : h.heapEnd % 0x1000 = 0
  image : ∀ x, x < e → h.byte x = image x

/-- A header written behind an address leaves the bytes before it. -/
theorem stamp_below {old new : Nat → Cell} {junk byte : Nat → UInt8} {e x : Nat}
    (hsame : ∀ a, a < e → new a = old a) (hx : x < e) : stamp old new junk byte x = byte x := by
  have hno : written old new x = false := by
    rw [written, List.any_eq_false]
    intro d _
    rw [decide_eq_true_eq]
    rintro ⟨-, hne⟩
    exact hne (hsame _ (by omega))
  rw [stamp, hno]
  rfl

theorem lastBlock_spec {m : Nat → Cell} {fuel : Nat} (hl : Linked headerSize m a (pre ++ [b]))
    (hfuel : pre.length < fuel) : lastBlock m fuel a = some (a + span headerSize pre) := by
  induction pre generalizing a fuel with
  | nil =>
      obtain ⟨fuel, rfl⟩ : ∃ f, fuel = f + 1 := ⟨fuel - 1, by omega⟩
      have hcell : m a = ⟨b.size, b.free, 0⟩ := hl.1
      simp [lastBlock, hcell, BlockList.span]
  | cons c pre ih =>
      obtain ⟨fuel, rfl⟩ : ∃ f, fuel = f + 1 := ⟨fuel - 1, by omega⟩
      have hcell : m a = ⟨c.size, c.free, link headerSize a c (pre ++ [b])⟩ := hl.1
      have hlink : link headerSize a c (pre ++ [b]) = a + headerSize + c.size := by
        simp [link]
      have hnext : (m a).next = a + headerSize + c.size := by rw [hcell, hlink]
      have hnz : ¬ (m a).next = 0 := by
        rw [hnext]
        simp only [headerSize]
        omega
      simp only [List.length_cons] at hfuel
      rw [lastBlock, if_neg hnz, hnext, ih hl.2 (by omega)]
      simp only [BlockList.span]
      congr 1
      omega


section Growth
variable {e : Nat} {image : Nat → UInt8} {h h' : UHeap} {bs : List Blk}

/-- The list lies below the end, and growing keeps it. -/
theorem Core.linked_extends (c : Core e image h bs) (x : Extends h h') :
    Linked headerSize h'.mem e bs := by
  apply c.linked.of_positions
  intro q hq
  apply x.mem
  have hne : bs ≠ [] := by
    rintro rfl
    cases hq
  have hbound := (positions_bounds headerSize hq).2
  have htiles := c.tiles hne
  omega

theorem Core.image_extends (c : Core e image h bs) (x : Extends h h')
    (hhigh : e ≤ userHeapStart) : ∀ y, y < e → h'.byte y = image y := by
  intro y hy
  rw [x.byte y (by have := c.low; omega), c.image y hy]

/-- A `SYS_BRK` that gives nothing leaves the heap as it is. -/
theorem Core.refused (c : Core e image h bs) (x : Extends h h') (hhigh : e ≤ userHeapStart)
    (hlimit : h'.heapEnd ≤ brkLimit) (hgot : h'.heapEnd ≤ h.ubrk) : Core e image h' bs := by
  have hends := x.heapEnd
  have hlow := c.low
  constructor
  case head => rw [x.uheap, c.head]
  case linked => exact c.linked_extends x
  case tiles =>
    intro hne
    have htiles := c.tiles hne
    rw [x.ubrk]
    omega
  case empty =>
    intro hnil
    have hempty := c.empty hnil
    rw [x.ubrk]
    omega
  case low => omega
  case high => exact hlimit
  case whole => exact x.whole
  case image => exact c.image_extends x hhigh

/-- The first block, in an empty list. -/
def putFirst (h h' : UHeap) (junk : Nat → UInt8) : UHeap :=
  let mem := Function.update h'.mem h.ubrk ⟨h'.heapEnd - h.ubrk - headerSize, true, 0⟩
  { h' with
    mem := mem, byte := stamp h'.mem mem junk h'.byte, uheap := h.ubrk, ubrk := h'.heapEnd }

/-- A further block, behind the last one at `p`. -/
def putLast (h h' : UHeap) (p : Nat) (b : Blk) (junk : Nat → UInt8) : UHeap :=
  let mem := Function.update
    (Function.update h'.mem h.ubrk ⟨h'.heapEnd - h.ubrk - headerSize, true, 0⟩) p
    ⟨b.size, b.free, h.ubrk⟩
  { h' with mem := mem, byte := stamp h'.mem mem junk h'.byte, ubrk := h'.heapEnd }

theorem Core.putFirst (c : Core e image h []) (x : Extends h h') (hplace : e % 0x1000 = 0)
    (hhigh : e ≤ userHeapStart) (hlimit : h'.heapEnd ≤ brkLimit) (hbase : h.ubrk = e)
    (hgot : h.ubrk < h'.heapEnd) (junk : Nat → UInt8) :
    Core e image (putFirst h h' junk) [⟨h'.heapEnd - h.ubrk - headerSize, true⟩] := by
  have hwhole := x.whole
  constructor
  case head => simp [User.putFirst, hbase]
  case linked =>
    refine ⟨?_, trivial⟩
    simp only [User.putFirst, hbase, Function.update_self]
    rfl
  case tiles =>
    refine fun _ => ⟨?_, rfl⟩
    simp only [User.putFirst, BlockList.span, headerSize]
    omega
  case empty => simp
  case low => exact c.low.trans x.heapEnd
  case high => exact hlimit
  case whole => exact hwhole
  case image =>
    intro y hy
    simp only [User.putFirst]
    rw [stamp_below _ hy, c.image_extends x hhigh y hy]
    intro a ha
    exact Function.update_of_ne (by omega) _ _

theorem Core.putLast (c : Core e image h (pre ++ [b])) (x : Extends h h')
    (hhigh : e ≤ userHeapStart) (hlimit : h'.heapEnd ≤ brkLimit) (hgot : h.ubrk < h'.heapEnd)
    (junk : Nat → UInt8) :
    Core e image (putLast h h' (e + span headerSize pre) b junk)
      (pre ++ [b] ++ [⟨h'.heapEnd - h.ubrk - headerSize, true⟩]) := by
  obtain ⟨htop, hend⟩ := c.tiles (by simp)
  have hwhole := x.whole
  have hwhole' := c.whole
  have hlinked := c.linked_extends x
  constructor
  case head => simp [User.putLast, x.uheap, c.head]
  case linked =>
    have hsnoc := hlinked.snoc headerSize (c := ⟨h'.heapEnd - h.ubrk - headerSize, true⟩)
      (by decide)
    rw [htop] at hsnoc
    rw [List.append_assoc]
    exact hsnoc
  case tiles =>
    refine fun _ => ⟨?_, rfl⟩
    simp only [User.putLast, span_append, BlockList.span, headerSize] at htop ⊢
    omega
  case empty => simp
  case low => exact c.low.trans x.heapEnd
  case high => exact hlimit
  case whole => exact hwhole
  case image =>
    intro y hy
    simp only [User.putLast]
    rw [stamp_below _ hy, c.image_extends x hhigh y hy]
    intro a ha
    rw [Function.update_of_ne (by omega), Function.update_of_ne (by omega)]

/-- The size that a new block is given. -/
theorem sub32_eq {b : Nat} (hab : b ≤ a) (ha : a < 2 ^ 32) : sub32 a b = a - b := by
  simp only [sub32, u32]
  omega

theorem sub32_got {b : Nat} (ha : a % 0x1000 = 0) (hb : b % 0x1000 = 0) (hlt : b < a)
    (hlimit : a ≤ brkLimit) : sub32 (a - b) headerSize = a - b - headerSize := by
  apply sub32_eq
  · simp only [headerSize]
    omega
  · simp only [brkLimit] at hlimit
    omega

theorem wantedEnd_whole (ubrk need : Nat) : wantedEnd ubrk need % 0x1000 = 0 := by
  simp only [wantedEnd, brkLimit]
  omega

section Outcomes
variable {need got : Nat} {r : Reply}

theorem uheapGrow_full (r : Reply) (junk : Nat → UInt8)
    (hfull : wantedEnd h.ubrk need ≤ h.ubrk) : uheapGrow h need r junk = some (h, 0) := by
  unfold uheapGrow
  rw [if_pos hfull]

/-- What `_uheap_grow` does with the answer of `SYS_BRK`. -/
theorem uheapGrow_brk (junk : Nat → UInt8) (hfull : ¬ wantedEnd h.ubrk need ≤ h.ubrk)
    (hbrk : sysBrk h (wantedEnd h.ubrk need) r = (h', got)) :
    uheapGrow h need r junk =
      if got ≤ h.ubrk then some (h', 0)
      else
        let mem := Function.update h'.mem h.ubrk ⟨sub32 (got - h.ubrk) headerSize, true, 0⟩
        if h.uheap = 0 then
          some ({ h' with
            mem := mem, byte := stamp h'.mem mem junk h'.byte, uheap := h.ubrk, ubrk := got },
            h.ubrk)
        else
          (lastBlock mem walkBound h.uheap).map fun p =>
            let mem' := Function.update mem p { mem p with next := h.ubrk }
            ({ h' with mem := mem', byte := stamp h'.mem mem' junk h'.byte, ubrk := got },
              h.ubrk) := by
  unfold uheapGrow
  rw [if_neg hfull, hbrk]

end Outcomes

theorem length_lt_walkBound (c : Core e image h (pre ++ [b])) : pre.length < walkBound := by
  have hle := length_le_span (pre ++ [b])
  have htop := c.tiles (by simp)
  have hhi := c.high
  simp only [List.length_append, List.length_singleton, headerSize, brkLimit, walkBound] at *
  omega

/-- `_uheap_grow` puts a free block behind the list, or fails. -/
theorem uheapGrow_spec (c : Core e image h bs) (hplace : e % 0x1000 = 0)
    (hlow : userCodeBase ≤ e) (hhigh : e ≤ userHeapStart) (hstart : bs = [] → h.ubrk = e)
    (need : Nat) (r : Reply) (junk : Nat → UInt8) :
    ∃ h' nb, uheapGrow h need r junk = some (h', nb) ∧
      (nb = 0 ∧ Core e image h' bs ∨
        nb ≠ 0 ∧ h.ubrk < h'.ubrk ∧ ∃ g, Core e image h' (bs ++ [⟨g, true⟩])) := by
  have hubrk : h.ubrk % 0x1000 = 0 ∧ e ≤ h.ubrk := by
    by_cases hnil : bs = []
    · rw [hstart hnil]
      exact ⟨hplace, Nat.le_refl _⟩
    · have htiles := c.tiles hnil
      have hwhole := c.whole
      omega
  have hpos : 0 < e := by
    simp only [userCodeBase] at hlow
    omega
  have hwant := wantedEnd_whole h.ubrk need
  by_cases hfull : wantedEnd h.ubrk need ≤ h.ubrk
  · exact ⟨h, 0, uheapGrow_full r junk hfull, Or.inl ⟨rfl, c⟩⟩
  · obtain ⟨x, hgot, hlimit⟩ := sysBrk_spec r c.whole hwant c.high
    rcases hbrk : sysBrk h (wantedEnd h.ubrk need) r with ⟨h', got⟩
    rw [hbrk] at x hgot hlimit
    simp only at x hgot hlimit
    subst hgot
    have hrun := uheapGrow_brk junk hfull hbrk
    by_cases hnone : h'.heapEnd ≤ h.ubrk
    · rw [if_pos hnone] at hrun
      exact ⟨h', 0, hrun, Or.inl ⟨rfl, c.refused x hhigh hlimit hnone⟩⟩
    · have hlt : h.ubrk < h'.heapEnd := Nat.lt_of_not_le hnone
      rw [if_neg hnone, sub32_got x.whole hubrk.1 hlt hlimit] at hrun
      obtain rfl | ⟨pre, b, rfl⟩ : bs = [] ∨ ∃ pre b, bs = pre ++ [b] := by
        obtain hb | ⟨pre, b, hb⟩ := List.eq_nil_or_concat bs
        · exact Or.inl hb
        · exact Or.inr ⟨pre, b, by simpa using hb⟩
      · have hnull : h.uheap = 0 := c.head
        simp only [if_pos hnull] at hrun
        exact ⟨putFirst h h' junk, h.ubrk, hrun, Or.inr ⟨by omega, hlt, _,
          c.putFirst x hplace hhigh hlimit (hstart rfl) hlt junk⟩⟩
      · refine ⟨putLast h h' (e + span headerSize pre) b junk, h.ubrk, ?_, Or.inr ⟨by omega, hlt,
          _, c.putLast x hhigh hlimit hlt junk⟩⟩
        obtain ⟨htop, hend⟩ := c.tiles (by simp)
        have hhead : h.uheap = e := by simp [c.head]
        have hnn : ¬ e = 0 := by omega
        have hlinked := c.linked_extends x
        -- the header that is written lies behind the list
        have hkept : Linked headerSize (Function.update h'.mem h.ubrk
            ⟨h'.heapEnd - h.ubrk - headerSize, true, 0⟩) e (pre ++ [b]) := by
          apply hlinked.of_positions
          intro q hq
          have hbound := (positions_bounds headerSize hq).2
          apply Function.update_of_ne
          simp only [headerSize] at hbound htop
          omega
        have hlast := lastBlock_spec hkept (length_lt_walkBound c)
        have hcell := hkept.suffix.1
        simp only [hhead, if_neg hnn, hlast, Option.map_some, hcell] at hrun
        exact hrun

end Growth

/-! ## `malloc` and `free` -/

/-- What a `malloc` does to the taken blocks: nothing, or one is added that is large
enough. -/
def Took (e size : Nat) (bs bs' : List Blk) (p : Nat) : Prop :=
  p = 0 ∧ taken headerSize e bs' = taken headerSize e bs ∨
    ∃ a b, p = a + headerSize ∧ size ≤ b.size ∧
      (taken headerSize e bs').Perm ((a, b) :: taken headerSize e bs)

section Calls
variable {e : Nat} {image : Nat → UInt8} {h h' : UHeap} {bs bs' : List Blk}

/-- A free block behind the list is no taken one. -/
theorem taken_grown (e g : Nat) (bs : List Blk) :
    taken headerSize e (bs ++ [⟨g, true⟩]) = taken headerSize e bs := by
  simp [taken_append, taken_cons_free]

/-- The headers are rewritten in place. -/
theorem Core.rewrite (c : Core e image h bs) (hbs : bs ≠ []) (hbs' : bs' ≠ []) {mem : Nat → Cell}
    (hlinked : Linked headerSize mem e bs') (hspan : span headerSize bs' = span headerSize bs)
    (hsame : ∀ a, a < e → mem a = h.mem a) (junk : Nat → UInt8) :
    Core e image { h with mem := mem, byte := stamp h.mem mem junk h.byte } bs' := by
  constructor
  case head => rw [if_neg hbs', c.head, if_neg hbs]
  case linked => exact hlinked
  case tiles =>
    intro _
    rw [hspan]
    exact c.tiles hbs
  case empty => exact fun hnil => absurd hnil hbs'
  case low => exact c.low
  case high => exact c.high
  case whole => exact c.whole
  case image =>
    intro x hx
    exact (stamp_below hsame hx).trans (c.image x hx)

theorem Core.span_le (c : Core e image h bs) (hlow : userCodeBase ≤ e) :
    span headerSize bs ≤ heapSize := by
  by_cases hnil : bs = []
  · simp [hnil, BlockList.span]
  · have htiles := c.tiles hnil
    have hhigh := c.high
    simp only [userCodeBase, brkLimit, heapSize] at *
    omega

/-- The block at the end of a part of the list is taken. -/
theorem Core.take {post : List Blk} {size : Nat} (c : Core e image h (pre ++ b :: post))
    (hlow : userCodeBase ≤ e) (hfit : b.free = true ∧ size ≤ b.size) (junk : Nat → UInt8) :
    let mem := takeBlock size (e + span headerSize pre) h.mem
    ∃ bs', Core e image { h with mem := mem, byte := stamp h.mem mem junk h.byte } bs' ∧
      Took e size (pre ++ b :: post) bs' (e + span headerSize pre + headerSize) := by
  have hspan := c.span_le hlow
  have hpost : span headerSize (b :: post) ≤ heapSize := by
    rw [span_append] at hspan
    omega
  have htake := takeBlock_linked c.linked.suffix hfit.2 hpost
  obtain ⟨rest, hfirst, hrest⟩ : ∃ rest, firstFit headerSize 4 size (b :: post) = some (0, rest) ∧
      Linked headerSize (takeBlock size (e + span headerSize pre) h.mem)
        (e + span headerSize pre) rest := by
    by_cases hsplit : size + headerSize + 4 ≤ b.size
    · rw [if_pos hsplit] at htake
      exact ⟨_, by simp only [firstFit, if_pos hfit, if_pos hsplit], htake⟩
    · rw [if_neg hsplit] at htake
      exact ⟨_, by simp only [firstFit, if_pos hfit, if_neg hsplit], htake⟩
  have hrestspan := firstFit_span headerSize hfirst
  have hne : rest ≠ [] := by
    rintro rfl
    simp only [BlockList.span, headerSize] at hrestspan
    omega
  have hbelow : ∀ x, x < e + span headerSize pre →
      takeBlock size (e + span headerSize pre) h.mem x = h.mem x := by
    intro x hx
    exact takeBlock_frame (by omega) fun _ => by omega
  refine ⟨pre ++ rest, ?_, Or.inr ?_⟩
  · apply c.rewrite (by simp) (by simp [hne])
    · exact c.linked.splice headerSize (by decide) (by simp) hne hbelow hrest
    · rw [span_append, span_append, hrestspan]
    · exact fun a ha => hbelow a (by omega)
  · obtain ⟨d, -, hd, hperm⟩ := firstFit_taken headerSize hfirst (e + span headerSize pre)
    refine ⟨e + span headerSize pre, d, rfl, hd, ?_⟩
    rw [taken_append, taken_append]
    exact (hperm.append_left _).trans List.perm_middle

section Turns
variable {size curr k : Nat} {reply : Nat → Reply} {junk : Nat → UInt8} {nb : Nat} (fuel : Nat)

theorem mallocLoop_refused (hcurr : ¬ curr = 0)
    (hfit : ¬ ((h.mem curr).free = true ∧ size ≤ (h.mem curr).size))
    (hend : (h.mem curr).next = 0) (hgrow : uheapGrow h size (reply k) junk = some (h', 0)) :
    mallocLoop size reply junk (fuel + 1) curr k h = some (h', 0) := by
  simp only [mallocLoop, if_neg hcurr, if_neg hfit, if_pos hend, hgrow, if_true]

theorem mallocLoop_grown (hcurr : ¬ curr = 0)
    (hfit : ¬ ((h.mem curr).free = true ∧ size ≤ (h.mem curr).size))
    (hend : (h.mem curr).next = 0) (hgrow : uheapGrow h size (reply k) junk = some (h', nb))
    (hnb : nb ≠ 0) : mallocLoop size reply junk (fuel + 1) curr k h =
      mallocLoop size reply junk fuel curr (k + 1) h' := by
  simp only [mallocLoop, if_neg hcurr, if_neg hfit, if_pos hend, hgrow, if_neg hnb]

theorem mallocLoop_next {next : Nat} (hcurr : ¬ curr = 0)
    (hcell : h.mem curr = ⟨b.size, b.free, next⟩) (hfit : ¬ (b.free = true ∧ size ≤ b.size))
    (hnext : ¬ next = 0) : mallocLoop size reply junk (fuel + 1) curr k h =
      mallocLoop size reply junk fuel next k h := by
  simp only [mallocLoop, if_neg hcurr, hcell, if_neg hfit, if_neg hnext]

end Turns

/-- The loop of `malloc` returns: with a block of the list, with one of a page that it
was given, or with nothing. -/
theorem mallocLoop_spec (hplace : e % 0x1000 = 0) (hlow : userCodeBase ≤ e)
    (hhigh : e ≤ userHeapStart) (size : Nat) (reply : Nat → Reply) (junk : Nat → UInt8)
    (fuel k : Nat) (pre : List Blk) {suf : List Blk} (c : Core e image h (pre ++ suf))
    (hne : suf ≠ [])
    (hfuel : suf.length + 2 * ((brkLimit - h.ubrk) / 0x1000) < fuel) :
    ∃ h' p bs', mallocLoop size reply junk fuel (e + span headerSize pre) k h = some (h', p) ∧
      Core e image h' bs' ∧ Took e size (pre ++ suf) bs' p := by
  induction fuel generalizing k h pre suf with
  | zero => omega
  | succ fuel ih =>
      obtain ⟨b, post, rfl⟩ := List.exists_cons_of_ne_nil hne
      have hcell := c.linked.suffix.1
      have hcurr : ¬ e + span headerSize pre = 0 := by
        simp only [userCodeBase] at hlow
        omega
      by_cases hfit : b.free = true ∧ size ≤ b.size
      · obtain ⟨bs', hc, htook⟩ := c.take hlow hfit junk
        refine ⟨_, _, bs', ?_, hc, htook⟩
        simp only [mallocLoop, if_neg hcurr, hcell, if_pos hfit]
      · cases post with
        | nil =>
            have hfree : ¬ ((h.mem (e + span headerSize pre)).free = true ∧
                size ≤ (h.mem (e + span headerSize pre)).size) := by
              rw [hcell]
              exact hfit
            have hend : (h.mem (e + span headerSize pre)).next = 0 := by
              rw [hcell]
              rfl
            obtain ⟨h', nb, hgrow, ⟨hnb, hc⟩ | ⟨hnb, hlt, g, hc⟩⟩ :=
              uheapGrow_spec c hplace hlow hhigh (by simp) size (reply k) junk
            · subst hnb
              exact ⟨h', 0, _, mallocLoop_refused fuel hcurr hfree hend hgrow, hc,
                Or.inl ⟨rfl, rfl⟩⟩
            · have hends := c.tiles (by simp)
              have hends' := hc.tiles (by simp)
              have hwhole := c.whole
              have hwhole' := hc.whole
              have hlimit := hc.high
              rw [List.append_assoc] at hc
              have hless : ([b] ++ [⟨g, true⟩] : List Blk).length +
                  2 * ((brkLimit - h'.ubrk) / 0x1000) < fuel := by
                simp only [List.length_append, List.length_singleton] at hfuel ⊢
                omega
              obtain ⟨h'', p, bs', hrun, hc', htook⟩ := ih (k + 1) _ hc (by simp) hless
              refine ⟨h'', p, bs', (mallocLoop_grown fuel hcurr hfree hend hgrow hnb).trans hrun, hc',
                ?_⟩
              rw [← List.append_assoc] at htook
              unfold Took at htook ⊢
              rwa [taken_grown] at htook
        | cons d post =>
            have hnext : mallocLoop size reply junk (fuel + 1) (e + span headerSize pre) k h =
                mallocLoop size reply junk fuel (e + span headerSize (pre ++ [b])) k h := by
              have haddr : e + span headerSize (pre ++ [b]) =
                  e + span headerSize pre + headerSize + b.size := by
                simp only [span_append, BlockList.span]
                omega
              rw [haddr]
              apply mallocLoop_next fuel hcurr hcell hfit
              simp only [link_cons]
              omega
            have hsplit : pre ++ b :: d :: post = pre ++ [b] ++ d :: post := by simp
            rw [hsplit] at c ⊢
            rw [hnext]
            exact ih k _ c (by simp) (by simp only [List.length_cons] at hfuel ⊢; omega)

theorem walk_fuel (c : Core e image h bs) (hlow : userCodeBase ≤ e) (hne : bs ≠ []) :
    bs.length + 2 * ((brkLimit - h.ubrk) / 0x1000) < walkBound := by
  have hle := length_le_span bs
  have htiles := c.tiles hne
  have hhigh := c.high
  simp only [userCodeBase, headerSize, brkLimit, walkBound] at *
  omega

theorem malloc_spec (c : Core e image h bs) (hplace : e % 0x1000 = 0) (hlow : userCodeBase ≤ e)
    (hhigh : e ≤ userHeapStart) (hn : 0 < n) (reply : Nat → Reply) (junk : Nat → UInt8) :
    ∃ h' p bs', malloc e h n reply junk = some (h', p) ∧ Core e image h' bs' ∧
      Took e (roundUp n.toNat) bs bs' p := by
  have hpos : ¬ n ≤ 0 := by omega
  by_cases hnil : bs = []
  · subst hnil
    have hnull : h.uheap = 0 := c.head
    have hc : Core e image { h with ubrk := e } [] :=
      ⟨c.head, trivial, fun hne => absurd rfl hne, fun _ => ⟨(c.empty rfl).1, Nat.le_refl _⟩,
        c.low, c.high, c.whole, c.image⟩
    obtain ⟨h', nb, hgrow, ⟨hnb, hc'⟩ | ⟨hnb, -, g, hc'⟩⟩ :=
      uheapGrow_spec hc hplace hlow hhigh (fun _ => rfl) (roundUp n.toNat) (reply 0) junk
    · refine ⟨h', 0, [], ?_, hc', Or.inl ⟨rfl, rfl⟩⟩
      simp only [malloc, if_neg hpos, if_pos hnull, hgrow, if_pos hnb]
    · obtain ⟨h'', p, bs', hrun, hc'', htook⟩ := mallocLoop_spec hplace hlow hhigh
        (roundUp n.toNat) reply junk walkBound 1 [] hc' (by simp)
          (walk_fuel hc' hlow (by simp))
      refine ⟨h'', p, bs', ?_, hc'', ?_⟩
      · have hhead : h'.uheap = e := hc'.head
        simp only [malloc, if_neg hpos, if_pos hnull, hgrow, if_neg hnb, hhead]
        exact hrun
      · unfold Took at htook ⊢
        rwa [taken_grown] at htook
  · have hhead : h.uheap = e := by rw [c.head, if_neg hnil]
    have hnn : ¬ e = 0 := by
      simp only [userCodeBase] at hlow
      omega
    obtain ⟨h', p, bs', hrun, hc, htook⟩ := mallocLoop_spec hplace hlow hhigh
      (roundUp n.toNat) reply junk walkBound 0 [] c hnil (walk_fuel c hlow hnil)
    refine ⟨h', p, bs', ?_, hc, htook⟩
    simp only [malloc, if_neg hpos, hhead, if_neg hnn]
    exact hrun

/-- `free` returns, and takes one block from the taken ones. -/
theorem free_spec (c : Core e image h bs) (hlow : userCodeBase ≤ e)
    (hb : (a, b) ∈ taken headerSize e bs) (junk : Nat → UInt8) :
    ∃ h' bs', free h (a + headerSize) junk = some h' ∧ Core e image h' bs' ∧
      taken headerSize e bs' = (taken headerSize e bs).filter fun q => q.1 ≠ a := by
  have hpos := ((mem_taken headerSize).mp hb).1
  have hne : bs ≠ [] := by
    rintro rfl
    cases hpos
  have hlower := (positions_bounds headerSize hpos).1
  have hnz : ¬ a + headerSize = 0 := by
    simp only [headerSize]
    omega
  have hhead : h.uheap = e := by rw [c.head, if_neg hne]
  have hfuel := walk_fuel c hlow hne
  obtain ⟨mem, hrun, hlinked, hframe⟩ := coalesceLoop_spec walkBound
    (linked_markFree (x := a) c.linked) (markFree_ne_nil hne)
    (by simp only [userCodeBase] at hlow; omega) (by rw [markFree_length]; omega)
    (by rw [markFree_span]; exact c.span_le hlow)
  refine ⟨_, merge headerSize (markFree headerSize a e bs), ?_,
    c.rewrite hne ?_ hlinked ?_ ?_ junk, ?_⟩
  · rw [free, if_neg hnz]
    simp only [Nat.add_sub_cancel, hhead, hrun, Option.map_some]
  · obtain ⟨d, ds, hd⟩ := List.exists_cons_of_ne_nil (markFree_ne_nil (x := a) (a := e) hne)
    obtain ⟨r, rs, hr, -⟩ := merge_head_free headerSize d ds
    rw [hd, hr]
    simp
  · rw [merge_span, markFree_span]
  · intro x hx
    have hkept := hframe x fun d hd => by
      have := (positions_bounds headerSize hd).1
      simp only at this
      omega
    rwa [Function.update_of_ne (by simp only at hlower; omega)] at hkept
  · rw [merge_taken, markFree_taken]

end Calls

/-! ## Every run -/

/-- The list is as it should be, and its taken blocks are the live payloads. -/
structure UInv (e : Nat) (s : URun) (bs : List Blk) : Prop where
  core : Core e s.image s.heap bs
  live : (s.live.map Prod.fst).Perm ((taken headerSize e bs).map fun q => q.1 + headerSize)
  size : ∀ x ∈ s.live, ∃ b, (x.1 - headerSize, b) ∈ taken headerSize e bs ∧ x.2 ≤ b.size

section Runs
variable {e : Nat} {s : URun} {bs : List Blk}

/-- The header of a live payload. -/
theorem UInv.header (inv : UInv e s bs) {x : Nat × Int} (hx : x ∈ s.live) :
    x.1 = x.1 - headerSize + headerSize := by
  have hmem := inv.live.mem_iff.mp (List.mem_map_of_mem hx)
  obtain ⟨q, -, hq⟩ := List.mem_map.mp hmem
  omega

theorem UInv.nodup (inv : UInv e s bs) : (s.live.map Prod.fst).Nodup := by
  refine inv.live.nodup_iff.mpr ?_
  have hnodup := taken_nodup headerSize (by decide) e bs
  have hmap : (taken headerSize e bs).map (fun q => q.1 + headerSize) =
      ((taken headerSize e bs).map Prod.fst).map (· + headerSize) := by
    rw [List.map_map]
    rfl
  rw [hmap]
  exact hnodup.map fun x y h => by omega

theorem UInv.apart (inv : UInv e s bs) :
    s.live.Pairwise fun x y => Apart x.1 x.2.toNat y.1 y.2.toNat := by
  have hnodup := inv.nodup
  rw [List.Nodup, List.pairwise_map] at hnodup
  refine hnodup.imp_of_mem ?_
  intro x y hx hy hne
  obtain ⟨b, hb, hbsize⟩ := inv.size x hx
  obtain ⟨c, hc, hcsize⟩ := inv.size y hy
  have hxhead := inv.header hx
  have hyhead := inv.header hy
  obtain heq | hlt | hlt := positions_disjoint headerSize ((mem_taken _).mp hb).1
    ((mem_taken _).mp hc).1
  · have := (Prod.mk.inj heq).1
    omega
  · simp only at hlt
    exact Or.inl (by omega)
  · simp only at hlt
    exact Or.inr (by omega)

/-- Below a start at a page boundary no page of the heap holds a part of the image. -/
theorem heapPage_of_ge (hplace : e % 0x1000 = 0) (hlow : userCodeBase ≤ e) (h : UHeap) {x : Nat}
    (hx : e ≤ x) (hlimit : x < brkLimit) : HeapPage e h x := by
  refine ⟨?_, Or.inr ⟨hlow.trans hx, hlimit⟩⟩
  rintro ⟨y, -, hy, hpage⟩
  omega

theorem UInv.ok (inv : UInv e s bs) (hplace : e % 0x1000 = 0) (hlow : userCodeBase ≤ e) :
    UHeapOk e s bs where
  head := inv.core.head
  linked := inv.core.linked
  tiles := fun hne => (inv.core.tiles hne).1
  empty := fun hnil => (inv.core.empty hnil).2
  live := inv.live
  size := inv.size
  apart := inv.apart
  page := by
    intro x hx hbrk
    have hne : bs ≠ [] := by
      intro hnil
      have := (inv.core.empty hnil).2
      omega
    have htiles := inv.core.tiles hne
    have hhigh := inv.core.high
    exact heapPage_of_ge hplace hlow s.heap hx (by omega)
  image := inv.core.image

theorem uInv_malloc (inv : UInv e s bs) (hplace : e % 0x1000 = 0) (hlow : userCodeBase ≤ e)
    (hhigh : e ≤ userHeapStart) (hn : n < 2 ^ 31) (reply : Nat → Reply) (junk : Nat → UInt8) :
    ∃ s' bs', uStep e (some s) (.malloc n reply junk) = some s' ∧ UInv e s' bs' := by
  by_cases hpos : n ≤ 0
  · have hrun : malloc e s.heap n reply junk = some (s.heap, 0) := by
      rw [malloc, if_pos hpos]
    exact ⟨s, bs, by simp [uStep, hrun], inv⟩
  · obtain ⟨h', p, bs', hrun, hc, ⟨rfl, htaken⟩ | ⟨a, b, rfl, hb, hperm⟩⟩ :=
      malloc_spec inv.core hplace hlow hhigh (Int.not_le.mp hpos) reply junk
    · refine ⟨{ s with heap := h' }, bs', by simp [uStep, hrun], hc, ?_, ?_⟩
      · rw [htaken]
        exact inv.live
      · rw [htaken]
        exact inv.size
    · have hnz : ¬ a + headerSize = 0 := by
        simp only [headerSize]
        omega
      have hround := (roundUp_le (n := n.toNat) (by omega) (by omega)).1
      refine ⟨{ s with heap := h', live := (a + headerSize, n) :: s.live }, bs',
        by simp only [uStep, hrun, Option.map_some, if_neg hnz], hc, ?_, ?_⟩
      · exact (inv.live.cons _).trans (hperm.map fun q : Nat × Blk => q.1 + headerSize).symm
      · intro x hx
        obtain rfl | hx := List.mem_cons.mp hx
        · refine ⟨b, hperm.mem_iff.mpr ?_, by omega⟩
          simp
        · obtain ⟨c, hc, hcsize⟩ := inv.size x hx
          exact ⟨c, hperm.mem_iff.mpr (List.mem_cons_of_mem _ hc), hcsize⟩

theorem uInv_free (inv : UInv e s bs) (hlow : userCodeBase ≤ e) {p : Nat} (hp : (p, n) ∈ s.live)
    (junk : Nat → UInt8) : ∃ s' bs', uStep e (some s) (.free p junk) = some s' ∧ UInv e s' bs' := by
  obtain ⟨b, hb, -⟩ := inv.size _ hp
  have hhead := inv.header hp
  simp only at hb hhead
  obtain ⟨h', bs', hrun, hc, htaken⟩ := free_spec inv.core hlow hb junk
  rw [← hhead] at hrun
  refine ⟨{ s with heap := h', live := s.live.filter fun x => x.1 ≠ p }, bs',
    by simp [uStep, hrun], hc, ?_, ?_⟩
  · have hfilter := inv.live.filter fun x => x ≠ p
    rw [List.filter_map, List.filter_map] at hfilter
    have hcongr : (taken headerSize e bs).filter
        ((fun x => decide (x ≠ p)) ∘ fun q => q.1 + headerSize) =
          (taken headerSize e bs).filter fun q => decide (q.1 ≠ p - headerSize) := by
      apply List.filter_congr
      intro q _
      simp only [Function.comp_apply, decide_eq_decide]
      omega
    rw [htaken, ← hcongr]
    exact hfilter
  · intro x hx
    obtain ⟨hx, hne⟩ := List.mem_filter.mp hx
    obtain ⟨c, hc, hcsize⟩ := inv.size x hx
    have hxhead := inv.header hx
    refine ⟨c, ?_, hcsize⟩
    rw [htaken, List.mem_filter]
    refine ⟨hc, ?_⟩
    simp only [ne_eq, decide_not, Bool.not_eq_true', decide_eq_false_iff_not] at hne ⊢
    omega

theorem uLoaded_inv (e : Nat) {o : Option URun} (h : ULoaded o) :
    ∃ s bs, o = some s ∧ UInv e s bs := by
  obtain ⟨h, rfl, hhead, hbrk, hend, -⟩ := h
  refine ⟨_, [], rfl, ⟨hhead, trivial, fun hne => absurd rfl hne, fun _ => ⟨hend, ?_⟩, ?_, ?_, ?_,
    fun _ _ => rfl⟩, List.Perm.nil, by simp⟩
  · rw [hbrk]
    exact Nat.zero_le _
  · exact hend.ge
  · rw [hend]
    decide
  · rw [hend]
    decide

/-- With the image below the start that the kernel takes, and whole pages of it, every
run is fine. -/
theorem heapFits_reach (hplace : e % 0x1000 = 0) (hlow : userCodeBase ≤ e)
    (hhigh : e ≤ userHeapStart) {o : Option URun} (r : Reach ULoaded UCallable (uStep e) o) :
    HeapFits e o := by
  have hinv : ∃ s bs, o = some s ∧ UInv e s bs := by
    refine r.invariant (P := fun o => ∃ s bs, o = some s ∧ UInv e s bs) ?_ ?_
    · exact fun o h => uLoaded_inv e h
    · rintro o op ⟨s, bs, rfl, inv⟩ hcall
      cases op with
      | malloc n reply junk => exact uInv_malloc inv hplace hlow hhigh hcall reply junk
      | free p junk =>
          obtain ⟨n, hp⟩ := hcall
          exact uInv_free inv hlow hp junk
  obtain ⟨s, bs, rfl, inv⟩ := hinv
  exact ⟨s, bs, rfl, inv.ok hplace hlow⟩

end Runs

/-! ## A start that does not fit -/

section Misplaced
variable {e k newEnd : Nat} {h h' : UHeap} {r : Reply}

theorem brkLoop_mapped (r : Reply) (newEnd frames : Nat) {j : Nat} (hj : j < k) :
    (brkLoop r newEnd frames k h).mapped j = h.mapped j := by
  induction frames generalizing k h with
  | zero => rfl
  | succ frames ih =>
      rw [brkLoop]
      split
      · rw [ih (by omega)]
        unfold mapFresh
        split
        · exact Function.update_of_ne (by omega) _ _
        · rfl
      · rfl

/-- Pages below the end are not mapped. -/
theorem sysBrk_mapped (r : Reply) (newEnd : Nat) {j : Nat} (hj : j < h.heapEnd / 0x1000) :
    (sysBrk h newEnd r).1.mapped j = h.mapped j := by
  unfold sysBrk
  split
  · rfl
  · exact brkLoop_mapped r newEnd r.frames hj

/-- With frames enough and no limit the end is moved as far as was asked. -/
theorem le_sysBrk (hmem : r.memKb = 0) (hframes : 0x1000 ≤ r.frames)
    (hwhole : h.heapEnd % 0x1000 = 0) (hnz : newEnd ≠ 0) (hend : newEnd ≤ brkLimit) :
    newEnd ≤ (sysBrk h newEnd r).1.heapEnd := by
  unfold sysBrk
  split
  · next hno =>
    obtain hz | hle | hover | ⟨hlimit, -⟩ := hno
    · exact absurd hz hnz
    · exact hle
    · omega
    · exact absurd hmem hlimit
  · apply le_brkLoop
    · omega
    · simp only [brkLimit] at hend
      omega

/-- A `SYS_BRK` that maps anything maps the page at the end first. -/
theorem sysBrk_first (hmem : r.memKb = 0) (hframes : 0 < r.frames)
    (htables : ∀ k, r.tables k = true) (hwhole : h.heapEnd % 0x1000 = 0)
    (hend : newEnd ≤ brkLimit) (hgrows : h.heapEnd < newEnd) :
    (sysBrk h newEnd r).1.byte h.heapEnd = r.junk h.heapEnd := by
  have hno : ¬ (newEnd = 0 ∨ newEnd ≤ h.heapEnd ∨ brkLimit < newEnd ∨
      (r.memKb ≠ 0 ∧ r.memKb * 1024 < newEnd - userHeapStart)) := by
    rintro (hz | hle | hover | ⟨hlimit, -⟩)
    · omega
    · omega
    · omega
    · exact hlimit hmem
  obtain ⟨frames, hf⟩ : ∃ f, r.frames = f + 1 := ⟨r.frames - 1, by omega⟩
  have hk : h.heapEnd / 0x1000 * 0x1000 < newEnd := by omega
  unfold sysBrk
  rw [if_neg hno, hf]
  simp only [brkLoop, if_pos hk]
  have hnext := mapFresh_heapEnd r (h.heapEnd / 0x1000) h
  rw [(brkLoop_extends r newEnd frames hnext).byte _ (by omega)]
  unfold mapFresh
  rw [if_pos (htables _)]
  exact if_pos rfl

/-- The first block stands at the start, whatever the start is. It has room for four bytes
unless it ends at the limit. -/
theorem first_block (hmem : r.memKb = 0) (hframes : 0x1000 ≤ r.frames) (hnull : h.uheap = 0)
    (hend : h.heapEnd = userHeapStart) (hbrk : h.ubrk = e) (he : e < brkLimit)
    (junk : Nat → UInt8) :
    ∃ h', uheapGrow h 4 r junk = some (h', e) ∧ h'.uheap = e ∧ e < h'.ubrk ∧
      (h'.mem e).free = true ∧ (h'.mem e).next = 0 ∧
      (4 ≤ (h'.mem e).size ∨ h'.ubrk = brkLimit) ∧
      (∀ x, x < e → h'.byte x = (sysBrk h (wantedEnd e 4) r).1.byte x) ∧
      h'.mapped = (sysBrk h (wantedEnd e 4) r).1.mapped := by
  have hwanted : e < wantedEnd e 4 ∧ wantedEnd e 4 ≤ brkLimit ∧
      (e + 20 ≤ wantedEnd e 4 ∨ wantedEnd e 4 = brkLimit) := by
    simp only [wantedEnd, headerSize, brkLimit] at he ⊢
    omega
  obtain ⟨hfull, htop, hroom⟩ := hwanted
  have hwhole : h.heapEnd % 0x1000 = 0 := by
    rw [hend]
    decide
  have hhigh : h.heapEnd ≤ brkLimit := by
    rw [hend]
    decide
  obtain ⟨-, hgot, hlimit⟩ := sysBrk_spec r hwhole (wantedEnd_whole e 4) hhigh
  have hle := le_sysBrk hmem hframes hwhole (by omega) htop
  rcases hrun : sysBrk h (wantedEnd e 4) r with ⟨h₁, got⟩
  rw [hrun] at hgot hlimit hle
  simp only at hgot hlimit hle
  subst hgot
  subst hbrk
  have hgrow := uheapGrow_brk junk (Nat.not_le.mpr hfull) hrun
  have hnone : ¬ h₁.heapEnd ≤ h.ubrk := by omega
  simp only [if_neg hnone, if_pos hnull] at hgrow
  refine ⟨_, hgrow, rfl, Nat.lt_of_not_le hnone, ?_, ?_, ?_, ?_, rfl⟩
  · simp
  · simp
  · simp only [Function.update_self]
    obtain hroom | hroom := hroom
    · refine Or.inl ?_
      rw [sub32_eq]
      · simp only [headerSize]
        omega
      · simp only [headerSize]
        omega
      · simp only [brkLimit] at hlimit
        omega
    · exact Or.inr (by omega)
  · intro x hx
    apply stamp_below _ hx
    intro a ha
    exact Function.update_of_ne (by omega) _ _

/-- The first `malloc` of four bytes: the heap reaches from the start upwards, and the
bytes below it are as `SYS_BRK` left them. -/
theorem first_malloc (hmem : r.memKb = 0) (hframes : 0x1000 ≤ r.frames) (hnull : h.uheap = 0)
    (hend : h.heapEnd = userHeapStart) (he : e < brkLimit) (junk : Nat → UInt8) :
    ∃ h' p, malloc e h 4 (fun _ => r) junk = some (h', p) ∧ e < h'.ubrk ∧
      (∀ x, x < e →
        h'.byte x = (sysBrk { h with ubrk := e } (wantedEnd e 4) r).1.byte x) ∧
      h'.mapped = (sysBrk { h with ubrk := e } (wantedEnd e 4) r).1.mapped := by
  obtain ⟨h₁, hgrow, hhead, hbrk, hfree, hnext, hroom, hbyte, hmapped⟩ :=
    first_block (h := { h with ubrk := e }) (e := e) hmem hframes hnull hend rfl he junk
  have hsize : roundUp (4 : Int).toNat = 4 := by decide
  have hpos : ¬ (4 : Int) ≤ 0 := by decide
  by_cases hzero : e = 0
  · refine ⟨h₁, 0, ?_, hbrk, hbyte, hmapped⟩
    simp only [malloc, if_neg hpos, if_pos hnull, hsize, hgrow, if_pos hzero]
  · have hstart : malloc e h 4 (fun _ => r) junk =
        mallocLoop 4 (fun _ => r) junk walkBound e 1 h₁ := by
      simp only [malloc, if_neg hpos, if_pos hnull, hsize, hgrow, if_neg hzero, hhead]
    obtain ⟨fuel, hfuel⟩ : ∃ f, walkBound = f + 1 := ⟨walkBound - 1, by decide⟩
    by_cases hfit : 4 ≤ (h₁.mem e).size
    · refine ⟨{ h₁ with
          mem := takeBlock 4 e h₁.mem
          byte := stamp h₁.mem (takeBlock 4 e h₁.mem) junk h₁.byte }, e + headerSize, ?_, hbrk,
        ?_, hmapped⟩
      · rw [hstart, hfuel, mallocLoop, if_neg hzero, if_pos ⟨hfree, hfit⟩]
      · intro x hx
        refine (stamp_below ?_ hx).trans (hbyte x hx)
        intro a ha
        exact takeBlock_frame (by omega) fun _ => by omega
    · have hlimit := hroom.resolve_left hfit
      have hfull : wantedEnd h₁.ubrk 4 ≤ h₁.ubrk := by
        rw [hlimit]
        exact min_le_right _ _
      refine ⟨h₁, 0, ?_, hbrk, hbyte, hmapped⟩
      rw [hstart, hfuel]
      exact mallocLoop_refused fuel hzero (fun h => hfit h.2) hnext (uheapGrow_full r junk hfull)

end Misplaced

section Placement
variable {e : Nat}

/-- A program that was just loaded, its memory all zero. -/
def zeroProgram : UHeap := ⟨fun _ => ⟨0, false, 0⟩, fun _ => 0, fun _ => false, 0, 0, userHeapStart⟩

/-- A `SYS_BRK` that gets all it asks for, in frames that are not zero. -/
def fullReply : Reply := ⟨0, 0x1000, fun _ => true, fun _ => 1, fun _ => ⟨0, false, 0⟩⟩

/-- A start inside a page, below the image or behind the start that the kernel takes: one
`malloc` puts the heap where it must not be. -/
theorem misplaced_fails (he : e < brkLimit)
    (hno : ¬ (e % 0x1000 = 0 ∧ userCodeBase ≤ e ∧ e ≤ userHeapStart)) :
    ¬ ∀ o, Reach ULoaded UCallable (uStep e) o → HeapFits e o := by
  intro hall
  have hloaded : ULoaded (some ⟨zeroProgram, [], zeroProgram.byte⟩) :=
    ⟨zeroProgram, rfl, rfl, rfl, rfl, fun _ => rfl⟩
  have hcall : UCallable (some ⟨zeroProgram, [], zeroProgram.byte⟩)
      (.malloc 4 (fun _ => fullReply) fun _ => 0) := by
    change (4 : Int) < 2 ^ 31
    decide
  obtain ⟨h', p, hrun, hbrk, hbyte, hmapped⟩ := first_malloc (h := zeroProgram) (r := fullReply)
    rfl (Nat.le_refl _) rfl rfl he fun _ => 0
  obtain ⟨s, bs, hs, hok⟩ := hall _ (Reach.next _ (Reach.start hloaded) hcall)
  simp only [uStep, hrun, Option.map_some, Option.some.injEq] at hs
  subst hs
  have hend : ({ zeroProgram with ubrk := e } : UHeap).heapEnd = userHeapStart := rfl
  by_cases hhigh : e ≤ userHeapStart
  · obtain ⟨himage, hpage⟩ := hok.page e (Nat.le_refl _) hbrk
    by_cases hlow : userCodeBase ≤ e
    · -- the byte before the start lies in the same page
      apply himage
      have hinside : e % 0x1000 ≠ 0 := fun hplace => hno ⟨hplace, hlow, hhigh⟩
      refine ⟨e - 1, ?_, ?_, ?_⟩
      · simp only [userCodeBase] at hlow ⊢
        omega
      · omega
      · omega
    · obtain hpage | ⟨hpage, -⟩ := hpage
      · have hbelow : e / 0x1000 < userHeapStart / 0x1000 := by
          simp only [userCodeBase, userHeapStart] at hlow ⊢
          omega
        simp only [hmapped] at hpage
        rw [sysBrk_mapped _ _ (by rwa [hend])] at hpage
        cases hpage
      · exact hlow hpage
  · have hstart : userHeapStart < e := Nat.lt_of_not_le hhigh
    have hgrows : userHeapStart < wantedEnd e 4 := by
      simp only [wantedEnd, headerSize, brkLimit] at he ⊢
      omega
    have hlimit : wantedEnd e 4 ≤ brkLimit := min_le_right _ _
    have hkept := hok.image userHeapStart hstart
    simp only at hkept
    have hzero : ({ zeroProgram with ubrk := e } : UHeap).heapEnd % 0x1000 = 0 := by
      rw [hend]
      decide
    rw [hbyte _ hstart, ← hend, sysBrk_first rfl (by decide) (fun _ => rfl) hzero hlimit
      hgrows] at hkept
    cases hkept

/-- The heap of a program with `_end` below the limit is as it should be in every run, if
and only if `_end` is a page boundary from the start of the image to the address where the
kernel takes the heap to start. -/
theorem heap_fits_iff (he : e < brkLimit) :
    (∀ o, Reach ULoaded UCallable (uStep e) o → HeapFits e o) ↔
      e % 0x1000 = 0 ∧ userCodeBase ≤ e ∧ e ≤ userHeapStart := by
  constructor
  · intro hall
    by_contra hno
    exact misplaced_fails he hno hall
  · rintro ⟨hplace, hlow, hhigh⟩ o r
    exact heapFits_reach hplace hlow hhigh r

theorem heap_fits_three_pages :
    (∀ o, Reach ULoaded UCallable (uStep 0xC03000) o → HeapFits 0xC03000 o) ↔
      0xC03000 % 0x1000 = 0 ∧ userCodeBase ≤ 0xC03000 ∧ 0xC03000 ≤ userHeapStart :=
  heap_fits_iff (by decide)

/-- An image of 128 KiB loses its second half to the first `malloc`. -/
theorem large_image_overwritten :
    ¬ ∀ o, Reach ULoaded UCallable (uStep 0xC20000) o → HeapFits 0xC20000 o :=
  misplaced_fails (by decide) (by decide)

end Placement

end OriaOS.Heap.User
