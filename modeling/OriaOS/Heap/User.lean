import OriaOS.Heap.Memory

/-!
# The heap of a program

`malloc` and `free` of `lib.h` over `SYS_BRK`. The allocator starts at `_end`, where the
image of the program stops; the kernel starts at `MM_USER_HEAP_START`. Both are kept as
the source has them: `ubrk` is `_ubrk`, `heapEnd` the `heap_end` of the task.

A page that `SYS_BRK` maps holds what the frame held, in place of what was there before.
A page of the demand-paging range that nothing is mapped to reads as zero and becomes a
page of its own when it is touched. The variables of the allocator itself, and its
mutex, which one task alone never waits for, are not part of the memory.
-/

namespace OriaOS.Heap.User

open Lib Lib.BlockList

/-- `MM_USER_CODE_BASE`, where the linker script puts the image. -/
def userCodeBase : Nat := 0xC00000

/-- `MM_USER_HEAP_START`. -/
def userHeapStart : Nat := 0xC10000

/-- `MM_BRK_LIMIT`, and `_USER_HEAP_LIMIT` of `lib.h`. -/
def brkLimit : Nat := 0xEFE000

/-- `mapped` holds of the pages that `SYS_BRK` has mapped. -/
structure UHeap where
  mem : Nat → Cell
  byte : Nat → UInt8
  mapped : Nat → Bool
  uheap : Nat
  ubrk : Nat
  heapEnd : Nat

/-- What a `SYS_BRK` meets: the limit set for the task, the number of frames left, for
which pages a page table is had, and what the frames hold. -/
structure Reply where
  memKb : Nat
  frames : Nat
  tables : Nat → Bool
  junk : Nat → UInt8
  scrap : Nat → Cell

/-! ## `SYS_BRK` -/

/-- A turn of the loop, at page `k`. A header that lies in the page is lost. -/
def mapFresh (r : Reply) (k : Nat) (h : UHeap) : UHeap :=
  if r.tables k then
    { h with
      mem := fun a =>
        if a / 0x1000 = k ∨ (a + (headerSize - 1)) / 0x1000 = k then r.scrap a else h.mem a
      byte := fun x => if x / 0x1000 = k then r.junk x else h.byte x
      mapped := Function.update h.mapped k true
      heapEnd := (k + 1) * 0x1000 }
  else { h with heapEnd := (k + 1) * 0x1000 }

/-- The loop over the pages below the new end; it stops when no frame is left. -/
def brkLoop (r : Reply) (newEnd : Nat) : Nat → Nat → UHeap → UHeap
  | 0, _, h => h
  | frames + 1, k, h =>
      if k * 0x1000 < newEnd then brkLoop r newEnd frames (k + 1) (mapFresh r k h) else h

/-- `SYS_BRK`: the heap and the end that is returned. -/
def sysBrk (h : UHeap) (newEnd : Nat) (r : Reply) : UHeap × Nat :=
  if newEnd = 0 ∨ newEnd ≤ h.heapEnd ∨ brkLimit < newEnd ∨
      (r.memKb ≠ 0 ∧ r.memKb * 1024 < newEnd - userHeapStart) then (h, h.heapEnd)
  else
    let h := brkLoop r newEnd r.frames (h.heapEnd / 0x1000) h
    (h, h.heapEnd)

/-! ## `lib.h` -/

/-- More steps than a walk over the list can take below the limit. -/
def walkBound : Nat := brkLimit

/-- The loop of `_uheap_grow` to the last block. -/
def lastBlock (m : Nat → Cell) : Nat → Nat → Option Nat
  | 0, _ => none
  | fuel + 1, p => if (m p).next = 0 then some p else lastBlock m fuel (m p).next

/-- The end that `_uheap_grow` asks for. -/
def wantedEnd (ubrk need : Nat) : Nat :=
  min ((0xFFF + (ubrk + need + headerSize)) / 0x1000 * 0x1000) brkLimit

/-- `_uheap_grow`: the heap and the new block, zero for failure. -/
def uheapGrow (h : UHeap) (need : Nat) (r : Reply) (junk : Nat → UInt8) :
    Option (UHeap × Nat) :=
  let want := wantedEnd h.ubrk need
  if want ≤ h.ubrk then some (h, 0)
  else
    let (h', got) := sysBrk h want r
    if got ≤ h.ubrk then some (h', 0)
    else
      let nb := h.ubrk
      let mem := Function.update h'.mem nb ⟨sub32 (got - nb) headerSize, true, 0⟩
      if h.uheap = 0 then
        some ({ h' with
          mem := mem, byte := stamp h'.mem mem junk h'.byte, uheap := nb, ubrk := got }, nb)
      else
        (lastBlock mem walkBound h.uheap).map fun p =>
          let mem' := Function.update mem p { mem p with next := nb }
          ({ h' with mem := mem', byte := stamp h'.mem mem' junk h'.byte, ubrk := got }, nb)

/-- The first-fit loop of `malloc`. At the last block it grows the heap and looks at the
same block again. -/
def mallocLoop (size : Nat) (reply : Nat → Reply) (junk : Nat → UInt8) :
    Nat → Nat → Nat → UHeap → Option (UHeap × Nat)
  | 0, _, _, _ => none
  | fuel + 1, curr, k, h =>
      if curr = 0 then some (h, 0)
      else if (h.mem curr).free = true ∧ size ≤ (h.mem curr).size then
        let mem := takeBlock size curr h.mem
        some ({ h with mem := mem, byte := stamp h.mem mem junk h.byte }, curr + headerSize)
      else if (h.mem curr).next = 0 then
        match uheapGrow h size (reply k) junk with
        | none => none
        | some (h, nb) =>
            if nb = 0 then some (h, 0) else mallocLoop size reply junk fuel curr (k + 1) h
      else mallocLoop size reply junk fuel (h.mem curr).next k h

/-- `malloc` of a program with `_end` at `e`: the heap and the returned pointer. The
`k`-th growth of the call meets `reply k`. -/
def malloc (e : Nat) (h : UHeap) (n : Int) (reply : Nat → Reply) (junk : Nat → UInt8) :
    Option (UHeap × Nat) :=
  if n ≤ 0 then some (h, 0)
  else
    let size := roundUp n.toNat
    if h.uheap = 0 then
      match uheapGrow { h with ubrk := e } size (reply 0) junk with
      | none => none
      | some (h, nb) =>
          if nb = 0 then some (h, 0) else mallocLoop size reply junk walkBound h.uheap 1 h
    else mallocLoop size reply junk walkBound h.uheap 0 h

def free (h : UHeap) (ptr : Nat) (junk : Nat → UInt8) : Option UHeap :=
  if ptr = 0 then some h
  else
    let blk := ptr - headerSize
    let m := Function.update h.mem blk ⟨(h.mem blk).size, true, (h.mem blk).next⟩
    (coalesceLoop walkBound h.uheap m).map fun mem =>
      { h with mem := mem, byte := stamp h.mem mem junk h.byte }

/-! ## Runs -/

/-- A heap, the live allocations with the sizes that were asked for, and the image as
it was loaded. -/
structure URun where
  heap : UHeap
  live : List (Nat × Int)
  image : Nat → UInt8

inductive UOp where
  | malloc (n : Int) (reply : Nat → Reply) (junk : Nat → UInt8)
  | free (p : Nat) (junk : Nat → UInt8)

/-- One call. A call that does not return leaves `none`. -/
def uStep (e : Nat) : Option URun → UOp → Option URun
  | none, _ => none
  | some s, .malloc n reply junk => (malloc e s.heap n reply junk).map fun r =>
      { s with heap := r.1, live := if r.2 = 0 then s.live else (r.2, n) :: s.live }
  | some s, .free p junk => (free s.heap p junk).map fun h =>
      { s with heap := h, live := s.live.filter fun x => x.1 ≠ p }

/-- A program that was just loaded. -/
def ULoaded (o : Option URun) : Prop :=
  ∃ h : UHeap, o = some ⟨h, [], h.byte⟩ ∧ h.uheap = 0 ∧ h.ubrk = 0 ∧
    h.heapEnd = userHeapStart ∧ ∀ k, h.mapped k = false

/-- The calls a program may make: a request is an `int`, and only a live pointer is
freed. -/
def UCallable : Option URun → UOp → Prop
  | none, _ => False
  | some _, .malloc n _ _ => n < 2 ^ 31
  | some s, .free p _ => ∃ n, (p, n) ∈ s.live

/-- A byte of the image lies in the page. -/
def ImagePage (e k : Nat) : Prop := ∃ x, userCodeBase ≤ x ∧ x < e ∧ x / 0x1000 = k

/-- The page of the address belongs to the heap alone: no part of the image is in it, and
it was mapped by `SYS_BRK` or is left to demand paging, which starts at
`MM_USER_VA_LOW` and leaves out the guard page. -/
def HeapPage (e : Nat) (h : UHeap) (x : Nat) : Prop :=
  ¬ ImagePage e (x / 0x1000) ∧
    (h.mapped (x / 0x1000) = true ∨ userCodeBase ≤ x ∧ x < brkLimit)

/-- The list `bs` is what the heap holds from `_end` on. The cells give the true sizes of
the blocks, so none has wrapped. -/
structure UHeapOk (e : Nat) (s : URun) (bs : List Blk) : Prop where
  head : s.heap.uheap = if bs = [] then 0 else e
  linked : Linked headerSize s.heap.mem e bs
  tiles : bs ≠ [] → e + span headerSize bs = s.heap.ubrk
  empty : bs = [] → s.heap.ubrk ≤ e
  live : (s.live.map Prod.fst).Perm ((taken headerSize e bs).map fun q => q.1 + headerSize)
  size : ∀ x ∈ s.live, ∃ b, (x.1 - headerSize, b) ∈ taken headerSize e bs ∧ x.2 ≤ b.size
  apart : s.live.Pairwise fun x y => Apart x.1 x.2.toNat y.1 y.2.toNat
  page : ∀ x, e ≤ x → x < s.heap.ubrk → HeapPage e s.heap x
  image : ∀ x, x < e → s.heap.byte x = s.image x

/-- All calls so far have returned, and the heap is as it should be. -/
def HeapFits (e : Nat) (o : Option URun) : Prop := ∃ s bs, o = some s ∧ UHeapOk e s bs

end OriaOS.Heap.User
