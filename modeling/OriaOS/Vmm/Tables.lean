import Mathlib

/-!
# Physical frames and page tables

The functions of `vmm.c`: the frame bitmap, the four-level tables, copy-on-write
and the teardown of an address space. Memory is modelled as far as it holds page
tables, an entry by its bits and frame number. What stands in a data page plays
no part here. A frame number stands for the physical address, zero for the null
pointer.

The bitmap alone cannot tell a frame that is released twice: the second release
clears a bit that is clear already. It is recorded.
-/

namespace OriaOS.Vmm

/-- `TOTAL_FRAMES`. -/
abbrev totalFrames : Nat := 16384

/-- `KERNEL_RESERVED_FRAMES`. -/
abbrev reservedFrames : Nat := 2048

/-- A page-table entry. -/
structure PTE where
  present : Bool
  writable : Bool
  user : Bool
  large : Bool
  cow : Bool
  frame : Nat
deriving DecidableEq

namespace PTE

def zero : PTE := ⟨false, false, false, false, false, 0⟩

/-- Flags 7: present, writable, user. -/
def userRW (f : Nat) : PTE := ⟨true, true, true, false, false, f⟩

/-- Flags `0x205`: present, user, copy-on-write. -/
def userCOW (f : Nat) : PTE := ⟨true, false, true, false, true, f⟩

/-- Flags 3: present and writable, for the kernel. -/
def kernelRW (f : Nat) : PTE := ⟨true, true, false, false, false, f⟩

/-- Flags `0x87`: a 2 MB page the user can reach. -/
def userLarge (f : Nat) : PTE := ⟨true, true, true, true, false, f⟩

/-- Flags `0x83`: a 2 MB page of the kernel. -/
def kernelLarge (f : Nat) : PTE := ⟨true, true, false, true, false, f⟩

end PTE

/-- Page tables in memory, `frame_bitmap`, `frame_cow_cnt`, and whether a frame
was released twice. -/
structure Vm where
  mem : Nat → Nat → PTE
  used : Nat → Bool
  cow : Nat → Nat
  doubleFree : Bool

/-! ## The frame bitmap -/

/-- `pmm_alloc_frame`. -/
def allocFrame (v : Vm) : Vm × Nat :=
  match (List.range' reservedFrames (totalFrames - reservedFrames)).find? fun f => !v.used f with
  | some f => ({ v with used := Function.update v.used f true }, f)
  | none => (v, 0)

/-- `pmm_free_frame`. -/
def freeFrame (v : Vm) (f : Nat) : Vm :=
  if reservedFrames ≤ f ∧ f < totalFrames then
    { v with used := Function.update v.used f false, doubleFree := v.doubleFree || !v.used f }
  else v

/-- `zero_frame`. -/
def zeroFrame (v : Vm) (f : Nat) : Vm :=
  { v with mem := Function.update v.mem f fun _ => PTE.zero }

def setEntry (v : Vm) (p i : Nat) (e : PTE) : Vm :=
  { v with mem := Function.update v.mem p (Function.update (v.mem p) i e) }

/-! ## Walking the tables -/

def pml4Idx (va : Nat) : Nat := va / 2 ^ 39 % 512
def pdptIdx (va : Nat) : Nat := va / 2 ^ 30 % 512
def pdIdx (va : Nat) : Nat := va / 2 ^ 21 % 512
def ptIdx (va : Nat) : Nat := va / 2 ^ 12 % 512

/-- The table below an entry. -/
def tableAt (v : Vm) (p i : Nat) : Option Nat :=
  if (v.mem p i).present then some (v.mem p i).frame else none

/-- The page directory of an address. -/
def pdOf (v : Vm) (pml4 va : Nat) : Option Nat :=
  (tableAt v pml4 (pml4Idx va)).bind fun pdpt => tableAt v pdpt (pdptIdx va)

/-- The page table of an address; there is none below a 2 MB page. -/
def ptOf (v : Vm) (pml4 va : Nat) : Option Nat :=
  (pdOf v pml4 va).bind fun pd =>
    if (v.mem pd (pdIdx va)).large then none else tableAt v pd (pdIdx va)

/-- `vmm_get_phys`. -/
def getPhys (v : Vm) (pml4 va : Nat) : Nat :=
  if pml4 = 0 then 0
  else
    match pdOf v pml4 va with
    | none => 0
    | some pd =>
        let e := v.mem pd (pdIdx va)
        if !e.present then 0
        else if e.large then e.frame / 512 * 512 + ptIdx va
        else
          let e := v.mem e.frame (ptIdx va)
          if e.present then e.frame else 0

/-- The entry of the next level, or a new empty table there. -/
def nextTable (v : Vm) (p i : Nat) : Vm × Option Nat :=
  if (v.mem p i).present then (v, some (v.mem p i).frame)
  else
    let (v, f) := allocFrame v
    if f = 0 then (v, none)
    else (setEntry (zeroFrame v f) p i (PTE.userRW f), some f)

/-- `vmm_map_page`. It gives up silently when a table cannot be allocated and at
a 2 MB page. -/
def mapPage (v : Vm) (pml4 va : Nat) (e : PTE) : Vm :=
  match nextTable v pml4 (pml4Idx va) with
  | (v, none) => v
  | (v, some pdpt) =>
      match nextTable v pdpt (pdptIdx va) with
      | (v, none) => v
      | (v, some pd) =>
          if (v.mem pd (pdIdx va)).large then v
          else
            match nextTable v pd (pdIdx va) with
            | (v, none) => v
            | (v, some pt) => setEntry v pt (ptIdx va) e

/-- `vmm_unmap_page`. -/
def unmapPage (v : Vm) (pml4 va : Nat) : Vm :=
  if pml4 = 0 then v
  else
    match ptOf v pml4 va with
    | none => v
    | some pt => setEntry v pt (ptIdx va) PTE.zero

/-! ## Address spaces -/

/-- The entries `vmm_create_page_dir` sets in its three tables. -/
def fillPageDir (v : Vm) (pml4 pdpt pd : Nat) : Vm :=
  let v := setEntry v pml4 0 (PTE.userRW pdpt)
  let v := setEntry v pdpt 0 (PTE.userRW pd)
  let v := setEntry v pdpt 1 (PTE.kernelRW 4)
  let v := setEntry v pdpt 2 (PTE.kernelRW 5)
  let v := setEntry v pdpt 3 (PTE.kernelRW 6)
  let v := [0, 1, 2, 3].foldl (fun v i => setEntry v pd i (PTE.userLarge (i * 512))) v
  [32, 33, 34, 35, 36, 37].foldl (fun v i => setEntry v pd i (PTE.kernelLarge (i * 512))) v

/-- `vmm_create_page_dir`: the new PML4, zero when frames are missing. -/
def createPageDir (v : Vm) : Vm × Nat :=
  let (v, pml4) := allocFrame v
  if pml4 = 0 then (v, 0)
  else
    let v := zeroFrame v pml4
    let (v, pdpt) := allocFrame v
    if pdpt = 0 then (freeFrame v pml4, 0)
    else
      let v := zeroFrame v pdpt
      let (v, pd) := allocFrame v
      if pd = 0 then (freeFrame (freeFrame v pdpt) pml4, 0)
      else (fillPageDir (zeroFrame v pd) pml4 pdpt pd, pml4)

/-- What the teardown does with a data page: one count less, or released. -/
def releasePage (v : Vm) (f : Nat) : Vm :=
  if f < reservedFrames then v
  else if f < totalFrames ∧ 0 < v.cow f then
    { v with cow := Function.update v.cow f (v.cow f - 1) }
  else freeFrame v f

/-- The body of the inner loop of the teardown. -/
def releaseEntry (v : Vm) (pt j : Nat) : Vm :=
  if (v.mem pt j).present then releasePage v (v.mem pt j).frame else v

/-- The body of the outer loop of the teardown: the pages of a page table, then
the table. -/
def releaseTable (v : Vm) (pd i : Nat) : Vm :=
  let e := v.mem pd i
  if !e.present || e.large then v
  else freeFrame ((List.range 512).foldl (fun v j => releaseEntry v e.frame j) v) e.frame

/-- `vmm_free_user_memory`. Only the part below `pml4[0]` and `pdpt[0]` is
visited. -/
def freeUserMemory (v : Vm) (pml4 : Nat) : Vm :=
  if pml4 = 0 then v
  else
    let e := v.mem pml4 0
    let v :=
      if e.present then
        let e₀ := v.mem e.frame 0
        let v :=
          if e₀.present then
            freeFrame ((List.range 512).foldl (fun v i => releaseTable v e₀.frame i) v) e₀.frame
          else v
        freeFrame v e.frame
      else v
    freeFrame v pml4

/-! ## Copy-on-write -/

/-- Two more counters for a frame, up to the largest byte. -/
def bumpCow (v : Vm) (f : Nat) : Vm :=
  { v with cow := Function.update v.cow f (if v.cow f < 254 then v.cow f + 2 else 255) }

/-- The body of the inner loop of `vmm_copy_cow`: share one page. -/
def sharePage (v : Vm) (child pt i j : Nat) : Vm :=
  let e := v.mem pt j
  if !e.present || e.frame < reservedFrames then v
  else
    let v := setEntry v pt j (PTE.userCOW e.frame)
    let v := mapPage v child (i * 2 ^ 21 + j * 2 ^ 12) (PTE.userCOW e.frame)
    if e.frame < totalFrames then bumpCow v e.frame else v

/-- The body of the outer loop of `vmm_copy_cow`. -/
def shareTable (v : Vm) (child pd i : Nat) : Vm :=
  let e := v.mem pd i
  if !e.present || e.large then v
  else (List.range 512).foldl (fun v j => sharePage v child e.frame i j) v

/-- `vmm_copy_cow`. -/
def copyCow (v : Vm) (parent child : Nat) : Vm :=
  if parent = 0 ∨ child = 0 then v
  else
    let e := v.mem parent 0
    if !e.present then v
    else
      let e₀ := v.mem e.frame 0
      if !e₀.present then v
      else (List.range 512).foldl (fun v i => shareTable v child e₀.frame i) v

/-- `vmm_cow_fault`: whether the fault was handled. -/
def cowFault (v : Vm) (pml4 va : Nat) : Vm × Bool :=
  if pml4 = 0 then (v, false)
  else
    match ptOf v pml4 va with
    | none => (v, false)
    | some pt =>
        let e := v.mem pt (ptIdx va)
        if !e.present || !e.cow then (v, false)
        else if e.frame < totalFrames ∧ 1 < v.cow e.frame then
          let (v, f) := allocFrame v
          if f = 0 then (v, false)
          else
            let v := setEntry v pt (ptIdx va) (PTE.userRW f)
            ({ v with cow := Function.update v.cow e.frame (v.cow e.frame - 1) }, true)
        else (setEntry v pt (ptIdx va) (PTE.userRW e.frame), true)

end OriaOS.Vmm
