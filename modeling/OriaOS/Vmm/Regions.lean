import OriaOS.Vmm.Family
import OriaOS.Lib.Bytes

/-!
# The regions that programs are given

Shared memory, the stack slots and TLS pages of tasks, and the pages of `mmap`:
the kernel gives each of them to a program by its address, some at addresses that
are constants of the memory map. `vmm_map_page` passes over an address inside a
2 MB page without a word, so an address is only as good as the pages of the
kernel allow.

Next to the kernel stands a ledger of the pages that were given out, each with the
frame that was allocated for it.
-/

namespace OriaOS.Vmm

open OriaOS.Lib

/-! ## Shared memory -/

/-- `SHM_MAX`. -/
abbrev shmMax : Nat := 8

/-- The size of the array `key`. -/
def shmKeySize : Nat := 16

def shmVaBase : Nat := 0x500000

/-- `ShmSlot`; it is empty while `phys` is zero. -/
structure ShmSlot where
  key : CString
  phys : Nat
  refcount : Nat

def shmVa (i : Fin shmMax) : Nat := shmVaBase + i.val * 0x1000

/-! ## The ledger -/

/-- What a page was given out as part of. -/
inductive Region
  | shm (i : Fin shmMax)
  | stack (t : Tid)
  | tls (t : Tid)
  | anon
  | file
deriving DecidableEq

/-- A page of an address space that was given out, and the frame allocated for it,
zero where that is left to the first access. -/
structure Handed where
  region : Region
  dir : Nat
  va : Nat
  frame : Nat

/-- The memory part of the system, `shm_slots`, the page directories that
`vmm_create_page_dir` returned, and the ledger. -/
structure Kernel where
  sys : Sys
  shm : Fin shmMax → ShmSlot
  dirs : List Nat
  handed : List Handed

/-- Page `j` of the stack slot of a thread. Page 0 is the guard. -/
def stackSlotVa (t : Tid) (j : Nat) : Nat :=
  threadStackBase + t.val * threadStackSlot + j * 0x1000

/-- `n` frames are allocated and mapped one after the other, page `i` first: memory
behind it and the frames. -/
def mapPages (v : Vm) (dir base i : Nat) : Nat → Vm × List Nat
  | 0 => (v, [])
  | n + 1 =>
      let (v, f) := mapNew v dir (base + i * 0x1000)
      let (v, fs) := mapPages v dir base (i + 1) n
      (v, f :: fs)

namespace Kernel

/-- Frames have been given out at consecutive pages. -/
def hand (k : Kernel) (region : Region) (dir base : Nat) (frames : List Nat) : Kernel :=
  { k with
    handed := frames.mapIdx (fun i f => ⟨region, dir, base + i * 0x1000, f⟩) ++ k.handed }

/-! ## Calls -/

/-- `vmm_create_page_dir`. -/
def createPageDir (k : Kernel) : Kernel :=
  let (v, dir) := Vmm.createPageDir k.sys.vm
  let k := { k with sys := { k.sys with vm := v } }
  if dir = 0 then k else { k with dirs := dir :: k.dirs }

/-- `shm_find`. -/
def shmFind (k : Kernel) (key : CString) : Option (Fin shmMax) :=
  (List.finRange shmMax).find? fun i => (k.shm i).phys != 0 && (k.shm i).key == key

/-- `shm_create`: the slot, none for -1. Of the key as much is kept as fits. -/
def shmCreate (k : Kernel) (key : CString) : Kernel × Option (Fin shmMax) :=
  match k.shmFind key with
  | some i => (k, some i)
  | none =>
      match (List.finRange shmMax).find? fun i => (k.shm i).phys == 0 with
      | none => (k, none)
      | some i =>
          let (v, f) := allocFrame k.sys.vm
          if f = 0 then ({ k with sys := { k.sys with vm := v } }, none)
          else
            ({ k with
              sys := { k.sys with vm := zeroFrame v f }
              shm := Function.update k.shm i ⟨key.cut (shmKeySize - 1), f, 0⟩ }, some i)

/-- The slot that `shm_attach` accepts for an id. -/
def attachable (k : Kernel) (id : Int) : Option (Fin shmMax) :=
  if h : 0 ≤ id ∧ id < shmMax then
    let i : Fin shmMax := ⟨id.toNat, by omega⟩
    if (k.shm i).phys = 0 then none else some i
  else none

/-- `shm_attach`: the address, zero for a failure. -/
def shmAttach (k : Kernel) (id : Int) (dir : Nat) : Kernel × Nat :=
  match k.attachable id with
  | none => (k, 0)
  | some i =>
      let slot := k.shm i
      let v := mapPage k.sys.vm dir (shmVa i) (PTE.userRW slot.phys)
      let k := { k with
        sys := { k.sys with vm := v }
        shm := Function.update k.shm i { slot with refcount := slot.refcount + 1 } }
      (k.hand (.shm i) dir (shmVa i) [slot.phys], shmVa i)

/-- `task_create_user`: the task is given its TLS page. -/
def createUser (k : Kernel) (dir : Nat) : Kernel :=
  match freeSlot k.sys.tasks with
  | none => k
  | some t =>
      let s := taskCreateUser k.sys dir
      { k with sys := s }.hand (.tls t) dir (tlsVa t) [(s.tasks t).tlsFrame]

/-- `task_create_thread`: the thread is given a stack slot and a TLS page. -/
def createThread (k : Kernel) (parent : Tid) : Kernel :=
  match freeSlot k.sys.tasks with
  | none => k
  | some t =>
      let s := threadCreate k.sys parent
      let dir := (s.tasks t).pageDir
      let k := { k with sys := s }.hand (.tls t) dir (tlsVa t) [(s.tasks t).tlsFrame]
      k.hand (.stack t) dir (stackSlotVa t 0) (List.replicate 5 0)

/-- `SYS_MMAP`. The pages lie below where the next region will start. -/
def mmap (k : Kernel) (tid : Tid) (n : Nat) : Kernel :=
  let s := Vmm.mmap k.sys tid n
  let dir := (k.sys.tasks tid).pageDir
  let npages := (s.mmapNextVa - k.sys.mmapNextVa) / 0x1000
  { k with sys := s }.hand .anon dir k.sys.mmapNextVa
    (mapPages k.sys.vm dir k.sys.mmapNextVa 0 npages).2

/-- `SYS_MMAP_FILE`. One page is left out before the next region. -/
def mmapFile (k : Kernel) (tid : Tid) (n full : Nat) : Kernel :=
  let s := Vmm.mmapFile k.sys tid n full
  let dir := (k.sys.tasks tid).pageDir
  let npages := (s.mmapFileNextVa - k.sys.mmapFileNextVa) / 0x1000 - 1
  { k with sys := s }.hand .file dir k.sys.mmapFileNextVa
    (mapPages k.sys.vm dir k.sys.mmapFileNextVa 0 npages).2

inductive Call
  | createPageDir
  | shmCreate (key : CString)
  | shmAttach (id : Int) (dir : Nat)
  | createUser (dir : Nat)
  | createThread (parent : Tid)
  | mmap (tid : Tid) (n : Nat)
  | mmapFile (tid : Tid) (n full : Nat)

def step (k : Kernel) : Call → Kernel
  | .createPageDir => k.createPageDir
  | .shmCreate key => (k.shmCreate key).1
  | .shmAttach id dir => (k.shmAttach id dir).1
  | .createUser dir => k.createUser dir
  | .createThread parent => k.createThread parent
  | .mmap tid n => k.mmap tid n
  | .mmapFile tid n full => k.mmapFile tid n full

/-- Memory has been set up and nothing has been given out. -/
structure Start (k : Kernel) : Prop where
  sys : Vmm.Start k.sys
  shm : ∀ i, (k.shm i).phys = 0
  dirs : k.dirs = []
  handed : k.handed = []

end Kernel

/-! ## What the calls give out -/

/-- `n` consecutive pages, page `i` first. -/
def pagesFrom (base i n : Nat) : List Nat :=
  (List.range' i n).map fun j => base + j * 0x1000

/-- The page directory entries of pages that have no page table yet. -/
def newTables (v : Vm) (dir : Nat) (pages : List Nat) : Finset Nat :=
  ((pages.filter fun va => (ptOf v dir va).isNone).map pdIdx).toFinset

namespace Kernel

/-- The pages a call maps. -/
def Call.mapped (k : Kernel) : Call → List Nat
  | .createPageDir | .shmCreate _ => []
  | .shmAttach id _ => (k.attachable id).toList.map shmVa
  | .createUser _ | .createThread _ => (freeSlot k.sys.tasks).toList.map tlsVa
  | .mmap _ n =>
      if n = 0 ∨ 256 < n ∨ mmapAnonLimit < k.sys.mmapNextVa + n * 0x1000 then []
      else pagesFrom k.sys.mmapNextVa 0 n
  | .mmapFile _ n full =>
      pagesFrom k.sys.mmapFileNextVa 0 (min (full + 1) (if n = 0 ∨ 256 < n then 256 else n))

/-- The pages a call gives out: a thread also gets a stack slot. -/
def Call.pages (k : Kernel) (call : Call) : List Nat :=
  call.mapped k ++
    match call with
    | .createThread _ =>
        (freeSlot k.sys.tasks).toList.flatMap fun t => pagesFrom (stackSlotVa t 0) 0 5
    | _ => []

/-- The address space of these pages. -/
def Call.dir (k : Kernel) : Call → Nat
  | .createPageDir | .shmCreate _ => 0
  | .shmAttach _ dir | .createUser dir => dir
  | .createThread t | .mmap t _ | .mmapFile t _ _ => (k.sys.tasks t).pageDir

/-- The task that makes a call, where that matters. -/
def Call.caller : Call → Option Tid
  | .createThread t | .mmap t _ | .mmapFile t _ _ => some t
  | _ => none

/-- The frames allocated for the pages themselves. -/
def Call.fresh (k : Kernel) : Call → Nat
  | .shmAttach _ _ => 0
  | call => (call.mapped k).length

/-- A live task calls, for an address space that was built, and the frames are
available. -/
structure Valid (k : Kernel) (call : Call) : Prop where
  caller : call.caller.all (alive k.sys) = true
  built : call.mapped k = [] ∨ call.dir k ∈ k.dirs
  frames : call.fresh k + (newTables k.sys.vm (call.dir k) (call.mapped k)).card ≤
    (freeFrames k.sys.vm).card

/-- No page that the call gives out lies in a 2 MB page of the kernel. -/
def Clear (k : Kernel) (call : Call) : Prop :=
  ∀ va ∈ call.pages k, va / 2 ^ 21 ∉ kernelPages

def Guard (k : Kernel) (call : Call) : Prop := Valid k call ∧ Clear k call

/-- Every page that was given out is backed by the frame allocated for it, never by
heap or image of the kernel, which lie outside the frames of the bitmap. Two pages
of shared memory have one frame if and only if they are of one slot. -/
structure RegionsOk (k : Kernel) : Prop where
  backed : ∀ e ∈ k.handed, getPhys k.sys.vm e.dir e.va = e.frame
  allocated : ∀ e ∈ k.handed, (∃ t, e.region = .stack t) ∧ e.frame = 0 ∨ ¬ OutOfRange e.frame
  shared : ∀ e ∈ k.handed, ∀ e' ∈ k.handed, ∀ {i j}, e.region = .shm i → e'.region = .shm j →
    (getPhys k.sys.vm e.dir e.va = getPhys k.sys.vm e'.dir e'.va ↔ i = j)

end Kernel

end OriaOS.Vmm
