import OriaOS.Vmm.Tables
import OriaOS.Lib.Reach

/-!
# Processes and their memory system calls

The task table as far as it concerns memory, and the operations that allocate,
map, share and release frames: `exec`, fork, thread creation, the memory system
calls of `syscall_proc.c`, the page faults of `kernel.c` and `task_exit_code`.
Slot 0 is the shell, which runs on the boot tables and makes none of these calls
itself; it starts programs as `SYS_EXEC` does.

Each operation is one step. What an ELF file makes `elf_load` do is given by the
pages it maps, in order, and the entry it returns. Contents of data pages are left
out: `SYS_MMAP` and `SYS_MMAP_FILE` clear a new frame through the page tables of the
caller, at the virtual address that equals its physical one, and these stores are not
modelled.
-/

namespace OriaOS.Vmm

open OriaOS.Lib

/-- `MAX_TASKS`. -/
abbrev maxTasks : Nat := 32

scoped instance : NeZero maxTasks := ⟨by decide⟩

abbrev Tid := Fin maxTasks

def userHeapStart : Nat := 0xC10000
def userStackPage : Nat := 0xF00000
def brkLimit : Nat := 0xEFE000
def stackGuardLo : Nat := 0xEFE000
def stackGuardHi : Nat := 0xEFF000
def threadStackBase : Nat := 0x700000
def threadStackSlot : Nat := 0x5000
def tlsBase : Nat := 0x800000
def mmapAnonBase : Nat := 0x900000
def mmapAnonLimit : Nat := 0xB00000
def mmapFileBase : Nat := 0xB00000
def userVaLow : Nat := 0xC00000
def userVaHigh : Nat := 0x80000000

/-- The fields of `Task` that concern memory; `parentTid` is `none` for `-1`. -/
structure Task where
  used : Bool
  isThread : Bool
  parentTid : Option Tid
  pageDir : Nat
  heapEnd : Nat
  tlsFrame : Nat

/-- Memory, tasks, and the two bump allocators of virtual addresses. -/
structure Sys where
  vm : Vm
  tasks : Tid → Task
  mmapNextVa : Nat
  mmapFileNextVa : Nat

/-- What `elf_load` does with a file: the pages it maps and its result, zero when
one of its checks fails behind them. -/
structure Image where
  pages : List Nat
  entry : Nat

/-- The scan of `task_create_*` for a free slot. -/
def freeSlot (tasks : Tid → Task) : Option Tid :=
  (List.finRange maxTasks).find? fun t => t ≠ 0 && !(tasks t).used

def setTask (s : Sys) (t : Tid) (task : Task) : Sys :=
  { s with tasks := Function.update s.tasks t task }

def tlsVa (t : Tid) : Nat := tlsBase + t.val * 0x1000

/-! ## Loading and creating -/

/-- The page loop of `elf_load`. -/
def elfPages (v : Vm) (dir entry : Nat) : List Nat → Vm × Nat
  | [] => (v, entry)
  | va :: rest =>
      let (v, f) := allocFrame v
      if f = 0 then (v, 0)
      else elfPages (mapPage (zeroFrame v f) dir va (PTE.userRW f)) dir entry rest

/-- `elf_load`. -/
def elfLoad (v : Vm) (dir : Nat) (img : Image) : Vm × Nat :=
  elfPages v dir img.entry img.pages

/-- Allocate a frame and map it, also when none was left. -/
def mapNew (v : Vm) (dir va : Nat) : Vm × Nat :=
  let (v, f) := allocFrame v
  (mapPage v dir va (PTE.userRW f), f)

/-- The TLS page of a new task. -/
def mapTls (v : Vm) (dir : Nat) (t : Tid) : Vm × Nat :=
  let (v, f) := allocFrame v
  (mapPage (zeroFrame v f) dir (tlsVa t) (PTE.userRW f), f)

/-- `task_create_user`; without a free slot the address space is abandoned. -/
def taskCreateUser (s : Sys) (dir : Nat) : Sys :=
  match freeSlot s.tasks with
  | none => s
  | some t =>
      let (v, tls) := mapTls s.vm dir t
      setTask { s with vm := v } t ⟨true, false, none, dir, userHeapStart, tls⟩

/-- `SYS_EXEC` on a file that exists. The results of `vmm_create_page_dir` and of
the stack allocation are not checked. -/
def exec (s : Sys) (img : Image) : Sys :=
  let (v, dir) := createPageDir s.vm
  let (v, entry) := elfLoad v dir img
  if entry = 0 then { s with vm := v }
  else
    let (v, _) := mapNew v dir userStackPage
    taskCreateUser { s with vm := v } dir

/-- `SYS_EXEC_REPLACE`. -/
def execReplace (s : Sys) (tid : Tid) (img : Image) : Sys :=
  let (v, dir) := createPageDir s.vm
  if dir = 0 then { s with vm := v }
  else
    let (v, entry) := elfLoad v dir img
    if entry = 0 then { s with vm := freeUserMemory v dir }
    else
      let (v, f) := allocFrame v
      if f = 0 then { s with vm := freeUserMemory v dir }
      else
        let v := mapPage v dir userStackPage (PTE.userRW f)
        let old := (s.tasks tid).pageDir
        let s := setTask s tid { s.tasks tid with pageDir := dir, heapEnd := userHeapStart }
        { s with vm := freeUserMemory v old }

/-- `SYS_FORK` with valid user registers. -/
def fork (s : Sys) (tid : Tid) : Sys :=
  let parent := (s.tasks tid).pageDir
  if parent = 0 then s
  else
    let (v, child) := createPageDir s.vm
    if child = 0 then { s with vm := v }
    else
      let v := copyCow v parent child
      match freeSlot s.tasks with
      | none => { s with vm := freeUserMemory v child }
      | some t =>
          setTask { s with vm := v } t
            { s.tasks tid with
              used := true, isThread := false, parentTid := none, tlsFrame := 0
              pageDir := child }

/-- `SYS_THREAD_CREATE`. -/
def threadCreate (s : Sys) (tid : Tid) : Sys :=
  match freeSlot s.tasks with
  | none => s
  | some t =>
      let p := s.tasks tid
      let (v, tls) := mapTls s.vm p.pageDir t
      setTask { s with vm := v } t ⟨true, true, some tid, p.pageDir, p.heapEnd, tls⟩

/-! ## Memory system calls -/

/-- The page loop of `SYS_BRK`: the new heap end. -/
def brkLoop (v : Vm) (dir pg : Nat) (curEnd : Nat) : Nat → Vm × Nat
  | 0 => (v, curEnd)
  | n + 1 =>
      let (v, f) := allocFrame v
      if f = 0 then (v, curEnd)
      else brkLoop (mapPage v dir pg (PTE.userRW f)) dir (pg + 0x1000) (pg + 0x1000) n

/-- `SYS_BRK` under a memory limit of `memKb`, zero for none. -/
def brk (s : Sys) (tid : Tid) (newEnd memKb : Nat) : Sys :=
  let task := s.tasks tid
  let curEnd := task.heapEnd
  if newEnd = 0 ∨ newEnd ≤ curEnd ∨ brkLimit < newEnd then s
  else if memKb ≠ 0 ∧ memKb * 1024 < (newEnd + 2 ^ 64 - userHeapStart) % 2 ^ 64 then s
  else
    let pg := curEnd / 0x1000 * 0x1000
    let (v, e) := brkLoop s.vm task.pageDir pg curEnd ((newEnd - pg + 0xFFF) / 0x1000)
    setTask { s with vm := v } tid { task with heapEnd := e }

/-- Unmap a page and release the frame found there, whoever else maps it. -/
def unmapFree (v : Vm) (dir va : Nat) : Vm :=
  let f := getPhys v dir va
  let v := unmapPage v dir va
  if 768 ≤ f then freeFrame v f else v

/-- The loops that unmap and release `n` pages. -/
def unmapRange (v : Vm) (dir va n : Nat) : Vm :=
  (List.range n).foldl (fun v i => unmapFree v dir (va + i * 0x1000)) v

/-- The page loop of `SYS_MMAP` from page `i` on, with its rollback. -/
def mmapLoop (v : Vm) (dir base i : Nat) : Nat → Vm × Bool
  | 0 => (v, true)
  | n + 1 =>
      let (v, f) := allocFrame v
      if f = 0 then (unmapRange v dir base i, false)
      else mmapLoop (mapPage v dir (base + i * 0x1000) (PTE.userRW f)) dir base (i + 1) n

/-- `SYS_MMAP`. -/
def mmap (s : Sys) (tid : Tid) (n : Nat) : Sys :=
  let dir := (s.tasks tid).pageDir
  if n = 0 ∨ 256 < n ∨ dir = 0 ∨ mmapAnonLimit < s.mmapNextVa + n * 0x1000 then s
  else
    let (v, ok) := mmapLoop s.vm dir s.mmapNextVa 0 n
    if ok then { s with vm := v, mmapNextVa := s.mmapNextVa + n * 0x1000 }
    else { s with vm := v }

/-- `SYS_MUNMAP`. -/
def munmap (s : Sys) (tid : Tid) (va n : Nat) : Sys :=
  let va := va / 0x1000 * 0x1000
  let dir := (s.tasks tid).pageDir
  if n = 0 ∨ va < mmapAnonBase ∨ dir = 0 then s
  else { s with vm := unmapRange s.vm dir va n }

/-- The page loop of `SYS_MMAP_FILE`; `full` whole pages can still be read. It
returns how many pages were mapped. -/
def mmapFileLoop (v : Vm) (dir base i full : Nat) : Nat → Vm × Nat
  | 0 => (v, i)
  | n + 1 =>
      let (v, f) := allocFrame v
      if f = 0 then (v, i)
      else
        let v := mapPage v dir (base + i * 0x1000) (PTE.userRW f)
        match full with
        | 0 => (v, i + 1)
        | full + 1 => mmapFileLoop v dir base (i + 1) full n

/-- `SYS_MMAP_FILE` of `n` pages at most, on a file with `full` whole pages. -/
def mmapFile (s : Sys) (tid : Tid) (n full : Nat) : Sys :=
  let dir := (s.tasks tid).pageDir
  if dir = 0 then s
  else
    let maxPages := if n = 0 ∨ 256 < n then 256 else n
    let (v, npages) := mmapFileLoop s.vm dir s.mmapFileNextVa 0 full maxPages
    if npages = 0 then { s with vm := v }
    else { s with vm := v, mmapFileNextVa := s.mmapFileNextVa + (npages + 1) * 0x1000 }

/-- `SYS_MUNMAP_FILE`. -/
def munmapFile (s : Sys) (tid : Tid) (va n : Nat) : Sys :=
  let va := va / 0x1000 * 0x1000
  let dir := (s.tasks tid).pageDir
  if n = 0 ∨ dir = 0 then s
  else { s with vm := unmapRange s.vm dir va n }

/-- `handle_demand_paging` at any address. The guard page below the stack is left
alone: the task is killed there. -/
def demandFault (s : Sys) (tid : Tid) (va : Nat) : Sys :=
  let dir := (s.tasks tid).pageDir
  if va < userVaLow ∨ userVaHigh ≤ va ∨ (stackGuardLo ≤ va ∧ va < stackGuardHi) then s
  else
    let (v, f) := allocFrame s.vm
    if f = 0 then { s with vm := v }
    else { s with vm := mapPage (zeroFrame v f) dir va (PTE.userRW f) }

/-! ## Exit -/

/-- Page `k` of the stack of a thread. -/
def threadStackVa (t : Tid) (k : Nat) : Nat :=
  threadStackBase + t.val * threadStackSlot + 0x1000 + k * 0x1000

/-- The stack pages of an exiting thread. -/
def freeThreadStack (v : Vm) (dir : Nat) (t : Tid) : Vm :=
  (List.range 4).foldl (fun v k =>
    let f := getPhys v dir (threadStackVa t k)
    if 768 ≤ f then freeFrame (unmapPage v dir (threadStackVa t k)) f else v) v

/-- The stack pages of a thread that dies with its process. -/
def dropThreadStack (v : Vm) (dir : Nat) (t : Tid) : Vm :=
  (List.range 4).foldl (fun v k =>
    let f := getPhys v dir (threadStackVa t k)
    if 768 ≤ f then freeFrame v f else v) v

/-- The memory part of the exit of a thread. -/
def exitThread (s : Sys) (tid : Tid) : Vm :=
  match (s.tasks tid).parentTid with
  | none => s.vm
  | some p =>
      if (s.tasks p).used then
        let dir := (s.tasks p).pageDir
        let v := freeThreadStack s.vm dir tid
        let tls := (s.tasks tid).tlsFrame
        if tls = 0 then v else freeFrame (unmapPage v dir (tlsVa tid)) tls
      else s.vm

/-- A thread that the exit of process `tid` kills. -/
def isChildThread (s : Sys) (tid t : Tid) : Bool :=
  t ≠ 0 && (s.tasks t).used && (s.tasks t).isThread && (s.tasks t).parentTid == some tid

/-- The loop over the threads of an exiting process. -/
def killThreads (s : Sys) (tid : Tid) : Sys :=
  { s with
    vm := (List.finRange maxTasks).foldl (fun v t =>
      if isChildThread s tid t then dropThreadStack v (s.tasks tid).pageDir t else v) s.vm
    tasks := fun t =>
      if isChildThread s tid t then { s.tasks t with used := false } else s.tasks t }

/-- `task_exit_code`. -/
def exit (s : Sys) (tid : Tid) : Sys :=
  let task := s.tasks tid
  let s :=
    if task.isThread then { s with vm := exitThread s tid }
    else
      let s := killThreads s tid
      { s with vm := freeUserMemory s.vm task.pageDir }
  setTask s tid
    { s.tasks tid with used := false, pageDir := 0, isThread := false, tlsFrame := 0 }

/-! ## Steps -/

inductive Op
  | exec (img : Image)
  | execReplace (tid : Tid) (img : Image)
  | fork (tid : Tid)
  | threadCreate (tid : Tid)
  | brk (tid : Tid) (newEnd memKb : Nat)
  | mmap (tid : Tid) (n : Nat)
  | munmap (tid : Tid) (va n : Nat)
  | mmapFile (tid : Tid) (n full : Nat)
  | munmapFile (tid : Tid) (va n : Nat)
  | cowFault (tid : Tid) (va : Nat)
  | demandFault (tid : Tid) (va : Nat)
  | exit (tid : Tid)

/-- The task that makes a call. -/
def Op.caller : Op → Option Tid
  | .exec _ => none
  | .execReplace tid _ | .fork tid | .threadCreate tid | .brk tid _ _ | .mmap tid _
  | .munmap tid _ _ | .mmapFile tid _ _ | .munmapFile tid _ _ | .cowFault tid _
  | .demandFault tid _ | .exit tid => some tid

/-- A task that can make calls. -/
def alive (s : Sys) (t : Tid) : Bool := t ≠ 0 && (s.tasks t).used

def perform (s : Sys) : Op → Sys
  | .exec img => exec s img
  | .execReplace tid img => execReplace s tid img
  | .fork tid => fork s tid
  | .threadCreate tid => threadCreate s tid
  | .brk tid newEnd memKb => brk s tid newEnd memKb
  | .mmap tid n => mmap s tid n
  | .munmap tid va n => munmap s tid va n
  | .mmapFile tid n full => mmapFile s tid n full
  | .munmapFile tid va n => munmapFile s tid va n
  | .cowFault tid va => { s with vm := (cowFault s.vm (s.tasks tid).pageDir va).1 }
  | .demandFault tid va => demandFault s tid va
  | .exit tid => exit s tid

/-- Only a task that is alive makes a call. -/
def step (s : Sys) (op : Op) : Sys :=
  if op.caller.all (alive s) then perform s op else s

end OriaOS.Vmm
