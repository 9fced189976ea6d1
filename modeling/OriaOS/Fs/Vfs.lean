import OriaOS.Fs.Unlink
import OriaOS.Ipc.Writers

/-!
# File descriptors

The functions of `vfs.c` on descriptors of files. A read copies from the buffer of
the file; a write copies the file to a new block, stores the bytes there and writes
the block back as the whole file. `outside` records an access behind the end of a
buffer.

The offset is unsigned in the descriptor and signed in the arithmetic of both
functions. Reads and writes of the other types touch no file and are left out.
-/

namespace OriaOS.Fs

open OriaOS.Lib OriaOS.Sched
open OriaOS.Ipc (vfsMaxFd Fd)

/-- `VFS_O_RDONLY`. -/
def oRdonly : UInt8 := 1

/-- `VFS_O_WRONLY`. -/
def oWronly : UInt8 := 2

/-- `VFS_O_RDWR`. -/
def oRdwr : UInt8 := 3

/-- `VFS_O_CREATE`. -/
def oCreate : UInt32 := 4

inductive FdType where
  | std
  | file
  | proc
  | dev
  deriving DecidableEq

/-- A descriptor. The name of a file is the path it was opened with, cut as the source
cuts it. -/
structure VfsFd where
  used : Bool
  type : FdType
  flags : UInt8
  offset : UInt32
  name : CString

structure Vfs where
  fs : Mfs3
  fds : Tid → Fd → VfsFd
  outside : Bool

/-- An open descriptor of a file. -/
def VfsFd.IsFile (f : VfsFd) : Prop := f.used = true ∧ f.type = .file

instance (f : VfsFd) : Decidable f.IsFile := inferInstanceAs (Decidable (_ ∧ _))

/-- A value of type `int`. -/
def int32 (x : Int) : Int := Int.bmod x 4294967296

/-- The offset as an `int`. -/
def VfsFd.pos (f : VfsFd) : Int := int32 f.offset.toNat

/-- The index `offset + k`. -/
def VfsFd.index (f : VfsFd) (k : Nat) : Nat := (f.offset + UInt32.ofNat k).toNat

namespace Vfs

def setFd (s : Vfs) (t : Tid) (j : Fd) (f : VfsFd) : Vfs :=
  { s with fds := Function.update s.fds t (Function.update (s.fds t) j f) }

/-- The first free descriptor behind the standard ones. -/
def freeFd (s : Vfs) (t : Tid) : Option Fd :=
  (List.finRange vfsMaxFd).find? fun j => 3 ≤ (j : Nat) && !(s.fds t j).used

end Vfs

/-! ## Opening -/

/-- The path of an entry under `/proc/`. -/
def procEntry (path : CString) : Bool := [47, 112, 114, 111, 99, 47].isPrefixOf path.bytes

/-- The name of the entry. -/
def procName (path : CString) : CString :=
  CString.cut ⟨path.bytes.drop 6, fun h => path.nonzero (List.mem_of_mem_drop h)⟩ (maxName - 1)

/-- A path under `/dev/`. -/
def devEntry (path : CString) : Bool := [47, 100, 101, 118, 47].isPrefixOf path.bytes

/-- The two devices: `null` is 0, `zero` is 1. -/
def devSub (path : CString) : Option UInt32 :=
  if path.bytes.drop 5 = [110, 117, 108, 108] then some 0
  else if path.bytes.drop 5 = [122, 101, 114, 111] then some 1
  else none

/-- `fs_read`: the buffer of a file. -/
def fsRead (s : Mfs3) (name : CString) : Option Buf :=
  (fsReadBin s name).bind Prod.fst

def emptyText : CString := ⟨[], CString.zero_notMem_nil⟩

/-- What a `vfs_open` with `VFS_O_CREATE` does to the files. -/
def createFor (s : Mfs3) (path : CString) (tick : UInt32) (m : Malloc) : Mfs3 :=
  match fsRead s path with
  | some _ => s
  | none => (fsWrite s path emptyText tick m).1

def vfsOpen (s : Vfs) (t : Tid) (path : CString) (flags tick : UInt32) (m : Malloc) :
    Vfs × Int :=
  if procEntry path then
    match s.freeFd t with
    | none => (s, -1)
    | some j => (s.setFd t j ⟨true, .proc, oRdonly, 0, procName path⟩, j)
  else if devEntry path then
    match devSub path, s.freeFd t with
    | some sub, some j => (s.setFd t j ⟨true, .dev, flags.toUInt8, sub, emptyText⟩, j)
    | _, _ => (s, -1)
  else
    match s.freeFd t with
    | none => (s, -1)
    | some j =>
        let f : VfsFd := ⟨true, .file, flags.toUInt8, 0, path.cut (maxName - 1)⟩
        if flags &&& oCreate ≠ 0 then
          ({ s with fs := createFor s.fs path tick m }.setFd t j f, j)
        else
          match fsRead s.fs path with
          | none => (s, -1)
          | some _ => (s.setFd t j f, j)

/-! ## Reading -/

/-- The file branch of `vfs_read`, with the bytes stored in the buffer of the caller. -/
def vfsReadFile (s : Vfs) (t : Tid) (j : Fd) (len : Nat) : Vfs × Int × List UInt8 :=
  let f := s.fds t j
  if f.flags &&& (oRdonly ||| oRdwr) = 0 then (s, -1, [])
  else
    match fsReadBin s.fs f.name with
    | some (some b, size) =>
        let remaining := int32 (int32 size.toNat - f.pos)
        if size = 0 ∨ remaining ≤ 0 then (s, 0, [])
        else
          let n := if remaining < len then remaining.toNat else len
          let out := (List.range n).any fun k => decide (b.cap ≤ f.index k)
          ({ s with outside := s.outside || out }.setFd t j
              { f with offset := f.offset + UInt32.ofNat n },
            n, (List.range n).map fun k => b.byte (f.index k))
    | _ => (s, 0, [])

/-! ## Writing -/

/-- The copy loop of `vfs_write`: the bytes of the file, then what the new block held. -/
def copyFile (existing : Option Buf) (n : Nat) (raw : Nat → UInt8) : Nat → UInt8 := fun a =>
  match existing with
  | some b => if a < n then b.byte a else raw a
  | none => raw a

/-- The store loop of `vfs_write`. -/
def storeLoop (f : VfsFd) : List UInt8 → Nat → (Nat → UInt8) → Nat → UInt8
  | [], _, tmp => tmp
  | c :: rest, k, tmp => storeLoop f rest (k + 1) (Function.update tmp (f.index k) c)

/-- The last offset that a write reaches. -/
def lastByte : Int := maxBinData - 1

/-- `end` in `vfs_write`. -/
def writeEnd (f : VfsFd) (len : Nat) : Int :=
  let stop := int32 (f.pos + len)
  if lastByte < stop then lastByte else stop

/-- `len` in `vfs_write`, behind the check of `end`. -/
def writeLen (f : VfsFd) (len : Nat) : Int :=
  if lastByte < int32 (f.pos + len) then int32 (lastByte - f.pos) else len

/-- The file branch of `vfs_write`. `m` and `raw` are what the first `malloc` returns,
`m'` what that of `fs_write_bin` returns. -/
def vfsWriteFile (s : Vfs) (t : Tid) (j : Fd) (buf : List UInt8) (m : Malloc)
    (raw : Nat → UInt8) (m' : Malloc) (tick : UInt32) : Vfs × Int :=
  let f := s.fds t j
  if f.flags &&& (oWronly ||| oRdwr) = 0 then (s, -1)
  else
    let existing := (fsReadBin s.fs f.name).bind Prod.fst
    let size := ((fsReadBin s.fs f.name).map Prod.snd).getD 0
    match m.grant maxBinData with
    | none => (s, -1)
    | some cap =>
        let n := min (int32 size.toNat).toNat maxBinData
        let len := writeLen f buf.length
        let tmp := storeLoop f (buf.take len.toNat) 0 (copyFile existing n raw)
        let total := max (int32 size.toNat) (writeEnd f buf.length)
        let out :=
          decide ((existing.map Buf.cap).getD 0 < n) ||
          (List.range len.toNat).any (fun k => decide (cap ≤ f.index k)) ||
          decide (buf.length < len.toNat)
        let bytes := (List.range (UInt32.ofInt total).toNat).map tmp
        ({ s with
            fs := (fsWriteBin s.fs f.name bytes tick m').1
            outside := s.outside || out }.setFd t j
            { f with offset := f.offset + UInt32.ofInt len }, len)

/-! ## The calls -/

inductive VfsOp where
  | open (t : Tid) (path : CString) (flags tick : UInt32) (m : Malloc)
  | read (t : Tid) (j : Fd) (len : Nat)
  | write (t : Tid) (j : Fd) (buf : List UInt8) (m : Malloc) (raw : Nat → UInt8) (m' : Malloc)
      (tick : UInt32)
  | seek (t : Tid) (j : Fd) (offset : UInt32)
  | close (t : Tid) (j : Fd)
  | copy (src dst : Tid)

/-- `vfs_seek`. -/
def vfsSeek (s : Vfs) (t : Tid) (j : Fd) (offset : UInt32) : Vfs :=
  if (s.fds t j).used then s.setFd t j { s.fds t j with offset := offset } else s

/-- `vfs_copy_fds`. -/
def vfsCopyFds (s : Vfs) (src dst : Tid) : Vfs :=
  { s with fds := Function.update s.fds dst (s.fds src) }

def vfsStep (s : Vfs) : VfsOp → Vfs
  | .open t path flags tick m => (vfsOpen s t path flags tick m).1
  | .read t j len => if (s.fds t j).IsFile then (vfsReadFile s t j len).1 else s
  | .write t j buf m raw m' tick =>
      if (s.fds t j).IsFile then (vfsWriteFile s t j buf m raw m' tick).1 else s
  | .seek t j offset => vfsSeek s t j offset
  | .close t j =>
      if 3 ≤ (j : Nat) ∧ (s.fds t j).used = true then s.setFd t j { s.fds t j with used := false }
      else s
  | .copy src dst => vfsCopyFds s src dst

end OriaOS.Fs
