import OriaOS.Lib.Bytes
import OriaOS.Lib.Disk
import OriaOS.Lib.Reach

/-!
# The MFS3 file table

The functions of `fs.c` on the table of 64 files and the disk behind it. A file
owns a heap buffer; what `malloc` answers is an argument of every function that
calls it. A store behind the end of a buffer is recorded, the bytes it destroys
belong to other heap blocks and are not followed.

The disk is present, reads return the last write and never fail.
-/

namespace OriaOS.Fs

open OriaOS.Lib

/-- `FS_MAX_FILES`. -/
abbrev maxFiles : Nat := 64

/-- `FS_MAX_NAME`. -/
abbrev maxName : Nat := 32

/-- `FS_MAX_DATA`, the size of a default buffer. -/
abbrev maxData : Nat := 65536

/-- `FS_MAX_BIN_DATA`. -/
abbrev maxBinData : Nat := 524288

/-- `FS_DATA_SECS`. -/
abbrev dataSecs : Nat := 128

abbrev sectorSize : Nat := 512

scoped instance : NeZero sectorSize := ⟨by decide⟩

abbrev Slot := Fin maxFiles
abbrev Sector := Fin sectorSize → UInt8
abbrev Disk := Nat → Sector

def permDir : UInt16 := 0x8000
def permRead : UInt16 := 4
def permWrite : UInt16 := 2
def permExec : UInt16 := 1

/-- A heap buffer: its allocated size and its bytes. -/
structure Buf where
  cap : Nat
  byte : Nat → UInt8

/-- What `malloc` answers: failure, or a block with some bytes beyond the
request (rounding, or a block too small to split). -/
abbrev Malloc := Option Nat

/-- The allocated size `malloc` returns for a request; a request for nothing
fails. -/
def Malloc.grant (m : Malloc) (size : Nat) : Option Nat :=
  if size = 0 then none else m.map (size + ·)

/-- Store bytes from the start of a buffer. -/
def Buf.store (b : Buf) (bytes : List UInt8) : Buf :=
  { b with byte := fun k => bytes.getD k (b.byte k) }

/-- `FSFile`. -/
structure FSFile where
  name : Fin maxName → UInt8
  size : UInt32
  used : UInt8
  tmpfs : UInt8
  dirty : Bool
  perms : UInt16
  ctime : UInt32
  mtime : UInt32
  data : Option Buf

/-- The table, the disk, and whether some store went past the end of its
buffer. -/
structure Mfs3 where
  files : Slot → FSFile
  disk : Disk
  overflow : Bool

namespace FSFile

def isDir (f : FSFile) : Bool := f.perms &&& permDir != 0

/-- The bytes of the record from `name` to the padding byte, which is zero. A
name without terminator runs on into the fields behind it. -/
def nameMem (f : FSFile) (a : Nat) : UInt8 :=
  if h : a < maxName then f.name ⟨a, h⟩
  else match a with
    | 32 => f.size.toUInt8
    | 33 => (f.size >>> 8).toUInt8
    | 34 => (f.size >>> 16).toUInt8
    | 35 => (f.size >>> 24).toUInt8
    | 36 => f.used
    | 37 => f.tmpfs
    | 38 => f.dirty.toUInt8
    | _ => 0

/-- The name as `fs_strcmp` reads it. -/
def nameStr (f : FSFile) : CString := CString.read f.nameMem 40 0

/-- A used entry of that name. -/
def named (f : FSFile) (name : CString) : Bool := f.used != 0 && f.nameStr == name

/-- A used entry of that name that is not a directory. -/
def isFile (f : FSFile) (name : CString) : Bool := f.used != 0 && !f.isDir && f.nameStr == name

def isFree (f : FSFile) : Bool := f.used == 0

/-- `fs_strcpy` into the name field. -/
def setName (f : FSFile) (name : CString) : FSFile := { f with name := name.copyTo f.name }

end FSFile

/-- The loops over the table that stop at the first entry of a kind. -/
def firstSlot (files : Slot → FSFile) (p : FSFile → Bool) : Option Slot :=
  (List.finRange maxFiles).find? fun i => p (files i)

/-- `fs_hdr_sector`. -/
def hdrSector (i : Slot) : Nat := 1 + i.val * (1 + dataSecs)

/-- `fs_data_sector`. -/
def dataSector (i : Slot) (chunk : Nat) : Nat := 2 + i.val * (1 + dataSecs) + chunk

/-- The header sector of a file. -/
def header (f : FSFile) : Sector := fun j =>
  match j.val with
  | 32 => f.size.toUInt8
  | 33 => (f.size >>> 8).toUInt8
  | 34 => (f.size >>> 16).toUInt8
  | 35 => (f.size >>> 24).toUInt8
  | 36 => f.used
  | 37 => f.tmpfs
  | 38 => f.perms.toUInt8
  | 39 => (f.perms >>> 8).toUInt8
  | 40 => f.ctime.toUInt8
  | 41 => (f.ctime >>> 8).toUInt8
  | 42 => (f.ctime >>> 16).toUInt8
  | 43 => (f.ctime >>> 24).toUInt8
  | 44 => f.mtime.toUInt8
  | 45 => (f.mtime >>> 8).toUInt8
  | 46 => (f.mtime >>> 16).toUInt8
  | 47 => (f.mtime >>> 24).toUInt8
  | n => if h : n < maxName then f.name ⟨n, h⟩ else 0

/-- The bytes of the data area of a file: its data, then zeros. -/
def dataBytes (f : FSFile) (b : Buf) (off : Nat) : UInt8 :=
  if off < f.size.toNat then b.byte off else 0

/-- `fs_disk_save`. -/
def diskSave (s : Mfs3) (i : Slot) : Mfs3 :=
  let f := s.files i
  if f.tmpfs ≠ 0 then s
  else
    let disk := writeBlock s.disk (hdrSector i) (header f)
    match f.data with
    | none => { s with disk := disk }
    | some b =>
        { s with
          disk := writeRun disk (dataSector i 0) dataSecs (blockOf sectorSize (dataBytes f b))
          files := Function.update s.files i { f with dirty := false } }

def put (s : Mfs3) (i : Slot) (f : FSFile) : Mfs3 :=
  { s with files := Function.update s.files i f }

/-- `fs_ensure_data`: the buffer of a file, allocated and cleared when there is
none. -/
def ensureData (f : FSFile) (m : Malloc) : Option Buf :=
  match f.data with
  | some b => some b
  | none => (m.grant maxData).map fun cap => ⟨cap, fun _ => 0⟩

/-- Store a text with its terminator and set the size. -/
def storeText (f : FSFile) (b : Buf) (text : CString) : FSFile :=
  { f with data := some (b.store (text.bytes ++ [0])), size := UInt32.ofNat (text.length + 1) }

/-- Record a store of `len` bytes into a buffer. -/
def noteStore (s : Mfs3) (b : Buf) (len : Nat) : Mfs3 :=
  { s with overflow := s.overflow || decide (b.cap < len) }

/-- `fs_write`. -/
def fsWrite (s : Mfs3) (name text : CString) (tick : UInt32) (m : Malloc) : Mfs3 × Int :=
  if maxData ≤ text.length then (s, 0)
  else
    match firstSlot s.files (·.isFile name) with
    | some i =>
        let f := s.files i
        match ensureData f m with
        | none => (s, 0)
        | some b =>
            (diskSave (put (noteStore s b (text.length + 1)) i
              { storeText f b text with mtime := tick, dirty := true }) i, 1)
    | none =>
        match firstSlot s.files FSFile.isFree with
        | some i =>
            let f := (s.files i).setName name
            match ensureData f m with
            | none => (put s i f, 0)
            | some b =>
                (diskSave (put (noteStore s b (text.length + 1)) i
                  { storeText f b text with
                    used := 1, tmpfs := 0, dirty := true, perms := permRead ||| permWrite
                    ctime := tick, mtime := tick }) i, 1)
        | none => (s, 0)

/-- `fs_delete`. -/
def fsDelete (s : Mfs3) (name : CString) : Mfs3 × Int :=
  match firstSlot s.files (·.named name) with
  | some i => (diskSave (put s i { s.files i with used := 0, data := none }) i, 1)
  | none => (s, 0)

/-- The buffer of a binary write: `malloc(size)`, then the copy. -/
def binBuf (bytes : List UInt8) (m : Malloc) : Option Buf :=
  (m.grant bytes.length).map fun cap => (⟨cap, fun _ => 0⟩ : Buf).store bytes

/-- `fs_write_bin_internal`. The old buffer is released before the new one is
requested. -/
def fsWriteBinInternal (s : Mfs3) (name : CString) (bytes : List UInt8) (tmpfs : UInt8)
    (tick : UInt32) (m : Malloc) : Mfs3 × Int :=
  if maxBinData < bytes.length then (s, 0)
  else
    match firstSlot s.files (·.isFile name) with
    | some i =>
        let f := s.files i
        match binBuf bytes m with
        | none => (put s i { f with data := none }, 0)
        | some b =>
            (diskSave (put (noteStore s b bytes.length) i
              { f with
                data := some b, size := UInt32.ofNat bytes.length
                mtime := tick, dirty := true, tmpfs := tmpfs }) i, 1)
    | none =>
        match firstSlot s.files FSFile.isFree with
        | some i =>
            let f := (s.files i).setName name
            match binBuf bytes m with
            | none => (put s i { f with data := none }, 0)
            | some b =>
                (diskSave (put (noteStore s b bytes.length) i
                  { f with
                    data := some b, size := UInt32.ofNat bytes.length
                    used := 1, tmpfs := tmpfs, dirty := true
                    perms := permRead ||| permWrite ||| permExec
                    ctime := tick, mtime := tick }) i, 1)
        | none => (s, 0)

/-- `fs_write_bin`. -/
def fsWriteBin (s : Mfs3) (name : CString) (bytes : List UInt8) (tick : UInt32) (m : Malloc) :
    Mfs3 × Int :=
  fsWriteBinInternal s name bytes 0 tick m

/-- `fs_write_tmp`. -/
def fsWriteTmp (s : Mfs3) (name : CString) (bytes : List UInt8) (tick : UInt32) (m : Malloc) :
    Mfs3 × Int :=
  fsWriteBinInternal s name bytes 1 tick m

/-- `fs_read_bin`: the buffer and the size of a file. -/
def fsReadBin (s : Mfs3) (name : CString) : Option (Option Buf × UInt32) :=
  (firstSlot s.files (·.isFile name)).map fun i => ((s.files i).data, (s.files i).size)

/-- `fs_mkdir`. -/
def fsMkdir (s : Mfs3) (name : CString) (tick : UInt32) : Mfs3 × Int :=
  match firstSlot s.files (·.named name) with
  | some _ => (s, 1)
  | none =>
      match firstSlot s.files FSFile.isFree with
      | some i =>
          (diskSave (put s i
            { (s.files i).setName name with
              size := 0, used := 1, tmpfs := 0, dirty := true
              perms := permDir ||| permRead ||| permWrite
              ctime := tick, mtime := tick, data := none }) i, 1)
      | none => (s, 0)

/-- `fs_set_perms`. -/
def fsSetPerms (s : Mfs3) (name : CString) (perms : UInt16) : Mfs3 × Int :=
  match firstSlot s.files (·.named name) with
  | some i => (diskSave (put s i { s.files i with perms := perms, dirty := true }) i, 1)
  | none => (s, 0)

/-- `fs_rename`. -/
def fsRename (s : Mfs3) (oldName newName : CString) (tick : UInt32) : Mfs3 × Int :=
  match firstSlot s.files (·.named newName) with
  | some _ => (s, -1)
  | none =>
      match firstSlot s.files (·.named oldName) with
      | some i =>
          (diskSave (put s i
            { (s.files i).setName newName with dirty := true, mtime := tick }) i, 0)
      | none => (s, -1)

/-- One round of the loop in `fs_flush`. -/
def flushSlot (s : Mfs3 × Nat) (i : Slot) : Mfs3 × Nat :=
  let f := s.1.files i
  if f.used ≠ 0 ∧ f.dirty = true ∧ f.tmpfs = 0 then (diskSave s.1 i, s.2 + 1) else s

/-- The table part of `fs_flush`: save what is dirty and count it. -/
def flushFiles (s : Mfs3) : Mfs3 × Nat :=
  (List.finRange maxFiles).foldl flushSlot (s, 0)

/-- The fields a header sector sets in a used entry. -/
def readHeader (f : FSFile) (buf : Sector) : FSFile :=
  { f with
    name := fun j => buf (j.castLE (by decide))
    size := ofLe32 (buf 32) (buf 33) (buf 34) (buf 35)
    tmpfs := buf 37
    perms := ofLe16 (buf 38) (buf 39)
    ctime := ofLe32 (buf 40) (buf 41) (buf 42) (buf 43)
    mtime := ofLe32 (buf 44) (buf 45) (buf 46) (buf 47)
    dirty := false }

/-- One round of the loop in `fs_disk_load`. -/
def loadSlot (disk : Disk) (i : Slot) (f : FSFile) (m : Malloc) : FSFile :=
  let buf := disk (hdrSector i)
  let f := { f with used := buf 36 }
  if f.used = 0 then f
  else
    let f := readHeader f buf
    if f.isDir then { f with data := none }
    else
      match m.grant maxData with
      | none => { f with data := none, used := 0 }
      | some cap =>
          { f with data := some ⟨cap, fun off =>
              if off < maxData then cellAt disk (dataSector i 0) off else 0⟩ }

/-- The superblock check of `fs_init`. -/
def hasMagic (disk : Disk) : Bool :=
  disk 0 0 == 'M'.toUInt8 && disk 0 1 == 'F'.toUInt8 &&
    disk 0 2 == 'S'.toUInt8 && disk 0 3 == '3'.toUInt8

/-- The sector `fs_disk_write_magic` writes. -/
def magicSector : Sector := fun j =>
  match j.val with
  | 0 => 'M'.toUInt8
  | 1 => 'F'.toUInt8
  | 2 => 'S'.toUInt8
  | 3 => '3'.toUInt8
  | _ => 0

/-- The loop of `fs_init` over the new table. -/
def initSlot (f : FSFile) : FSFile :=
  { f with
    used := 0, data := none, dirty := false, tmpfs := 0, perms := 0, ctime := 0, mtime := 0 }

/-- `fs_init` on the disk of a state. The new table is what `malloc` returned:
`raw` is whatever stood there. -/
def fsInit (s : Mfs3) (raw : Slot → FSFile) (m : Slot → Malloc) : Mfs3 :=
  if hasMagic s.disk then
    { s with files := fun i => loadSlot s.disk i (initSlot (raw i)) (m i) }
  else
    { s with
      files := fun i => initSlot (raw i)
      disk := writeBlock s.disk 0 magicSector }

end OriaOS.Fs
