import OriaOS.Fs.Table

/-!
# The MFS4 inode table

The functions of `mfs4.c` on the table of 128 inodes, and the whole file system:
both tables, the disk, and the operations on them. `mfs4_flush` and `mfs4_load`
move the inode table as raw memory, 144 bytes an inode.

Paths are never null. The functions that only read (`mfs4_resolve`, `mfs4_stat`,
`mfs4_listdir`) change nothing and are not operations here.
-/

namespace OriaOS.Fs

open OriaOS.Lib

/-- `MFS4_MAX_INODES`. -/
abbrev maxInodes : Nat := 128

/-- `MFS4_PATH_LEN`. -/
abbrev pathLen : Nat := 64

/-- `sizeof(MFS4Inode)`. -/
abbrev inodeSize : Nat := 144

/-- `MFS4_INODE_BYTES`. -/
abbrev inodeBytes : Nat := maxInodes * inodeSize

/-- `MFS4_INODE_SECTS`. -/
abbrev inodeSects : Nat := 36

/-- `MFS4_LBA_META`. -/
abbrev lbaMeta : Nat := 513

/-- `MFS4_LBA_DATA`. -/
abbrev lbaData : Nat := 514

def typeFile : UInt8 := 1
def typeDir : UInt8 := 2
def typeSymlink : UInt8 := 3

/-- `MFS4Inode`. -/
structure MFS4Inode where
  type : UInt8
  used : UInt8
  pad : UInt16
  inodeId : UInt32
  path : Fin pathLen → UInt8
  target : Fin pathLen → UInt8
  ctime : UInt32
  mtime : UInt32

/-- The inode table and the next inode number. -/
structure Mfs4 where
  inodes : Fin maxInodes → MFS4Inode
  nextInodeId : UInt32

namespace MFS4Inode

/-- The bytes of an inode in memory. -/
def byte (nd : MFS4Inode) (o : Nat) : UInt8 :=
  if h : 8 ≤ o ∧ o < 72 then nd.path ⟨o - 8, show o - 8 < 64 by omega⟩
  else if h : 72 ≤ o ∧ o < 136 then nd.target ⟨o - 72, show o - 72 < 64 by omega⟩
  else match o with
    | 0 => nd.type
    | 1 => nd.used
    | 2 => nd.pad.toUInt8
    | 3 => (nd.pad >>> 8).toUInt8
    | 4 => nd.inodeId.toUInt8
    | 5 => (nd.inodeId >>> 8).toUInt8
    | 6 => (nd.inodeId >>> 16).toUInt8
    | 7 => (nd.inodeId >>> 24).toUInt8
    | 136 => nd.ctime.toUInt8
    | 137 => (nd.ctime >>> 8).toUInt8
    | 138 => (nd.ctime >>> 16).toUInt8
    | 139 => (nd.ctime >>> 24).toUInt8
    | 140 => nd.mtime.toUInt8
    | 141 => (nd.mtime >>> 8).toUInt8
    | 142 => (nd.mtime >>> 16).toUInt8
    | 143 => (nd.mtime >>> 24).toUInt8
    | _ => 0

/-- The inode that stands in memory. -/
def ofBytes (raw : Nat → UInt8) : MFS4Inode where
  type := raw 0
  used := raw 1
  pad := ofLe16 (raw 2) (raw 3)
  inodeId := ofLe32 (raw 4) (raw 5) (raw 6) (raw 7)
  path := fun k => raw (8 + k.val)
  target := fun k => raw (72 + k.val)
  ctime := ofLe32 (raw 136) (raw 137) (raw 138) (raw 139)
  mtime := ofLe32 (raw 140) (raw 141) (raw 142) (raw 143)

theorem ofBytes_byte (nd : MFS4Inode) {raw : Nat → UInt8}
    (h : ∀ o < inodeSize, raw o = nd.byte o) : ofBytes raw = nd := by
  have hpath : (fun k : Fin pathLen => raw (8 + k.val)) = nd.path := by
    ext k
    have hk : k.val < 64 := k.isLt
    rw [h (8 + k.val) (show 8 + k.val < 144 by omega), byte, dif_pos (by omega)]
    simp
  have htarget : (fun k : Fin pathLen => raw (72 + k.val)) = nd.target := by
    ext k
    have hk : k.val < 64 := k.isLt
    rw [h (72 + k.val) (show 72 + k.val < 144 by omega), byte, dif_neg (by omega),
      dif_pos (by omega)]
    simp
  simp only [ofBytes, hpath, htarget]
  simp [h, byte, inodeSize]

end MFS4Inode

/-- The table as memory. -/
def rawTable (inodes : Fin maxInodes → MFS4Inode) (off : Nat) : UInt8 :=
  if h : off < inodeBytes then
    (inodes ⟨off / inodeSize, Nat.div_lt_of_lt_mul (Nat.mul_comm .. ▸ h)⟩).byte (off % inodeSize)
  else 0

/-- The path of an inode as `s_eq` reads it. -/
def pathStr (s : Mfs4) (i : Fin maxInodes) : CString :=
  CString.read (rawTable s.inodes) inodeBytes (i.val * inodeSize + 8)

/-- The target of an inode as a string. -/
def targetStr (s : Mfs4) (i : Fin maxInodes) : CString :=
  CString.read (rawTable s.inodes) inodeBytes (i.val * inodeSize + 72)

/-- `find_inode`. -/
def findInode (s : Mfs4) (path : CString) : Option (Fin maxInodes) :=
  (List.finRange maxInodes).find? fun i => (s.inodes i).used != 0 && pathStr s i == path

/-- `alloc_inode`. -/
def allocInode (s : Mfs4) : Option (Fin maxInodes) :=
  (List.finRange maxInodes).find? fun i => (s.inodes i).used == 0

/-- Fill a free inode. -/
def putInode (s : Mfs4) (i : Fin maxInodes) (type : UInt8) (id : UInt32)
    (path target : CString) (ctime mtime : UInt32) : Mfs4 :=
  let nd := s.inodes i
  let nd :=
    { nd with
      used := 1, type := type, inodeId := id
      path := path.copyTo nd.path, target := target.copyTo nd.target
      ctime := ctime, mtime := mtime }
  { s with inodes := Function.update s.inodes i nd }

/-- Fill the first free inode under a new number. -/
def newInode (s : Mfs4) (type : UInt8) (path target : CString) (ctime mtime : UInt32) :
    Option Mfs4 :=
  (allocInode s).map fun i =>
    putInode { s with nextInodeId := s.nextInodeId + 1 } i type s.nextInodeId path target
      ctime mtime

/-- `mfs4_symlink`. -/
def mfs4Symlink (s : Mfs4) (link target : CString) (tick : UInt32) : Mfs4 × Int :=
  match findInode s link with
  | some _ => (s, -1)
  | none =>
      match newInode s typeSymlink link target tick tick with
      | none => (s, -1)
      | some s => (s, 0)

/-- `mfs4_hardlink`. -/
def mfs4Hardlink (s : Mfs4) (link original : CString) (tick : UInt32) : Mfs4 × Int :=
  match findInode s link with
  | some _ => (s, -1)
  | none =>
      match findInode s original with
      | none => (s, -1)
      | some o =>
          if (s.inodes o).type ≠ typeFile then (s, -1)
          else
            match allocInode s with
            | none => (s, -1)
            | some i =>
                (putInode s i typeFile (s.inodes o).inodeId link (targetStr s o) tick tick, 0)

/-- `mfs4_register`. -/
def mfs4Register (s : Mfs4) (path : CString) (type : UInt8) (tick : UInt32) : Mfs4 × Int :=
  if path.length = 0 then (s, -1)
  else
    match findInode s path with
    | some _ => (s, 0)
    | none =>
        match newInode s type path path tick tick with
        | none => (s, -1)
        | some s => (s, 0)

/-- Both tables. -/
structure FileSys where
  fs : Mfs3
  mfs : Mfs4

/-- `mfs4_mkdir`. The result of `fs_mkdir` is ignored. -/
def mfs4Mkdir (s : FileSys) (path : CString) (tick tick' : UInt32) : FileSys × Int :=
  if path.length = 0 then (s, -1)
  else
    match findInode s.mfs path with
    | some _ => (s, -1)
    | none =>
        let s := { s with fs := (fsMkdir s.fs path tick).1 }
        match newInode s.mfs typeDir path path tick' tick' with
        | none => (s, -1)
        | some mfs => ({ s with mfs := mfs }, 0)

/-- A used file inode with a given number. -/
def sharesId (nd : MFS4Inode) (id : UInt32) : Bool :=
  nd.used != 0 && nd.type == typeFile && nd.inodeId == id

/-- The reference count of `mfs4_unlink`. -/
def refs (s : Mfs4) (id : UInt32) : Nat :=
  (List.finRange maxInodes).countP fun i => sharesId (s.inodes i) id

/-- `mfs4_unlink`. -/
def mfs4Unlink (s : FileSys) (path : CString) : FileSys × Int :=
  match findInode s.mfs path with
  | none => (s, -1)
  | some i =>
      let nd := s.mfs.inodes i
      let fs :=
        if nd.type = typeFile ∧ refs s.mfs nd.inodeId ≤ 1 then
          (fsDelete s.fs (targetStr s.mfs i)).1
        else s.fs
      let inodes := Function.update s.mfs.inodes i { nd with used := 0 }
      ({ s with fs := fs, mfs := { s.mfs with inodes := inodes } }, 0)

/-- The last part of `mfs4_rename`: the new path and time of the inode. -/
def movePath (s : Mfs4) (i : Fin maxInodes) (newPath : CString) (tick : UInt32) : Mfs4 :=
  let nd := s.inodes i
  let nd := { nd with path := newPath.copyTo nd.path, mtime := tick }
  { s with inodes := Function.update s.inodes i nd }

/-- The loop of `mfs4_rename` that gives all hard links the new target. -/
def retarget (s : Mfs4) (id : UInt32) (newPath : CString) : Mfs4 :=
  { s with inodes := fun j =>
      let nd := s.inodes j
      if sharesId nd id then { nd with target := newPath.copyTo nd.target } else nd }

/-- `mfs4_rename`. -/
def mfs4Rename (s : FileSys) (oldPath newPath : CString) (tick tick' : UInt32) :
    FileSys × Int :=
  match findInode s.mfs oldPath with
  | none => (s, -1)
  | some i =>
      match findInode s.mfs newPath with
      | some _ => (s, -1)
      | none =>
          let nd := s.mfs.inodes i
          if nd.type = typeFile then
            let r := fsRename s.fs (targetStr s.mfs i) newPath tick
            if r.2 ≠ 0 then ({ s with fs := r.1 }, -1)
            else
              ({ fs := r.1
                 mfs := movePath (retarget s.mfs nd.inodeId newPath) i newPath tick' }, 0)
          else ({ s with mfs := movePath s.mfs i newPath tick' }, 0)

/-! ## Persistence -/

/-- The metadata sector of `mfs4_flush`. -/
def metaSector (s : Mfs4) : Sector := fun j =>
  match j.val with
  | 0 => 'M'.toUInt8
  | 1 => 'F'.toUInt8
  | 2 => 'S'.toUInt8
  | 3 => '4'.toUInt8
  | 4 => s.nextInodeId.toUInt8
  | 5 => (s.nextInodeId >>> 8).toUInt8
  | 6 => (s.nextInodeId >>> 16).toUInt8
  | 7 => (s.nextInodeId >>> 24).toUInt8
  | _ => 0

/-- `mfs4_flush`. The table fills its 36 sectors exactly. -/
def mfs4Flush (s : Mfs4) (disk : Disk) : Disk :=
  writeRun (writeBlock disk lbaMeta (metaSector s)) lbaData inodeSects
    (blockOf sectorSize (rawTable s.inodes))

/-- `mfs4_load`: the tables on the disk, unless the magic is missing. -/
def mfs4Load (disk : Disk) : Option Mfs4 :=
  let buf := disk lbaMeta
  if buf 0 != 'M'.toUInt8 || buf 1 != 'F'.toUInt8 || buf 2 != 'S'.toUInt8 ||
      buf 3 != '4'.toUInt8 then
    none
  else
    some
      { nextInodeId := ofLe32 (buf 4) (buf 5) (buf 6) (buf 7)
        inodes := fun i => MFS4Inode.ofBytes fun o => cellAt disk lbaData (i.val * inodeSize + o) }

/-- One round of the table scan in `mfs4_init`. The flag is set when the loop has
been left for want of a free inode. -/
def scanSlot (files : Slot → FSFile) (s : Mfs4 × Bool) (i : Slot) : Mfs4 × Bool :=
  let f := files i
  if s.2 || f.used == 0 then s
  else
    match newInode s.1 (if f.isDir then typeDir else typeFile) f.nameStr f.nameStr
        f.ctime f.mtime with
    | none => (s.1, true)
    | some m => (m, false)

/-- `mfs4_init`. -/
def mfs4Init (s : Mfs4) (fs : Mfs3) : Mfs4 :=
  match mfs4Load fs.disk with
  | some m => m
  | none =>
      ((List.finRange maxFiles).foldl (scanSlot fs.files)
        ({ inodes := fun i => { s.inodes i with used := 0 }, nextInodeId := 1 }, false)).1

/-- `fs_flush`. -/
def fsFlush (s : FileSys) : FileSys × Nat :=
  let r := flushFiles s.fs
  ({ s with fs := { r.1 with disk := mfs4Flush s.mfs r.1.disk } }, r.2)

/-- The statically allocated inode table before `mfs4_init`. -/
def zeroInode : MFS4Inode where
  type := 0
  used := 0
  pad := 0
  inodeId := 0
  path := fun _ => 0
  target := fun _ => 0
  ctime := 0
  mtime := 0

/-- A boot on the disk of a state: `fs_init`, then `mfs4_init`. -/
def boot (s : Mfs3) (raw : Slot → FSFile) (m : Slot → Malloc) : FileSys :=
  let fs := fsInit s raw m
  ⟨fs, mfs4Init ⟨fun _ => zeroInode, 1⟩ fs⟩

/-! ## Operations -/

/-- The operations on a running file system, with the timer values and the
`malloc` answers they meet. -/
inductive Op
  | write (name text : CString) (tick : UInt32) (m : Malloc)
  | writeBin (name : CString) (bytes : List UInt8) (tick : UInt32) (m : Malloc)
  | writeTmp (name : CString) (bytes : List UInt8) (tick : UInt32) (m : Malloc)
  | delete (name : CString)
  | mkdir (name : CString) (tick : UInt32)
  | rename (oldName newName : CString) (tick : UInt32)
  | setPerms (name : CString) (perms : UInt16)
  | symlink (link target : CString) (tick : UInt32)
  | hardlink (link original : CString) (tick : UInt32)
  | register (path : CString) (type : UInt8) (tick : UInt32)
  | mkdirInode (path : CString) (tick tick' : UInt32)
  | unlinkInode (path : CString)
  | renameInode (oldPath newPath : CString) (tick tick' : UInt32)
  | flush

def opStep (s : FileSys) : Op → FileSys
  | .write name text tick m => { s with fs := (fsWrite s.fs name text tick m).1 }
  | .writeBin name bytes tick m => { s with fs := (fsWriteBin s.fs name bytes tick m).1 }
  | .writeTmp name bytes tick m => { s with fs := (fsWriteTmp s.fs name bytes tick m).1 }
  | .delete name => { s with fs := (fsDelete s.fs name).1 }
  | .mkdir name tick => { s with fs := (fsMkdir s.fs name tick).1 }
  | .rename oldName newName tick => { s with fs := (fsRename s.fs oldName newName tick).1 }
  | .setPerms name perms => { s with fs := (fsSetPerms s.fs name perms).1 }
  | .symlink link target tick => { s with mfs := (mfs4Symlink s.mfs link target tick).1 }
  | .hardlink link original tick => { s with mfs := (mfs4Hardlink s.mfs link original tick).1 }
  | .register path type tick => { s with mfs := (mfs4Register s.mfs path type tick).1 }
  | .mkdirInode path tick tick' => (mfs4Mkdir s path tick tick').1
  | .unlinkInode path => (mfs4Unlink s path).1
  | .renameInode oldPath newPath tick tick' => (mfs4Rename s oldPath newPath tick tick').1
  | .flush => (fsFlush s).1

end OriaOS.Fs
