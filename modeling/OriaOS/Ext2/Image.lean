import Mathlib.Data.UInt

/-!
# The ext2 driver

`ext2.c` reads an ext2 image through `ata_read_sector`. The buffers of the driver are
functions from an offset to a byte. Two of them are never in use for different things at
one time: the walk over a directory reads `g_dir_buf`, `read_inode` goes through
`g_block_buf` and the indirect blocks have buffers of their own.
-/

namespace OriaOS.Ext2

/-- A buffer, by offset. -/
abbrev Buf := Nat → UInt8

/-- A string up to its zero byte. -/
abbrev Text := List UInt8

abbrev magic : UInt16 := 0xEF53
abbrev rootIno : UInt32 := 2
abbrev maxBlock : UInt32 := 4096
abbrev sect : UInt32 := 512
abbrev bgdSize : UInt32 := 32
abbrev sIfdir : UInt16 := 0x4000

/-- The disk: whether there is one, and its sectors, where they can be read. -/
structure Disk where
  present : Bool
  sector : UInt32 → Option Buf

/-- What `ext2_mount` finds out. -/
structure Mount where
  disk : Disk
  blockSize : UInt32
  inodesPerGrp : UInt32
  inodeSize : UInt32
  bgdtBlock : UInt32

/-- `read_sectors`: the sectors from `lba` on, one behind the other. -/
def readSectors (disk : Disk) (lba : UInt32) : Nat → Option Buf
  | 0 => some fun _ => 0
  | n + 1 =>
      (readSectors disk lba n).bind fun buf =>
        (disk.sector (lba + UInt32.ofNat n)).map fun s p =>
          if p < n * 512 then buf p else s (p - n * 512)

def u32 (b : Buf) (p : Nat) : UInt32 :=
  (b p).toUInt32 ||| (b (p + 1)).toUInt32 <<< 8 ||| (b (p + 2)).toUInt32 <<< 16 |||
    (b (p + 3)).toUInt32 <<< 24

def u16 (b : Buf) (p : Nat) : UInt16 := (b p).toUInt16 ||| (b (p + 1)).toUInt16 <<< 8

/-- `ext2_mount`. -/
def ext2Mount (disk : Disk) : Option Mount :=
  if disk.present = false then none
  else
    (readSectors disk 2 2).bind fun sb =>
      let blockSize : UInt32 := 1024 <<< u32 sb 24
      let isz := u16 sb 88
      let inodeSize : UInt32 := if 1 ≤ u32 sb 76 ∧ isz ≠ 0 then isz.toUInt32 else 128
      if u16 sb 56 ≠ magic then none
      else if maxBlock < blockSize then none
      else
        some
          { disk := disk
            blockSize := blockSize
            inodesPerGrp := u32 sb 40
            inodeSize := if 256 < inodeSize then 256 else inodeSize
            bgdtBlock := if blockSize = 1024 then 2 else 1 }

section Read
variable (m : Mount)

/-- `ext2_read_block`. Block 0 stands for a hole. -/
def ext2ReadBlock (blk : UInt32) : Option Buf :=
  if blk = 0 then some fun _ => 0
  else readSectors m.disk (blk * (m.blockSize / sect)) (m.blockSize / sect).toNat

/-- `read_bgd`. -/
def readBgd (grp : UInt32) : Option Buf :=
  let byteOff := grp * bgdSize
  (ext2ReadBlock m (m.bgdtBlock + byteOff / m.blockSize)).map fun b p =>
    b ((byteOff % m.blockSize).toNat + p)

/-- `read_inode`. The fields that are read lie in the first 128 bytes of an inode. -/
def readInode (ino : UInt32) : Option Buf :=
  if ino = 0 ∨ m.inodesPerGrp = 0 then none
  else
    let idx := (ino - 1) % m.inodesPerGrp
    (readBgd m ((ino - 1) / m.inodesPerGrp)).bind fun bgd =>
      let byteOff := idx * m.inodeSize
      (ext2ReadBlock m (u32 bgd 8 + byteOff / m.blockSize)).map fun b p =>
        b ((byteOff % m.blockSize).toNat + p)

/-- `inode_get_block`: the block of the disk behind a block of the file, 0 for a hole. -/
def inodeGetBlock (inode : Buf) (idx : UInt32) : UInt32 :=
  let ptrs := m.blockSize / 4
  if idx < 12 then u32 inode (40 + idx.toNat * 4)
  else
    let idx := idx - 12
    if idx < ptrs then
      let indir := u32 inode (40 + 12 * 4)
      if indir = 0 then 0
      else
        match ext2ReadBlock m indir with
        | none => 0
        | some b => u32 b (idx.toNat * 4)
    else
      let idx := idx - ptrs
      if idx < ptrs * ptrs then
        let dindir := u32 inode (40 + 13 * 4)
        if dindir = 0 then 0
        else
          match ext2ReadBlock m dindir with
          | none => 0
          | some b =>
              let l1 := u32 b ((idx / ptrs).toNat * 4)
              if l1 = 0 then 0
              else
                match ext2ReadBlock m l1 with
                | none => 0
                | some b' => u32 b' ((idx % ptrs).toNat * 4)
      else 0

end Read

def inodeMode (inode : Buf) : UInt16 := u16 inode 0

def inodeFileSize (inode : Buf) : UInt32 := u32 inode 4

def isDir (inode : Buf) : Prop := inodeMode inode &&& sIfdir ≠ 0

instance (inode : Buf) : Decidable (isDir inode) := inferInstanceAs (Decidable (_ ≠ _))

/-! ## Looking up a name -/

/-- `xstrncmp`, from the index `i` on. -/
def xstrncmp (a b : Buf) : Nat → Nat → Int
  | 0, _ => 0
  | n + 1, i =>
      if a i ≠ 0 ∧ b i ≠ 0 ∧ a i = b i then xstrncmp a b n (i + 1)
      else (a i).toNat - (b i).toNat

/-- The bytes of a string, with zeros behind. -/
def textBuf (name : Text) : Buf := fun i => name.getD i 0

/-- How many bytes of a block belong to the directory. -/
def blockLimit (blockSize dirSize offset : Nat) : Nat :=
  if dirSize < offset + blockSize then dirSize - offset else blockSize

/-- The walk of `dir_find` over a block. Each turn goes on by at least one byte. -/
def findInBlock (b : Buf) (limit : Nat) (name : Text) : Nat → Nat → Option UInt32
  | 0, _ => none
  | fuel + 1, p =>
      if p < limit then
        let ino := u32 b p
        let recLen := u16 b (p + 4)
        if recLen = 0 then none
        else
          let nlen := b (p + 6)
          if ino ≠ 0 ∧ nlen = UInt8.ofNat name.length ∧
              xstrncmp (fun i => b (p + 8 + i)) (textBuf name) name.length 0 = 0 then some ino
          else findInBlock b limit name fuel (p + recLen.toNat)
      else none

/-- The loop of `dir_find` over the blocks. A directory is shorter than 2 ^ 32 - 4096, so
that `offset` does not wrap. -/
def findFrom (m : Mount) (inode : Buf) (name : Text) (dirSize : Nat) : Nat → Nat → UInt32
  | 0, _ => 0
  | fuel + 1, offset =>
      let blockSize := m.blockSize.toNat
      if offset < dirSize then
        let blkOff := offset % blockSize
        let blkNo := inodeGetBlock m inode (UInt32.ofNat (offset / blockSize))
        if blkNo = 0 then 0
        else
          match ext2ReadBlock m blkNo with
          | none => 0
          | some b =>
              if blkOff ≠ 0 then findFrom m inode name dirSize fuel (offset + (blockSize - blkOff))
              else
                match findInBlock b (blockLimit blockSize dirSize offset) name blockSize 0 with
                | some ino => ino
                | none => findFrom m inode name dirSize fuel (offset + blockSize)
      else 0

/-- `dir_find`. -/
def dirFind (m : Mount) (dirIno : UInt32) (name : Text) : UInt32 :=
  match readInode m dirIno with
  | none => 0
  | some inode =>
      if ¬ isDir inode then 0
      else
        let dirSize := (inodeFileSize inode).toNat
        findFrom m inode name dirSize dirSize 0

/-- The loop of `resolve_path`. Each turn reads at least one byte. -/
def resolveFrom (m : Mount) : Nat → Text → UInt32 → UInt32
  | 0, _, cur => cur
  | _ + 1, [], cur => cur
  | fuel + 1, c :: p, cur =>
      let comp := (c :: p).takeWhile (· ≠ 0x2F)
      let slash := (c :: p).dropWhile (· ≠ 0x2F)
      if comp.length = 0 then resolveFrom m fuel slash.tail cur
      else if 255 ≤ comp.length then 0
      else
        let next := dirFind m cur comp
        if next = 0 then 0 else resolveFrom m fuel slash.tail next

/-- A path without the `/` in front of it. -/
def stripSlash (path : Text) : Text := if path.head? = some 0x2F then path.tail else path

/-- `resolve_path`. -/
def resolvePath (m : Mount) (path : Text) : UInt32 :=
  if path = [] ∨ path = [0x2F] then rootIno
  else resolveFrom m (stripSlash path).length (stripSlash path) rootIno

/-! ## Listing a directory -/

/-- A line that `ext2_ls` prints: the size is blank where the inode cannot be read, and a
directory is printed in another colour. -/
structure Line where
  ino : UInt32
  size : Option UInt32
  name : Text
  colored : Bool

/-- The `nlen` bytes of a name, up to a zero byte. -/
def entryName (b : Buf) (p : Nat) : Text :=
  ((List.range (b (p + 6)).toNat).map fun k => b (p + 8 + k)).takeWhile (· ≠ 0)

/-- The test of `ext2_ls` for `.` and `..`. -/
def isDots (name : Text) : Bool :=
  let c := textBuf name
  c 0 = 0x2E && (c 1 = 0 || (c 1 = 0x2E && c 2 = 0))

/-- The walk of `ext2_ls` over a block. -/
def lsBlock (m : Mount) (b : Buf) (limit : Nat) : Nat → Nat → List Line
  | 0, _ => []
  | fuel + 1, p =>
      if p < limit then
        let ino := u32 b p
        let recLen := u16 b (p + 4)
        if recLen = 0 then []
        else
          let rest := lsBlock m b limit fuel (p + recLen.toNat)
          if ino ≠ 0 ∧ 0 < b (p + 6) ∧ ¬ isDots (entryName b p) then
            ⟨ino, (readInode m ino).map inodeFileSize, entryName b p, b (p + 7) = 2⟩ :: rest
          else rest
      else []

/-- The loop of `ext2_ls` over the blocks. -/
def lsFrom (m : Mount) (inode : Buf) (dirSize : Nat) : Nat → Nat → List Line
  | 0, _ => []
  | fuel + 1, offset =>
      let blockSize := m.blockSize.toNat
      if offset < dirSize then
        let blkNo := inodeGetBlock m inode (UInt32.ofNat (offset / blockSize))
        if blkNo = 0 then lsFrom m inode dirSize fuel (offset + blockSize)
        else
          match ext2ReadBlock m blkNo with
          | none => []
          | some b =>
              lsBlock m b (blockLimit blockSize dirSize offset) blockSize 0 ++
                lsFrom m inode dirSize fuel (offset + blockSize)
      else []

/-- What `ext2_ls` prints when it lists nothing. -/
inductive LsError where
  | notMounted
  | pathNotFound
  | badInode
  | notDirectory
  deriving DecidableEq

/-- `ext2_ls`. -/
def ext2Ls (mounted : Option Mount) (path : Text) : Except LsError (List Line) :=
  match mounted with
  | none => .error .notMounted
  | some m =>
      let dirIno := resolvePath m path
      if dirIno = 0 then .error .pathNotFound
      else
        match readInode m dirIno with
        | none => .error .badInode
        | some inode =>
            if ¬ isDir inode then .error .notDirectory
            else
              let dirSize := (inodeFileSize inode).toNat
              .ok (lsFrom m inode dirSize dirSize 0)

end OriaOS.Ext2
