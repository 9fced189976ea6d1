import OriaOS.Fs.Table
import OriaOS.Heap.Memory

/-!
# The table over the heap

The functions of `fs.c` on entries that hold the pointers to their data. Buffers are
taken from the kernel heap and given back to it; all of them lie in one memory with
the headers of the allocator.

The entries of the table are kept apart from the memory of the heap: they lie in a
block of their own that is live all the time.
-/

namespace OriaOS.Fs

open OriaOS.Lib OriaOS.Heap
open OriaOS.Lib.BlockList (Cell)

/-- `FSFile` with its pointer. -/
structure Entry where
  name : Fin maxName → UInt8
  size : UInt32
  used : UInt8
  tmpfs : UInt8
  dirty : Bool
  perms : UInt16
  ctime : UInt32
  mtime : UInt32
  data : Nat

namespace Entry

/-- The entry with a buffer in the place of the pointer. -/
def file (e : Entry) (data : Option Buf) : FSFile :=
  ⟨e.name, e.size, e.used, e.tmpfs, e.dirty, e.perms, e.ctime, e.mtime, data⟩

/-- The entry without its data. -/
def head (e : Entry) : FSFile := e.file none

def setName (e : Entry) (name : CString) : Entry := { e with name := name.copyTo e.name }

end Entry

structure Store where
  files : Slot → Entry
  disk : Disk
  mem : HeapMem

/-- What one call leaves where the allocator writes headers and where clearing a buffer or
the copy runs over one, and the time of the call. -/
structure Noise where
  freed : Nat → UInt8
  taken : Nat → UInt8
  cleared : Nat → Cell
  scrap : Nat → Cell
  tick : UInt32

/-- Zeros everywhere, at tick zero. -/
def quiet : Noise :=
  ⟨fun _ => 0, fun _ => 0, fun _ => ⟨0, false, 0⟩, fun _ => ⟨0, false, 0⟩, 0⟩

/-- The buffer behind a pointer: the size in its header, and the bytes. -/
def bufferAt (mem : HeapMem) (p : Nat) : Option Buf :=
  if p = 0 then none
  else some ⟨(mem.heap.mem (p - headerSize)).size, fun k => mem.byte (p + k)⟩

namespace Store

def heads (s : Store) (i : Slot) : FSFile := (s.files i).head

/-- The table as the functions on buffers see it. -/
def table (s : Store) : Mfs3 :=
  ⟨fun i => (s.files i).file (bufferAt s.mem (s.files i).data), s.disk, false⟩

def put (s : Store) (i : Slot) (e : Entry) : Store :=
  { s with files := Function.update s.files i e }

/-- `fs_disk_save`, which reads the data through the pointer. -/
def save (s : Store) (i : Slot) : Store :=
  let t := diskSave s.table i
  { s with disk := t.disk, files := fun j => { s.files j with dirty := (t.files j).dirty } }

/-- `fs_ensure_data`: the table and the pointer. -/
def ensureData (s : Store) (i : Slot) (v : Noise) : Option (Store × Nat) :=
  if (s.files i).data ≠ 0 then some (s, (s.files i).data)
  else
    (s.mem.malloc maxData v.taken).map fun r =>
      let s := { s with mem := r.1 }.put i { s.files i with data := r.2 }
      if r.2 = 0 then (s, 0)
      else ({ s with mem := s.mem.store r.2 (List.replicate maxData 0) v.cleared }, r.2)

/-- `fs_strcpy` of a text with its terminator into the buffer of a slot, and the other
fields. -/
def fillText (s : Store) (i : Slot) (text : CString) (v : Noise) (finish : Entry → Entry) :
    Option (Store × Int) :=
  (s.ensureData i v).map fun r =>
    if r.2 = 0 then (r.1, 0)
    else
      (({ r.1 with mem := r.1.mem.store r.2 (text.bytes ++ [0]) v.scrap }.put i
        (finish { r.1.files i with size := UInt32.ofNat (text.length + 1) })).save i, 1)

/-- `fs_write`. -/
def write (s : Store) (name text : CString) (v : Noise) : Option (Store × Int) :=
  if maxData ≤ text.length then some (s, 0)
  else
    match firstSlot s.heads (·.isFile name) with
    | some i => s.fillText i text v fun e => { e with mtime := v.tick, dirty := true }
    | none =>
        match firstSlot s.heads FSFile.isFree with
        | some i =>
            (s.put i ((s.files i).setName name)).fillText i text v fun e =>
              { e with
                used := 1, tmpfs := 0, dirty := true, perms := permRead ||| permWrite
                ctime := v.tick, mtime := v.tick }
        | none => some (s, 0)

/-- Give the buffer of a slot back. -/
def release (s : Store) (i : Slot) (junk : Nat → UInt8) : Option Store :=
  if (s.files i).data = 0 then some s
  else
    (s.mem.free (s.files i).data junk).map fun mem =>
      { s with mem := mem }.put i { s.files i with data := 0 }

/-- Take a buffer for a slot, copy the bytes there and set the other fields. -/
def fill (s : Store) (i : Slot) (bytes : List UInt8) (v : Noise) (finish : Entry → Entry) :
    Option (Store × Int) :=
  (s.mem.malloc bytes.length v.taken).map fun r =>
    if r.2 = 0 then ({ s with mem := r.1 }.put i { s.files i with data := 0 }, 0)
    else
      (({ s with mem := r.1.store r.2 bytes v.scrap }.put i
        (finish { s.files i with data := r.2, size := UInt32.ofNat bytes.length })).save i, 1)

/-- `fs_write_bin_internal`. -/
def writeBinInternal (s : Store) (name : CString) (bytes : List UInt8) (tmpfs : UInt8)
    (v : Noise) : Option (Store × Int) :=
  if maxBinData < bytes.length then some (s, 0)
  else
    match firstSlot s.heads (·.isFile name) with
    | some i =>
        (s.release i v.freed).bind fun s => s.fill i bytes v fun e =>
          { e with mtime := v.tick, dirty := true, tmpfs := tmpfs }
    | none =>
        match firstSlot s.heads FSFile.isFree with
        | some i =>
            (s.put i ((s.files i).setName name)).fill i bytes v fun e =>
              { e with
                used := 1, tmpfs := tmpfs, dirty := true
                perms := permRead ||| permWrite ||| permExec
                ctime := v.tick, mtime := v.tick }
        | none => some (s, 0)

/-- `fs_write_bin`. -/
def writeBin (s : Store) (name : CString) (bytes : List UInt8) (v : Noise) :
    Option (Store × Int) :=
  s.writeBinInternal name bytes 0 v

/-- `fs_write_tmp`. -/
def writeTmp (s : Store) (name : CString) (bytes : List UInt8) (v : Noise) :
    Option (Store × Int) :=
  s.writeBinInternal name bytes 1 v

/-- `fs_delete`. -/
def delete (s : Store) (name : CString) (v : Noise) : Option (Store × Int) :=
  match firstSlot s.heads (·.named name) with
  | some i =>
      ((s.put i { s.files i with used := 0 }).release i v.freed).map fun s => (s.save i, 1)
  | none => some (s, 0)

/-- `fs_rename`. -/
def rename (s : Store) (oldName newName : CString) (v : Noise) : Store × Int :=
  match firstSlot s.heads (·.named newName) with
  | some _ => (s, -1)
  | none =>
      match firstSlot s.heads (·.named oldName) with
      | some i =>
          ((s.put i
            { (s.files i).setName newName with dirty := true, mtime := v.tick }).save i, 0)
      | none => (s, -1)

/-- `fs_read_bin`: the pointer and the size. -/
def readBin (s : Store) (name : CString) : Option (Nat × UInt32) :=
  (firstSlot s.heads (·.isFile name)).map fun i => ((s.files i).data, (s.files i).size)

/-- The bytes behind what `fs_read_bin` returns. -/
def readBytes (s : Store) (name : CString) : Option (List UInt8) :=
  match s.readBin name with
  | some (p, size) => if p = 0 then none else some (s.mem.bytesAt p size.toNat)
  | none => none

/-- The text behind what `fs_read` returns. -/
def readText (s : Store) (name : CString) : Option CString :=
  match s.readBin name with
  | some (p, _) => if p = 0 then none else some (CString.read s.mem.byte (2 ^ 64) p)
  | none => none

/-- A read through the pointers is one of the table with buffers. -/
theorem readBin_table (s : Store) (name : CString) :
    fsReadBin s.table name = (s.readBin name).map fun r => (bufferAt s.mem r.1, r.2) := by
  have hfirst : firstSlot s.table.files (·.isFile name) = firstSlot s.heads (·.isFile name) := rfl
  rw [fsReadBin, readBin, hfirst, Option.map_map]
  rfl

end Store

end OriaOS.Fs
