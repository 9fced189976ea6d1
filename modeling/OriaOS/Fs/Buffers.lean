import OriaOS.Fs.Edit

/-!
# File buffers

Every used entry that is not a directory has a buffer of at least its size, and
no write leaves the buffer it is given. Three paths allocate: a text write and a
load take the default size, a binary write takes the size of its data. A later
text write trusts the default size, so it must fit the buffer it finds.
-/

namespace OriaOS.Fs

open OriaOS.Lib

variable {b : Buf} {name : CString} {f : FSFile} {s : FileSys} {bytes : List UInt8} {m : Malloc}
  {tick : UInt32}

/-- The buffers of the table, and no store past the end of one so far. -/
structure BuffersOk (s : Mfs3) : Prop where
  buffer : ∀ i, (s.files i).used ≠ 0 → (s.files i).isDir = false →
    ∃ b, (s.files i).data = some b ∧ (s.files i).size.toNat ≤ b.cap
  inside : s.overflow = false

/-! ## The buffer of a slot -/

/-- A free slot has no buffer, and a buffer holds the size of its entry. -/
structure SlotHeap (f : FSFile) : Prop where
  free : f.used = 0 → f.data = none
  fits : ∀ b, f.data = some b → f.size.toNat ≤ b.cap

theorem SlotHeap.dirty (f : FSFile) (d : Bool) (h : SlotHeap f) :
    SlotHeap { f with dirty := d } :=
  ⟨h.free, h.fits⟩

theorem SlotHeap.of_data_none (h : f.data = none) : SlotHeap f :=
  ⟨fun _ => h, fun b hb => by simp [h] at hb⟩

theorem Malloc.le_of_grant {size cap : Nat} (h : m.grant size = some cap) : size ≤ cap := by
  unfold Malloc.grant at h
  split at h
  · cases h
  · obtain ⟨extra, -, rfl⟩ := Option.map_eq_some_iff.mp h
    exact Nat.le_add_right size extra

/-- A text fits the buffer it is stored in when it fits the one already there. -/
theorem ensureData_fits {len : Nat} (h : ensureData f m = some b) (hlen : len ≤ maxData)
    (hfits : ∀ b, f.data = some b → len ≤ b.cap) : len ≤ b.cap := by
  unfold ensureData at h
  split at h
  · rename_i b' hb'
    cases h
    exact hfits b hb'
  · obtain ⟨cap, hcap, rfl⟩ := Option.map_eq_some_iff.mp h
    exact hlen.trans (Malloc.le_of_grant hcap)

theorem TextSlot.heap {g : FSFile} {text : CString} (h : TextSlot f g text m b)
    (hfits : text.length + 1 ≤ b.cap) : SlotHeap g where
  free := fun hfree => absurd hfree h.used
  fits := by
    intro b' hb'
    rw [h.data] at hb'
    cases hb'
    rw [h.size]
    exact (Nat.mod_le _ _).trans hfits

theorem BinSlot.heap {g : FSFile} (h : BinSlot g bytes m b) : SlotHeap g where
  free := fun hfree => absurd hfree h.used
  fits := by
    intro b' hb'
    rw [h.data] at hb'
    cases hb'
    rw [h.size]
    exact (Nat.mod_le _ _).trans (binBuf_cap h.buffer)

/-- The heap side of the table. -/
structure HeapOk (s : Mfs3) : Prop where
  slots : ∀ i, SlotHeap (s.files i)
  inside : s.overflow = false

/-- A text write that finds its file finds room in the buffer. -/
def writeFits (s : Mfs3) : Op → Prop
  | .write name text _ _ => text.length < maxData → ∀ i b,
      firstSlot s.files (·.isFile name) = some i → (s.files i).data = some b →
        text.length + 1 ≤ b.cap
  | _ => True

theorem Edit.heapOk {s t : Mfs3} {Held : Slot → FSFile → Prop}
    {Saved : Slot → FSFile → Bool → Prop} (e : Edit s Held Saved t) (h : HeapOk s)
    (hheld : ∀ i g, Held i g → SlotHeap g)
    (hsaved : ∀ i g o, Saved i g o → SlotHeap g ∧ o = false) : HeapOk t where
  slots := e.slots SlotHeap.dirty h.slots hheld fun i g o hg => (hsaved i g o hg).1
  inside := by
    cases e with
    | same => exact h.inside
    | held => exact h.inside
    | saved i g o hg => simpa [put] using (hsaved i g o hg).2

theorem fsWrite_heapOk {s : Mfs3} {text : CString} (h : HeapOk s)
    (hfits : writeFits s (.write name text tick m)) : HeapOk (fsWrite s name text tick m).1 := by
  apply (fsWrite_edit s name text tick m).heapOk h
  · rintro i g ⟨hfree, -, hdata, -⟩
    exact SlotHeap.of_data_none (hdata.trans ((h.slots i).free hfree))
  · rintro i g o ⟨b, ht, rfl, hcase⟩
    have hroom : text.length + 1 ≤ b.cap := by
      apply ensureData_fits ht.buffer ht.short
      intro b' hb'
      rcases hcase with ⟨hfree, -⟩ | ⟨hi, -⟩
      · simp [(h.slots i).free hfree] at hb'
      · exact hfits ht.short i b' hi hb'
    exact ⟨ht.heap hroom, by simpa [h.inside] using hroom⟩

theorem fsWriteBinInternal_heapOk {s : Mfs3} {tmpfs : UInt8} (h : HeapOk s) :
    HeapOk (fsWriteBinInternal s name bytes tmpfs tick m).1 := by
  apply (fsWriteBinInternal_edit s name bytes tmpfs tick m).heapOk h
  · rintro i g ⟨hdata, -⟩
    exact SlotHeap.of_data_none hdata
  · rintro i g o ⟨b, hb, rfl, -⟩
    exact ⟨hb.heap, h.inside⟩

theorem fsFlush_heapOk (h : HeapOk s.fs) : HeapOk (fsFlush s).1.fs := by
  have hfiles : HeapOk (flushFiles s.fs).1 := by
    apply flushFiles_keeps h
    intro t i ht _
    constructor
    · intro j
      obtain ⟨d, hd⟩ := diskSave_files t i j
      rw [hd]
      exact (ht.slots j).dirty _ d
    · rw [diskSave_overflow]
      exact ht.inside
  constructor
  · rw [fsFlush_files]
    exact hfiles.slots
  · rw [fsFlush_overflow]
    exact hfiles.inside

/-- Every operation whose text fits keeps the heap side of the table. -/
theorem opStep_heapOk {op : Op} (h : HeapOk s.fs) (hfits : writeFits s.fs op) :
    HeapOk (opStep s op).fs := by
  apply opStep_rule s op h
  · rintro name text tick m rfl
    exact fsWrite_heapOk h hfits
  · intro name bytes tick m _
    exact fsWriteBinInternal_heapOk h
  · intro name bytes tick m _
    exact fsWriteBinInternal_heapOk h
  · intro name
    apply (fsDelete_edit s.fs name).heapOk h
    · exact fun _ _ hf => hf.elim
    · rintro i g o ⟨rfl, rfl⟩
      exact ⟨SlotHeap.of_data_none rfl, h.inside⟩
  · intro name tick
    apply (fsMkdir_edit s.fs name tick).heapOk h
    · exact fun _ _ hf => hf.elim
    · rintro i g o ⟨-, -, -, hdata, -, rfl⟩
      exact ⟨SlotHeap.of_data_none hdata, h.inside⟩
  · intro oldName newName tick
    apply (fsRename_edit s.fs oldName newName tick).heapOk h
    · exact fun _ _ hf => hf.elim
    · rintro i g o ⟨rfl, rfl⟩
      exact ⟨⟨(h.slots i).free, (h.slots i).fits⟩, h.inside⟩
  · intro name perms _
    apply (fsSetPerms_edit s.fs name perms).heapOk h
    · exact fun _ _ hf => hf.elim
    · rintro i g o ⟨-, rfl, rfl⟩
      exact ⟨⟨(h.slots i).free, (h.slots i).fits⟩, h.inside⟩
  · exact fsFlush_heapOk h

/-! ## Files have buffers -/

/-- A used entry that is not a directory has a buffer. -/
def HasData (f : FSFile) : Prop := f.used ≠ 0 → f.isDir = false → f.data ≠ none

/-- An overwriting binary write gets its buffer, and a file without buffer, which
is a directory, stays one. -/
def keepsBuffer (s : Mfs3) : Op → Prop
  | .writeBin name bytes _ m | .writeTmp name bytes _ m => bytes.length ≤ maxBinData → ∀ i,
      firstSlot s.files (·.isFile name) = some i → m.grant bytes.length ≠ none
  | .setPerms name perms => ∀ i, firstSlot s.files (·.named name) = some i →
      (s.files i).data = none → perms &&& permDir ≠ 0
  | _ => True

theorem fsWriteBinInternal_hasData {s : Mfs3} {tmpfs : UInt8} (h : ∀ i, HasData (s.files i))
    (hm : bytes.length ≤ maxBinData → ∀ i, firstSlot s.files (·.isFile name) = some i →
      m.grant bytes.length ≠ none) :
    ∀ i, HasData ((fsWriteBinInternal s name bytes tmpfs tick m).1.files i) := by
  apply (fsWriteBinInternal_edit s name bytes tmpfs tick m).slots (fun _ _ hf => hf) h
  · rintro i g ⟨-, ⟨-, hfree⟩ | ⟨hi, hshort, hb, -⟩⟩
    · exact fun hused => absurd hfree hused
    · exact absurd (Option.map_eq_none_iff.mp hb) (hm hshort i hi)
  · rintro i g o ⟨b, hb, -⟩ - -
    simp [hb.data]

theorem opStep_hasData {op : Op} (h : ∀ i, HasData (s.fs.files i)) (hkeep : keepsBuffer s.fs op) :
    ∀ i, HasData ((opStep s op).fs.files i) := by
  apply opStep_rule (P := fun t => ∀ i, HasData (t.files i)) s op h
  · rintro name text tick m -
    apply (fsWrite_edit s.fs name text tick m).slots (fun _ _ hf => hf) h
    · rintro i g ⟨-, hfree, -⟩ hused
      exact absurd hfree hused
    · rintro i g o ⟨b, ht, -⟩ - -
      simp [ht.data]
  · rintro name bytes tick m rfl
    exact fsWriteBinInternal_hasData h hkeep
  · rintro name bytes tick m rfl
    exact fsWriteBinInternal_hasData h hkeep
  · intro name
    apply (fsDelete_edit s.fs name).slots (fun _ _ hf => hf) h
    · exact fun _ _ hf => hf.elim
    · rintro i g o ⟨rfl, -⟩ hused
      exact absurd rfl hused
  · intro name tick
    apply (fsMkdir_edit s.fs name tick).slots (fun _ _ hf => hf) h
    · exact fun _ _ hf => hf.elim
    · rintro i g o ⟨-, -, hdir, -⟩ - hfile
      simp [hdir] at hfile
  · intro oldName newName tick
    apply (fsRename_edit s.fs oldName newName tick).slots (fun _ _ hf => hf) h
    · exact fun _ _ hf => hf.elim
    · rintro i g o ⟨rfl, -⟩
      exact h i
  · rintro name perms rfl
    apply (fsSetPerms_edit s.fs name perms).slots (fun _ _ hf => hf) h
    · exact fun _ _ hf => hf.elim
    · rintro i g o ⟨hi, rfl, -⟩ - hfile hdata
      exact hkeep i hi hdata (by simpa [FSFile.isDir] using hfile)
  · have hfiles : ∀ i, HasData ((flushFiles s.fs).1.files i) := by
      apply flushFiles_keeps (P := fun t => ∀ i, HasData (t.files i)) h
      intro t i ht _ j
      obtain ⟨d, hd⟩ := diskSave_files t i j
      rw [hd]
      exact ht j
    rw [fsFlush_files]
    exact hfiles

/-! ## Runs with reloads -/

/-- What happens to the file system: an operation, or a boot from the disk. -/
inductive Event
  | op (o : Op)
  | reload (raw : Slot → FSFile) (m : Slot → Malloc)

def step (s : FileSys) : Event → FileSys
  | .op o => opStep s o
  | .reload raw m => boot s.fs raw m

/-- A running machine that has not loaded a table yet, with any disk. -/
def Fresh (s : FileSys) : Prop :=
  (∀ i, (s.fs.files i).used = 0 ∧ (s.fs.files i).data = none) ∧ s.fs.overflow = false

/-- The sizes a load takes over fit the buffers it allocates. -/
def loadFits (disk : Disk) (raw : Slot → FSFile) (m : Slot → Malloc) : Prop :=
  hasMagic disk = true → ∀ i cap, disk (hdrSector i) 36 ≠ 0 →
    (readHeader (raw i) (disk (hdrSector i))).isDir = false → (m i).grant maxData = some cap →
      (readHeader (raw i) (disk (hdrSector i))).size.toNat ≤ cap

/-- The events that keep the buffers. -/
def safe (s : FileSys) : Event → Prop
  | .op o => writeFits s.fs o ∧ keepsBuffer s.fs o
  | .reload raw m => loadFits s.fs.disk raw m

structure BufInv (s : FileSys) : Prop where
  heap : HeapOk s.fs
  data : ∀ i, HasData (s.fs.files i)

theorem loadSlot_ok {disk : Disk} {i : Slot} (hf : f.data = none)
    (hfits : ∀ cap, disk (hdrSector i) 36 ≠ 0 →
      (readHeader f (disk (hdrSector i))).isDir = false → m.grant maxData = some cap →
      (readHeader f (disk (hdrSector i))).size.toNat ≤ cap) :
    SlotHeap (loadSlot disk i f m) ∧ HasData (loadSlot disk i f m) := by
  unfold loadSlot
  dsimp only
  split
  · rename_i hfree
    exact ⟨SlotHeap.of_data_none hf, fun hused => absurd hfree hused⟩
  · rename_i hused
    split
    · rename_i hdir
      refine ⟨SlotHeap.of_data_none rfl, fun _ hfile => ?_⟩
      exact absurd (hdir.symm.trans hfile) (by decide)
    · rename_i hfile
      split
      · exact ⟨SlotHeap.of_data_none rfl, fun hused' => absurd rfl hused'⟩
      · rename_i cap hcap
        have hsize := hfits cap hused (Bool.eq_false_of_not_eq_true hfile) hcap
        constructor
        · refine ⟨fun hfree => absurd hfree hused, ?_⟩
          intro b hb
          cases hb
          exact hsize
        · exact fun _ _ hnone => by cases hnone

theorem boot_inv {raw : Slot → FSFile} {m : Slot → Malloc} (hinside : s.fs.overflow = false)
    (h : loadFits s.fs.disk raw m) : BufInv (boot s.fs raw m) := by
  have hslot : ∀ i, SlotHeap ((fsInit s.fs raw m).files i) ∧
      HasData ((fsInit s.fs raw m).files i) := by
    intro i
    unfold fsInit
    split
    · rename_i hmagic
      exact loadSlot_ok rfl (h hmagic i)
    · exact ⟨SlotHeap.of_data_none rfl, fun hused => absurd rfl hused⟩
  have hover : (fsInit s.fs raw m).overflow = s.fs.overflow := by
    unfold fsInit
    split <;> rfl
  exact ⟨⟨fun i => (hslot i).1, hover.trans hinside⟩, fun i => (hslot i).2⟩

theorem step_inv {e : Event} (h : BufInv s) (hsafe : safe s e) : BufInv (step s e) := by
  cases e with
  | op o => exact ⟨opStep_heapOk h.heap hsafe.1, opStep_hasData h.data hsafe.2⟩
  | reload raw m => exact boot_inv h.heap.inside hsafe

/-- In every run of safe events the buffers are in order in every state reached. -/
theorem buffers_ok {s : FileSys} (r : Reach Fresh safe step s) : BuffersOk s.fs := by
  have hinv : BufInv s := by
    apply Reach.invariant _ (fun s e h => step_inv h) r
    intro s h
    exact ⟨⟨fun i => SlotHeap.of_data_none (h.1 i).2, h.2⟩, fun i hused => absurd (h.1 i).1 hused⟩
  refine ⟨fun i hused hfile => ?_, hinv.heap.inside⟩
  obtain ⟨b, hb⟩ := Option.ne_none_iff_exists'.mp (hinv.data i hused hfile)
  exact ⟨b, hb, (hinv.heap.slots i).fits b hb⟩

/-! ## A run that keeps the buffers and one that does not -/

def blankFile : FSFile where
  name := fun _ => 0
  size := 0
  used := 0
  tmpfs := 0
  dirty := false
  perms := 0
  ctime := 0
  mtime := 0
  data := none

/-- The first boot with a disk of zeros, which formats it. -/
def formatted : FileSys :=
  boot ⟨fun _ => blankFile, fun _ _ => 0, false⟩ (fun _ => blankFile) (fun _ => none)

theorem formatted_fresh : Fresh formatted := ⟨fun _ => ⟨rfl, rfl⟩, rfl⟩

def nameA : CString := ⟨[97], by decide⟩

/-- The text of `n` letters `x`. -/
def xs (n : Nat) : CString := ⟨List.replicate n 120, by simp [List.mem_replicate]⟩

/-- Write two bytes to the file `a`. -/
def writeSmall : Event := .op (.writeBin nameA [1, 2] 0 (some 2))

/-- Write a text of `n` letters to the file `a`. -/
def writeText (n : Nat) : Event := .op (.write nameA (xs n) 1 none)

theorem smallFile_reach {guard : FileSys → Event → Prop} (h : guard formatted writeSmall) :
    Reach Fresh guard step (step formatted writeSmall) :=
  Reach.next writeSmall (Reach.start formatted_fresh) h

theorem smallFile_buffer :
    firstSlot (step formatted writeSmall).fs.files (·.isFile nameA) = some 0 ∧
      ((step formatted writeSmall).fs.files 0).data.map Buf.cap = some 4 := by
  decide +kernel

/-- The two-byte file takes a text of three letters and is reloaded. -/
theorem buffers_ok_small_file :
    BuffersOk (step (step (step formatted writeSmall) (writeText 3))
      (.reload (fun _ => blankFile) (fun _ => some 0))).fs := by
  apply buffers_ok
  apply Reach.next
  · apply Reach.next
    · exact smallFile_reach ⟨trivial, fun _ _ _ => by decide⟩
    · refine ⟨?_, trivial⟩
      intro _ i b hi hb
      cases hi.symm.trans smallFile_buffer.1
      have hcap := smallFile_buffer.2
      rw [hb] at hcap
      simp only [Option.map_some, Option.some.injEq] at hcap
      exact hcap.symm ▸ (by decide : (xs 3).length + 1 ≤ 4)
  · intro _ i cap hused _ hcap
    have hother : ∀ j : Slot, j ≠ 0 → (step (step formatted writeSmall)
        (writeText 3)).fs.disk (hdrSector j) 36 = 0 := by
      decide +kernel
    have hsize : (readHeader blankFile ((step (step formatted writeSmall)
        (writeText 3)).fs.disk (hdrSector 0))).size.toNat ≤ maxData := by
      decide +kernel
    obtain rfl : i = 0 := by
      by_contra hi
      exact hused (hother i hi)
    exact hsize.trans (Malloc.le_of_grant hcap)

/-- A text of 100 letters written to the two-byte file is stored past the end of
its buffer. -/
theorem text_write_leaves_buffer : ¬ ∀ s, Reach Fresh anyInput step s → BuffersOk s.fs := by
  intro h
  have r : Reach Fresh anyInput step (step (step formatted writeSmall) (writeText 100)) :=
    Reach.next _ (smallFile_reach trivial) trivial
  have hover : (step (step formatted writeSmall) (writeText 100)).fs.overflow = true := by
    decide +kernel
  exact absurd (hover.symm.trans (h _ r).inside) (by decide)

end OriaOS.Fs
