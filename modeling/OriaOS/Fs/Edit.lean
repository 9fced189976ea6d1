import OriaOS.Fs.Inode

/-!
# What one call does to the table

A call changes at most one slot. Either the slot changes in memory only, which
happens where an allocation fails, or the new slot is saved. Every invariant of
the table is derived from the facts stated here about the new slot.
-/

namespace OriaOS.Fs

open OriaOS.Lib

variable {s : Mfs3} {i : Slot} {files : Slot → FSFile}

/-- How a call leaves the table. `Held i g`: slot `i` becomes `g` in memory.
`Saved i g o`: slot `i` becomes `g` and is saved, and `o` is the record of stores
past the end of a buffer. -/
inductive Edit (s : Mfs3) (Held : Slot → FSFile → Prop) (Saved : Slot → FSFile → Bool → Prop) :
    Mfs3 → Prop
  | same : Edit s Held Saved s
  | held (i : Slot) (g : FSFile) (h : Held i g) : Edit s Held Saved (put s i g)
  | saved (i : Slot) (g : FSFile) (o : Bool) (h : Saved i g o) :
      Edit s Held Saved (diskSave (put { s with overflow := o } i g) i)

/-! ## Finding a slot -/

theorem firstSlot_some {p : FSFile → Bool} (h : firstSlot files p = some i) :
    p (files i) = true := by
  unfold firstSlot at h
  simpa using List.find?_some h

theorem used_of_isFile {name : CString} (h : firstSlot files (·.isFile name) = some i) :
    (files i).used ≠ 0 := by
  have := firstSlot_some h
  simp only [FSFile.isFile, Bool.and_eq_true, bne_iff_ne] at this
  exact this.1.1

theorem free_of_firstSlot (h : firstSlot files FSFile.isFree = some i) : (files i).used = 0 := by
  simpa [FSFile.isFree] using firstSlot_some h

/-! ## The calls -/

/-- A slot that a text write has filled from the buffer `b`. -/
structure TextSlot (f g : FSFile) (text : CString) (m : Malloc) (b : Buf) : Prop where
  buffer : ensureData f m = some b
  short : text.length < maxData
  used : g.used ≠ 0
  data : g.data = some (b.store (text.bytes ++ [0]))
  size : g.size = UInt32.ofNat (text.length + 1)

theorem fsWrite_edit (s : Mfs3) (name text : CString) (tick : UInt32) (m : Malloc) :
    Edit s
      (fun i g => (s.files i).used = 0 ∧ g.used = 0 ∧ g.data = (s.files i).data ∧
        g.size = (s.files i).size)
      (fun i g o => ∃ b, TextSlot (s.files i) g text m b ∧
        o = (s.overflow || decide (b.cap < text.length + 1)) ∧
        ((s.files i).used = 0 ∧ g.tmpfs = 0 ∨
          firstSlot s.files (·.isFile name) = some i ∧ g.tmpfs = (s.files i).tmpfs))
      (fsWrite s name text tick m).1 := by
  unfold fsWrite
  split
  · exact .same
  · rename_i hlen
    have hshort : text.length < maxData := Nat.lt_of_not_le hlen
    split
    · rename_i i hi
      dsimp only
      split
      · exact .same
      · rename_i b hb
        apply Edit.saved
        exact ⟨b, ⟨hb, hshort, used_of_isFile hi, rfl, rfl⟩, rfl, Or.inr ⟨hi, rfl⟩⟩
    · split
      · rename_i i hi
        have hfree := free_of_firstSlot hi
        dsimp only
        split
        · exact .held i _ ⟨hfree, hfree, rfl, rfl⟩
        · rename_i b hb
          apply Edit.saved
          exact ⟨b, ⟨hb, hshort, by simp, rfl, rfl⟩, rfl, Or.inl ⟨hfree, rfl⟩⟩
      · exact .same

theorem fsDelete_edit (s : Mfs3) (name : CString) :
    Edit s (fun _ _ => False)
      (fun i g o => g = { s.files i with used := 0, data := none } ∧ o = s.overflow)
      (fsDelete s name).1 := by
  unfold fsDelete
  split
  · exact .saved _ _ s.overflow ⟨rfl, rfl⟩
  · exact .same

theorem binBuf_cap {bytes : List UInt8} {m : Malloc} {b : Buf} (h : binBuf bytes m = some b) :
    bytes.length ≤ b.cap := by
  obtain ⟨cap, hcap, rfl⟩ := Option.map_eq_some_iff.mp h
  unfold Malloc.grant at hcap
  split at hcap
  · cases hcap
  · obtain ⟨extra, -, rfl⟩ := Option.map_eq_some_iff.mp hcap
    simp [Buf.store]

/-- A slot that a binary write has filled. -/
structure BinSlot (g : FSFile) (bytes : List UInt8) (m : Malloc) (b : Buf) : Prop where
  buffer : binBuf bytes m = some b
  short : bytes.length ≤ maxBinData
  used : g.used ≠ 0
  data : g.data = some b
  size : g.size = UInt32.ofNat bytes.length

theorem fsWriteBinInternal_edit (s : Mfs3) (name : CString) (bytes : List UInt8)
    (tmpfs : UInt8) (tick : UInt32) (m : Malloc) :
    Edit s
      (fun i g => g.data = none ∧
        ((s.files i).used = 0 ∧ g.used = 0 ∨
          firstSlot s.files (·.isFile name) = some i ∧ bytes.length ≤ maxBinData ∧
            binBuf bytes m = none ∧ g = { s.files i with data := none }))
      (fun i g o => ∃ b, BinSlot g bytes m b ∧ o = s.overflow ∧ g.tmpfs = tmpfs ∧
        ((s.files i).used = 0 ∨ firstSlot s.files (·.isFile name) = some i))
      (fsWriteBinInternal s name bytes tmpfs tick m).1 := by
  -- The copy stays inside the new buffer.
  have hnote {b : Buf} (hb : binBuf bytes m = some b) :
      noteStore s b bytes.length = { s with overflow := s.overflow } := by
    simp [noteStore, Nat.not_lt.mpr (binBuf_cap hb)]
  unfold fsWriteBinInternal
  split
  · exact .same
  · rename_i hlen
    have hshort : bytes.length ≤ maxBinData := Nat.le_of_not_lt hlen
    split
    · rename_i i hi
      dsimp only
      split
      · rename_i hb
        exact .held i _ ⟨rfl, Or.inr ⟨hi, hshort, hb, rfl⟩⟩
      · rename_i b hb
        rw [hnote hb]
        apply Edit.saved
        exact ⟨b, ⟨hb, hshort, used_of_isFile hi, rfl, rfl⟩, rfl, rfl, Or.inr hi⟩
    · split
      · rename_i i hi
        have hfree := free_of_firstSlot hi
        dsimp only
        split
        · exact .held i _ ⟨rfl, Or.inl ⟨hfree, hfree⟩⟩
        · rename_i b hb
          rw [hnote hb]
          apply Edit.saved
          exact ⟨b, ⟨hb, hshort, by simp, rfl, rfl⟩, rfl, rfl, Or.inl hfree⟩
      · exact .same

theorem fsMkdir_edit (s : Mfs3) (name : CString) (tick : UInt32) :
    Edit s (fun _ _ => False)
      (fun i g o => (s.files i).used = 0 ∧ g.used ≠ 0 ∧ g.isDir = true ∧ g.data = none ∧
        g.tmpfs = 0 ∧ o = s.overflow)
      (fsMkdir s name tick).1 := by
  unfold fsMkdir
  split
  · exact .same
  · split
    · rename_i i hi
      have hdir : ((permDir ||| permRead ||| permWrite) &&& permDir != 0) = true := by decide
      exact .saved _ _ s.overflow ⟨free_of_firstSlot hi, by simp, hdir, rfl, rfl, rfl⟩
    · exact .same

theorem fsSetPerms_edit (s : Mfs3) (name : CString) (perms : UInt16) :
    Edit s (fun _ _ => False)
      (fun i g o => firstSlot s.files (·.named name) = some i ∧
        g = { s.files i with perms := perms, dirty := true } ∧ o = s.overflow)
      (fsSetPerms s name perms).1 := by
  unfold fsSetPerms
  split
  · rename_i i hi
    exact .saved i _ s.overflow ⟨hi, rfl, rfl⟩
  · exact .same

theorem fsRename_edit (s : Mfs3) (oldName newName : CString) (tick : UInt32) :
    Edit s (fun _ _ => False)
      (fun i g o => g = { (s.files i).setName newName with dirty := true, mtime := tick } ∧
        o = s.overflow)
      (fsRename s oldName newName tick).1 := by
  unfold fsRename
  split
  · exact .same
  · split
    · exact .saved _ _ s.overflow ⟨rfl, rfl⟩
    · exact .same

/-! ## The table under an inode operation -/

theorem mfs4Mkdir_fs (s : FileSys) (path : CString) (tick tick' : UInt32) :
    (mfs4Mkdir s path tick tick').1.fs = s.fs ∨
      (mfs4Mkdir s path tick tick').1.fs = (fsMkdir s.fs path tick).1 := by
  unfold mfs4Mkdir
  split
  · exact Or.inl rfl
  · split
    · exact Or.inl rfl
    · dsimp only
      split <;> exact Or.inr rfl

theorem mfs4Unlink_fs (s : FileSys) (path : CString) :
    (mfs4Unlink s path).1.fs = s.fs ∨
      ∃ target, (mfs4Unlink s path).1.fs = (fsDelete s.fs target).1 := by
  unfold mfs4Unlink
  split
  · exact Or.inl rfl
  · dsimp only
    split
    · exact Or.inr ⟨_, rfl⟩
    · exact Or.inl rfl

theorem mfs4Rename_fs (s : FileSys) (oldPath newPath : CString) (tick tick' : UInt32) :
    (mfs4Rename s oldPath newPath tick tick').1.fs = s.fs ∨
      ∃ target, (mfs4Rename s oldPath newPath tick tick').1.fs =
        (fsRename s.fs target newPath tick).1 := by
  unfold mfs4Rename
  split
  · exact Or.inl rfl
  · split
    · exact Or.inl rfl
    · dsimp only
      split
      · split <;> exact Or.inr ⟨_, rfl⟩
      · exact Or.inl rfl

/-! ## Saving -/

theorem diskSave_of_tmpfs (h : (s.files i).tmpfs ≠ 0) : diskSave s i = s := by
  simp [diskSave, h]

@[simp] theorem diskSave_overflow (s : Mfs3) (i : Slot) :
    (diskSave s i).overflow = s.overflow := by
  simp only [diskSave]
  split
  · rfl
  · split <;> rfl

/-- Saving changes no field of an entry but the dirty flag. -/
theorem diskSave_files (s : Mfs3) (i j : Slot) :
    ∃ d, (diskSave s i).files j = { s.files j with dirty := d } := by
  simp only [diskSave]
  split
  · exact ⟨_, rfl⟩
  · split
    · exact ⟨_, rfl⟩
    · by_cases h : j = i
      · subst h
        exact ⟨false, by simp⟩
      · exact ⟨(s.files j).dirty, by simp [h]⟩

theorem diskSave_header (h : (s.files i).tmpfs = 0) :
    (diskSave s i).disk (hdrSector i) = header (s.files i) := by
  simp only [diskSave, h, ne_eq, not_true_eq_false, if_false]
  split
  · exact writeBlock_same _ _ _
  · have hlt : hdrSector i < dataSector i 0 := by
      simp only [hdrSector, dataSector]
      omega
    dsimp only
    rw [writeRun_outside (Or.inl hlt)]
    exact writeBlock_same _ _ _

theorem diskSave_data {b : Buf} {off : Nat} (h : (s.files i).tmpfs = 0)
    (hb : (s.files i).data = some b) (hoff : off < maxData) :
    cellAt (diskSave s i).disk (dataSector i 0) off = dataBytes (s.files i) b off := by
  simp only [diskSave, h, ne_eq, not_true_eq_false, if_false, hb]
  apply cellAt_writeRun
  simp only [maxData] at hoff
  simp only [sectorSize, dataSecs]
  omega

/-- A save writes only to the sectors of its slot. -/
theorem diskSave_outside {lba : Nat} (h : lba < hdrSector i ∨ hdrSector i + 129 ≤ lba) :
    (diskSave s i).disk lba = s.disk lba := by
  simp only [hdrSector] at h
  simp only [diskSave]
  split
  · rfl
  · have hhdr : lba ≠ hdrSector i := by
      simp only [hdrSector]
      omega
    split
    · exact writeBlock_of_ne hhdr
    · have hout : lba < dataSector i 0 ∨ dataSector i 0 + dataSecs ≤ lba := by
        simp only [dataSector, dataSecs] at h ⊢
        omega
      dsimp only
      rw [writeRun_outside hout]
      exact writeBlock_of_ne hhdr

@[simp] theorem fsFlush_files (s : FileSys) :
    (fsFlush s).1.fs.files = (flushFiles s.fs).1.files := by
  simp only [fsFlush]

@[simp] theorem fsFlush_overflow (s : FileSys) :
    (fsFlush s).1.fs.overflow = (flushFiles s.fs).1.overflow := by
  simp only [fsFlush]

@[simp] theorem fsFlush_disk (s : FileSys) :
    (fsFlush s).1.fs.disk = mfs4Flush s.mfs (flushFiles s.fs).1.disk := by
  simp only [fsFlush]

/-- What every save of a used slot keeps, the flush keeps. -/
theorem flushFiles_keeps {P : Mfs3 → Prop} (h : P s)
    (hsave : ∀ t i, P t → (t.files i).used ≠ 0 → P (diskSave t i)) : P (flushFiles s).1 := by
  unfold flushFiles
  suffices hfold : ∀ (slots : List Slot) (r : Mfs3 × Nat), P r.1 →
      P (slots.foldl flushSlot r).1 from hfold _ (s, 0) h
  intro slots
  induction slots with
  | nil => exact fun _ hr => hr
  | cons i slots ih =>
      intro r hr
      apply ih
      unfold flushSlot
      dsimp only
      split
      · rename_i hi
        exact hsave _ _ hr hi.1
      · exact hr

/-- What holds of every slot, whatever its dirty flag, holds after an edit whose
new slot meets it. -/
theorem Edit.slots {s t : Mfs3} {Held : Slot → FSFile → Prop}
    {Saved : Slot → FSFile → Bool → Prop} {P : FSFile → Prop}
    (hdirty : ∀ f d, P f → P { f with dirty := d }) (e : Edit s Held Saved t)
    (h : ∀ j, P (s.files j)) (hheld : ∀ i g, Held i g → P g)
    (hsaved : ∀ i g o, Saved i g o → P g) : ∀ j, P (t.files j) := by
  have hput {o : Bool} {i : Slot} {g : FSFile} (hg : P g) :
      ∀ j, P ((put { s with overflow := o } i g).files j) := by
    intro j
    by_cases hj : j = i
    · subst hj
      simpa [put] using hg
    · simpa [put, hj] using h j
  cases e with
  | same => exact h
  | held i g hg => exact hput (o := s.overflow) (hheld i g hg)
  | saved i g o hg =>
      intro j
      obtain ⟨d, hd⟩ := diskSave_files (put { s with overflow := o } i g) i j
      rw [hd]
      exact hdirty _ d (hput (hsaved i g o hg) j)

/-- The calls behind an operation. -/
theorem opStep_rule {P : Mfs3 → Prop} (s : FileSys) (op : Op) (same : P s.fs)
    (write : ∀ name text tick m, op = .write name text tick m →
      P (fsWrite s.fs name text tick m).1)
    (writeBin : ∀ name bytes tick m, op = .writeBin name bytes tick m →
      P (fsWriteBin s.fs name bytes tick m).1)
    (writeTmp : ∀ name bytes tick m, op = .writeTmp name bytes tick m →
      P (fsWriteTmp s.fs name bytes tick m).1)
    (delete : ∀ name, P (fsDelete s.fs name).1)
    (mkdir : ∀ name tick, P (fsMkdir s.fs name tick).1)
    (rename : ∀ oldName newName tick, P (fsRename s.fs oldName newName tick).1)
    (setPerms : ∀ name perms, op = .setPerms name perms → P (fsSetPerms s.fs name perms).1)
    (flush : P (fsFlush s).1.fs) : P (opStep s op).fs := by
  cases op with
  | write name text tick m => exact write name text tick m rfl
  | writeBin name bytes tick m => exact writeBin name bytes tick m rfl
  | writeTmp name bytes tick m => exact writeTmp name bytes tick m rfl
  | delete name => exact delete name
  | mkdir name tick => exact mkdir name tick
  | rename oldName newName tick => exact rename oldName newName tick
  | setPerms name perms => exact setPerms name perms rfl
  | symlink | hardlink | register => exact same
  | mkdirInode path tick tick' =>
      rcases mfs4Mkdir_fs s path tick tick' with h | h
      · exact h ▸ same
      · exact h ▸ mkdir path tick
  | unlinkInode path =>
      rcases mfs4Unlink_fs s path with h | ⟨target, h⟩
      · exact h ▸ same
      · exact h ▸ delete target
  | renameInode oldPath newPath tick tick' =>
      rcases mfs4Rename_fs s oldPath newPath tick tick' with h | ⟨target, h⟩
      · exact h ▸ same
      · exact h ▸ rename target newPath tick
  | flush => exact flush

end OriaOS.Fs
