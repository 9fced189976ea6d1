import OriaOS.Fs.Buffers

/-!
# Flush and reload

What a reload finds after a flush. Every call saves the slot it changes, so the
sectors of a slot always hold its entry, as far as they belong to that slot
alone. The inode table of `mfs4_flush` occupies sectors 513 to 549: the last four
data sectors of slot 3, the header of slot 4 and its first data sectors. A
reloaded slot 4 is therefore read out of the target path of inode 10.
-/

namespace OriaOS.Fs

open OriaOS.Lib

variable {d disk e : Disk} {m : Malloc} {s : Mfs3} {i : Slot}

/-- Byte `k` of the data of an entry, when its buffer has one. -/
def FSFile.dataAt (f : FSFile) (k : Nat) : Option UInt8 :=
  f.data.bind fun b => if k < b.cap then some (b.byte k) else none

/-- The same entry: its name, size, permissions and times, and every data byte
below the size. -/
structure SameEntry (f g : FSFile) : Prop where
  name : g.name = f.name
  size : g.size = f.size
  perms : g.perms = f.perms
  ctime : g.ctime = f.ctime
  mtime : g.mtime = f.mtime
  data : ∀ k < f.size.toNat, ∃ v, f.dataAt k = some v ∧ g.dataAt k = some v

/-- The reloaded state `t` holds exactly the used entries of `s` that are not in
tmpfs, and the inode table of `s`. -/
structure RoundTrip (s t : FileSys) : Prop where
  kept : ∀ i, (s.fs.files i).used ≠ 0 → (s.fs.files i).tmpfs = 0 →
    (t.fs.files i).used ≠ 0 ∧ (t.fs.files i).tmpfs = 0 ∧
      SameEntry (s.fs.files i) (t.fs.files i)
  only : ∀ i, (s.fs.files i).used = 0 ∨ (s.fs.files i).tmpfs ≠ 0 → (t.fs.files i).used = 0
  inodes : t.mfs.inodes = s.mfs.inodes
  nextInodeId : t.mfs.nextInodeId = s.mfs.nextInodeId

/-! ## The inode table -/

theorem rawTable_inode (inodes : Fin maxInodes → MFS4Inode) (i : Fin maxInodes) {o : Nat}
    (ho : o < inodeSize) : rawTable inodes (i.val * inodeSize + o) = (inodes i).byte o := by
  have hi : i.val < 128 := i.isLt
  simp only [inodeSize] at ho
  have hlt : i.val * 144 + o < inodeBytes := by
    simp only [inodeBytes, maxInodes, inodeSize]
    omega
  have hdiv : (i.val * 144 + o) / 144 = i.val := by omega
  have hmod : (i.val * 144 + o) % 144 = o := by omega
  simp only [rawTable, inodeSize]
  rw [dif_pos hlt]
  simp only [hdiv, hmod]

theorem mfs4Flush_meta (s : Mfs4) (disk : Disk) : mfs4Flush s disk lbaMeta = metaSector s := by
  unfold mfs4Flush
  rw [writeRun_outside (Or.inl (by decide))]
  exact writeBlock_same _ _ _

theorem mfs4Flush_outside {s : Mfs4} {lba : Nat} (h : lba < 513 ∨ 550 ≤ lba) :
    mfs4Flush s disk lba = disk lba := by
  unfold mfs4Flush
  rw [writeRun_outside (by simp only [lbaData, inodeSects]; omega)]
  exact writeBlock_of_ne (by simp only [lbaMeta]; omega)

/-- The inode table that was flushed is loaded again. -/
theorem mfs4Load_flush (s : Mfs4) (disk : Disk) : mfs4Load (mfs4Flush s disk) = some s := by
  have hinodes : (fun i : Fin maxInodes => MFS4Inode.ofBytes fun o =>
      cellAt (mfs4Flush s disk) lbaData (i.val * inodeSize + o)) = s.inodes := by
    funext i
    apply MFS4Inode.ofBytes_byte
    intro o ho
    have hi : i.val < 128 := i.isLt
    simp only [inodeSize] at ho
    unfold mfs4Flush
    rw [cellAt_writeRun (by simp only [inodeSize, sectorSize, inodeSects]; omega)]
    exact rawTable_inode s.inodes i ho
  have hmagic : (metaSector s 0 != 'M'.toUInt8 || metaSector s 1 != 'F'.toUInt8 ||
      metaSector s 2 != 'S'.toUInt8 || metaSector s 3 != '4'.toUInt8) = false := rfl
  have hid : ofLe32 (metaSector s 4) (metaSector s 5) (metaSector s 6) (metaSector s 7) =
      s.nextInodeId := ofLe32_bytes s.nextInodeId
  unfold mfs4Load
  simp only [hinodes, mfs4Flush_meta, hmagic, hid, Bool.false_eq_true, if_false]

/-- The byte that a load takes for the used flag of slot 4. -/
theorem mfs4Flush_slot4 (s : Mfs4) (disk : Disk) :
    mfs4Flush s disk (hdrSector 4) 36 = (s.inodes 10).target 60 := by
  have hsector : mfs4Flush s disk (lbaData + 3) = blockOf sectorSize (rawTable s.inodes) 3 :=
    writeRun_inside (by decide)
  have hbyte : rawTable s.inodes (10 * inodeSize + 132) = (s.inodes 10).byte 132 :=
    rawTable_inode s.inodes 10 (by decide)
  calc
    mfs4Flush s disk (hdrSector 4) 36 = blockOf sectorSize (rawTable s.inodes) 3 36 :=
      congrFun hsector 36
    _ = (s.inodes 10).byte 132 := hbyte
    _ = (s.inodes 10).target 60 := rfl

/-! ## The sectors of a slot -/

/-- How much of its data area a slot has to itself. -/
def ownBytes (i : Slot) : Nat := if i.val = 3 then 63488 else maxData

/-- The sectors of slot `i` hold the entry `f`. -/
structure OnDisk (disk : Disk) (i : Slot) (f : FSFile) : Prop where
  header : disk (hdrSector i) = header f
  data : ∀ b, f.data = some b → ∀ k < f.size.toNat, k < ownBytes i →
    cellAt disk (dataSector i 0) k = b.byte k

/-- A saved entry is on the disk, and where there is none the header is unused. -/
structure Synced (disk : Disk) (i : Slot) (f : FSFile) : Prop where
  stored : f.used ≠ 0 → f.tmpfs = 0 → OnDisk disk i f
  unused : f.used = 0 ∨ f.tmpfs ≠ 0 → disk (hdrSector i) 36 = 0

theorem ownBytes_le (i : Slot) : ownBytes i ≤ maxData := by
  unfold ownBytes
  split <;> decide

/-- Two disks agree on the sectors that slot `i` has to itself. -/
structure Agree (d e : Disk) (i : Slot) : Prop where
  header : d (hdrSector i) = e (hdrSector i)
  data : ∀ k < ownBytes i, cellAt d (dataSector i 0) k = cellAt e (dataSector i 0) k

theorem Synced.congr {f : FSFile} (h : Agree d e i) (hs : Synced e i f) : Synced d i f where
  stored := by
    intro hused htmpfs
    have hon := hs.stored hused htmpfs
    refine ⟨h.header.trans hon.header, ?_⟩
    intro b hb k hk hown
    exact (h.data k hown).trans (hon.data b hb k hk hown)
  unused := by
    intro hfree
    rw [h.header]
    exact hs.unused hfree

theorem Synced.dirty {f : FSFile} (h : Synced disk i f) (d : Bool) :
    Synced disk i { f with dirty := d } :=
  ⟨fun hused htmpfs => ⟨(h.stored hused htmpfs).header, (h.stored hused htmpfs).data⟩, h.unused⟩

theorem agree_of_sectors
    (h : ∀ lba, hdrSector i ≤ lba → lba ≤ hdrSector i + ownBytes i / 512 → d lba = e lba) :
    Agree d e i where
  header := h _ (Nat.le_refl _) (Nat.le_add_right _ _)
  data := by
    intro k hk
    apply cellAt_congr
    have hown : ownBytes i % 512 = 0 := by
      unfold ownBytes
      split <;> decide
    have hblock : k / sectorSize + 1 ≤ ownBytes i / 512 := by
      simp only [sectorSize]
      omega
    apply h
    · simp only [hdrSector, dataSector]
      exact Nat.le_trans (by omega) (Nat.le_add_right _ _)
    · simp only [hdrSector, dataSector]
      omega

theorem agree_diskSave {j : Slot} (h : j ≠ i) : Agree (diskSave s i).disk s.disk j := by
  apply agree_of_sectors
  intro lba hlo hhi
  have hown := ownBytes_le j
  have hne : j.val ≠ i.val := fun hv => h (Fin.ext hv)
  apply diskSave_outside
  simp only [hdrSector, dataSecs, maxData] at *
  omega

/-- No slot but the fourth has the sectors of the inode table to itself. -/
theorem agree_mfs4Flush {s : Mfs4} (h : i ≠ 4) : Agree (mfs4Flush s disk) disk i := by
  apply agree_of_sectors
  intro lba hlo hhi
  apply mfs4Flush_outside
  have hne : i.val ≠ 4 := fun hv => h (Fin.ext hv)
  simp only [hdrSector, dataSecs] at hlo hhi
  unfold ownBytes at hhi
  split at hhi
  · omega
  · simp only [maxData] at hhi
    omega

/-- After a save the slot is on the disk, unless it is in tmpfs. -/
theorem synced_diskSave (h : (s.files i).tmpfs ≠ 0 → s.disk (hdrSector i) 36 = 0) :
    Synced (diskSave s i).disk i (s.files i) := by
  constructor
  · intro _ htmpfs
    refine ⟨diskSave_header htmpfs, ?_⟩
    intro b hb k hk hown
    rw [diskSave_data htmpfs hb (hown.trans_le (ownBytes_le i))]
    exact if_pos hk
  · intro hfree
    by_cases htmpfs : (s.files i).tmpfs = 0
    · rw [diskSave_header htmpfs]
      exact hfree.resolve_right (fun hne => hne htmpfs)
    · rw [diskSave_of_tmpfs htmpfs]
      exact h htmpfs

/-! ## Every call keeps the disk in step -/

/-- The invariant between calls. -/
structure DiskInv (s : Mfs3) : Prop where
  magic : hasMagic s.disk = true
  synced : ∀ i, i ≠ 4 → Synced s.disk i (s.files i)

theorem hasMagic_congr (h : d 0 = e 0) : hasMagic d = hasMagic e := by
  simp only [hasMagic, h]

theorem DiskInv.save {g : FSFile} {o : Bool} (h : DiskInv s)
    (hg : g.tmpfs ≠ 0 → (s.files i).used = 0 ∨ (s.files i).tmpfs ≠ 0) :
    DiskInv (diskSave (put { s with overflow := o } i g) i) where
  magic := by
    rw [hasMagic_congr (diskSave_outside (Or.inl (by simp only [hdrSector]; omega)))]
    exact h.magic
  synced := by
    intro j hj
    obtain ⟨d, hd⟩ := diskSave_files (put { s with overflow := o } i g) i j
    rw [hd]
    apply Synced.dirty
    by_cases hji : j = i
    · subst hji
      apply synced_diskSave
      intro htmpfs
      apply (h.synced j hj).unused
      apply hg
      simpa [put] using htmpfs
    · apply Synced.congr (agree_diskSave hji)
      simpa [put, hji] using h.synced j hj

theorem DiskInv.put {g : FSFile} (h : DiskInv s)
    (hg : Synced s.disk i (s.files i) → Synced s.disk i g) : DiskInv (put s i g) where
  magic := h.magic
  synced := by
    intro j hj
    by_cases hji : j = i
    · subst hji
      simpa [Fs.put] using hg (h.synced j hj)
    · simpa [Fs.put, hji] using h.synced j hj

theorem Edit.diskInv {t : Mfs3} {Held : Slot → FSFile → Prop}
    {Saved : Slot → FSFile → Bool → Prop} (e : Edit s Held Saved t) (h : DiskInv s)
    (hheld : ∀ i g, Held i g → Synced s.disk i (s.files i) → Synced s.disk i g)
    (hsaved : ∀ i g o, Saved i g o → g.tmpfs ≠ 0 → (s.files i).used = 0 ∨ (s.files i).tmpfs ≠ 0) :
    DiskInv t := by
  cases e with
  | same => exact h
  | held i g hg => exact h.put (hheld i g hg)
  | saved i g o hg => exact h.save (hsaved i g o hg)

/-- An unused entry is in step whatever its other fields. -/
theorem Synced.free {f g : FSFile} (h : Synced disk i f) (hf : f.used = 0) (hg : g.used = 0) :
    Synced disk i g :=
  ⟨fun hused => absurd hg hused, fun _ => h.unused (Or.inl hf)⟩

/-- An entry that loses its buffer stays in step. -/
theorem Synced.drop {f : FSFile} (h : Synced disk i f) : Synced disk i { f with data := none } :=
  ⟨fun hused htmpfs => ⟨(h.stored hused htmpfs).header, fun _ hb => by cases hb⟩, h.unused⟩

theorem fsWriteBinInternal_diskInv {name : CString} {bytes : List UInt8} {tmpfs : UInt8}
    {tick : UInt32} (h : DiskInv s)
    (hkeep : tmpfs ≠ 0 → bytes.length ≤ maxBinData →
      ∀ i, firstSlot s.files (·.isFile name) = some i → m.grant bytes.length ≠ none →
      (s.files i).tmpfs ≠ 0) :
    DiskInv (fsWriteBinInternal s name bytes tmpfs tick m).1 := by
  apply (fsWriteBinInternal_edit s name bytes tmpfs tick m).diskInv h
  · rintro i g ⟨-, ⟨hf, hg⟩ | ⟨-, -, -, rfl⟩⟩ hs
    · exact hs.free hf hg
    · exact hs.drop
  · rintro i g o ⟨b, hb, -, rfl, hfree | hi⟩ htmpfs
    · exact Or.inl hfree
    · right
      apply hkeep htmpfs hb.short i hi
      intro hnone
      have := hb.buffer
      simp [binBuf, hnone] at this

/-- A write to tmpfs does not replace a file that is on the disk. -/
def keepsHeader (s : Mfs3) : Op → Prop
  | .writeTmp name bytes _ m => bytes.length ≤ maxBinData → ∀ i,
      firstSlot s.files (·.isFile name) = some i → m.grant bytes.length ≠ none →
        (s.files i).tmpfs ≠ 0
  | _ => True

theorem fsFlush_diskInv {s : FileSys} (h : DiskInv s.fs) : DiskInv (fsFlush s).1.fs := by
  have hfiles : DiskInv (flushFiles s.fs).1 := by
    apply flushFiles_keeps h
    intro t i ht hused
    have hself : Fs.put { t with overflow := t.overflow } i (t.files i) = t := by
      simp [Fs.put]
    rw [← hself]
    exact ht.save Or.inr
  constructor
  · rw [fsFlush_disk, hasMagic_congr (mfs4Flush_outside (Or.inl (by decide)))]
    exact hfiles.magic
  · intro i hi
    rw [fsFlush_disk, fsFlush_files]
    exact (hfiles.synced i hi).congr (agree_mfs4Flush hi)

theorem opStep_diskInv {s : FileSys} {op : Op} (h : DiskInv s.fs) (hkeep : keepsHeader s.fs op) :
    DiskInv (opStep s op).fs := by
  apply opStep_rule s op h
  · intro name text tick m _
    apply (fsWrite_edit s.fs name text tick m).diskInv h
    · rintro i g ⟨hf, hg, -⟩ hs
      exact hs.free hf hg
    · rintro i g o ⟨b, -, -, ⟨hfree, -⟩ | ⟨-, htmp⟩⟩ htmpfs
      · exact Or.inl hfree
      · exact Or.inr (htmp ▸ htmpfs)
  · intro name bytes tick m _
    exact fsWriteBinInternal_diskInv h fun htmpfs => absurd rfl htmpfs
  · rintro name bytes tick m rfl
    exact fsWriteBinInternal_diskInv h fun _ => hkeep
  · intro name
    apply (fsDelete_edit s.fs name).diskInv h (fun _ _ hf => hf.elim)
    rintro i g o ⟨rfl, -⟩ htmpfs
    exact Or.inr htmpfs
  · intro name tick
    apply (fsMkdir_edit s.fs name tick).diskInv h (fun _ _ hf => hf.elim)
    rintro i g o ⟨hfree, -⟩ _
    exact Or.inl hfree
  · intro oldName newName tick
    apply (fsRename_edit s.fs oldName newName tick).diskInv h (fun _ _ hf => hf.elim)
    rintro i g o ⟨rfl, -⟩ htmpfs
    exact Or.inr htmpfs
  · intro name perms _
    apply (fsSetPerms_edit s.fs name perms).diskInv h (fun _ _ hf => hf.elim)
    rintro i g o ⟨-, rfl, -⟩ htmpfs
    exact Or.inr htmpfs
  · exact fsFlush_diskInv h

theorem flushFiles_files (s : Mfs3) (i : Slot) :
    ∃ d, (flushFiles s).1.files i = { s.files i with dirty := d } := by
  apply flushFiles_keeps (P := fun t => ∃ d, t.files i = { s.files i with dirty := d })
    ⟨(s.files i).dirty, rfl⟩
  rintro t j ⟨d, hd⟩ -
  obtain ⟨d', hd'⟩ := diskSave_files t j i
  exact ⟨d', by rw [hd', hd]⟩

/-! ## Loading -/

/-- A load reads back the fields a save wrote. -/
theorem readHeader_header (f g : FSFile) :
    readHeader g (header f) = { f with used := g.used, dirty := false, data := g.data } := by
  have hname : (fun j : Fin maxName => header f (j.castLE (by decide))) = f.name := by
    funext j
    have hj : j.val < 32 := j.isLt
    simp only [header, Fin.val_castLE]
    split <;> first | omega | simp [hj]
  have hsize : ofLe32 (header f 32) (header f 33) (header f 34) (header f 35) = f.size :=
    ofLe32_bytes f.size
  have hperms : ofLe16 (header f 38) (header f 39) = f.perms := ofLe16_bytes f.perms
  have hctime : ofLe32 (header f 40) (header f 41) (header f 42) (header f 43) = f.ctime :=
    ofLe32_bytes f.ctime
  have hmtime : ofLe32 (header f 44) (header f 45) (header f 46) (header f 47) = f.mtime :=
    ofLe32_bytes f.mtime
  have htmpfs : header f 37 = f.tmpfs := rfl
  simp only [readHeader, hname, hsize, hperms, hctime, hmtime, htmpfs]

theorem fsInit_magic {raw : Slot → FSFile} {m : Slot → Malloc} (h : hasMagic s.disk = true) :
    fsInit s raw m = { s with files := fun i => loadSlot s.disk i (initSlot (raw i)) (m i) } := by
  simp only [fsInit, h, if_true]

theorem loadSlot_unused {g : FSFile} (h : disk (hdrSector i) 36 = 0) :
    (loadSlot disk i g m).used = 0 := by
  simp [loadSlot, h]

/-- What an entry must be to survive: no directory with data, and otherwise a
buffer that holds its size and fits its own part of the data area. -/
structure Storable (i : Slot) (f : FSFile) : Prop where
  dir : f.isDir = true → f.size = 0
  file : f.isDir = false → f.size.toNat ≤ ownBytes i ∧ (f.data = none → f.size = 0)

theorem loadSlot_stored {f g : FSFile} (h : OnDisk disk i f) (hf : SlotHeap f)
    (hused : f.used ≠ 0) (htmpfs : f.tmpfs = 0) (hs : Storable i f) (hm : m ≠ none) :
    (loadSlot disk i g m).used ≠ 0 ∧ (loadSlot disk i g m).tmpfs = 0 ∧
      SameEntry f (loadSlot disk i g m) := by
  have hflag : header f 36 = f.used := rfl
  have hempty : f.size = 0 → ∀ k, ¬ k < f.size.toNat := by
    intro h0 k
    simp [h0]
  unfold loadSlot
  simp only [h.header, hflag, hused, if_false, readHeader_header]
  split
  · rename_i hdir
    refine ⟨hused, htmpfs, rfl, rfl, rfl, rfl, rfl, ?_⟩
    intro k hk
    exact absurd hk (hempty (hs.dir hdir) k)
  · rename_i hfile
    have hfile : f.isDir = false := Bool.eq_false_of_not_eq_true hfile
    obtain ⟨extra, rfl⟩ := Option.ne_none_iff_exists'.mp hm
    have hgrant : Malloc.grant (some extra) maxData = some (maxData + extra) := rfl
    simp only [hgrant]
    refine ⟨hused, htmpfs, rfl, rfl, rfl, rfl, rfl, ?_⟩
    intro k hk
    obtain ⟨hown, hnull⟩ := hs.file hfile
    have hkown : k < ownBytes i := hk.trans_le hown
    have hkmax : k < maxData := hkown.trans_le (ownBytes_le i)
    cases hb : f.data with
    | none => exact absurd hk (hempty (hnull hb) k)
    | some b =>
        refine ⟨b.byte k, ?_, ?_⟩
        · simp [FSFile.dataAt, hb, hk.trans_le (hf.fits b hb)]
        · simp only [FSFile.dataAt, Option.bind_some]
          rw [if_pos (hkmax.trans_le (Nat.le_add_right _ _)), if_pos hkmax, h.data b hb k hk hkown]

/-! ## Runs -/

/-- The first boot from a formatted disk without files. -/
def Formatted (s : FileSys) : Prop :=
  ∃ s₀ raw m, hasMagic s₀.disk = true ∧ (∀ i, s₀.disk (hdrSector i) 36 = 0) ∧
    s₀.overflow = false ∧ s = boot s₀ raw m

/-- The operations that keep the heap and the disk in order. -/
def tidy (s : FileSys) (op : Op) : Prop := writeFits s.fs op ∧ keepsHeader s.fs op

/-- What the tables must be when the flush begins. -/
structure Persistable (s : FileSys) : Prop where
  slot4 : (s.fs.files 4).used = 0 ∨ (s.fs.files 4).tmpfs ≠ 0
  inode10 : (s.mfs.inodes 10).target 60 = 0
  storable : ∀ i, (s.fs.files i).used ≠ 0 → (s.fs.files i).tmpfs = 0 →
    Storable i (s.fs.files i)

theorem formatted_inv {s : FileSys} (h : Formatted s) : HeapOk s.fs ∧ DiskInv s.fs := by
  obtain ⟨s₀, raw, m, hmagic, hempty, hover, rfl⟩ := h
  have hslot : ∀ i, loadSlot s₀.disk i (initSlot (raw i)) (m i) = initSlot (raw i) := by
    intro i
    simp [loadSlot, hempty i, initSlot]
  have hfs : (boot s₀ raw m).fs = { s₀ with files := fun i => initSlot (raw i) } := by
    simp only [boot, fsInit_magic hmagic, hslot]
  rw [hfs]
  refine ⟨⟨fun i => SlotHeap.of_data_none rfl, hover⟩, hmagic, ?_⟩
  intro i _
  exact ⟨fun hused => absurd rfl hused, fun _ => hempty i⟩

/-- A flush and a reload give back the tables: in every tidy run from a formatted
disk, when the tables are fit for it and the load gets its buffers. -/
theorem reload_restores {s : FileSys} (r : Reach Formatted tidy opStep s) (hp : Persistable s)
    {raw : Slot → FSFile} {m : Slot → Malloc} (hm : ∀ i, m i ≠ none) :
    RoundTrip s (boot (fsFlush s).1.fs raw m) := by
  have hinv : HeapOk s.fs ∧ DiskInv s.fs := by
    apply Reach.invariant (P := fun s => HeapOk s.fs ∧ DiskInv s.fs) _ _ r
    · exact fun s h => formatted_inv h
    · exact fun s op h hop => ⟨opStep_heapOk h.1 hop.1, opStep_diskInv h.2 hop.2⟩
  have hdisk := fsFlush_diskInv hinv.2
  have hfiles : ∀ i, (boot (fsFlush s).1.fs raw m).fs.files i =
      loadSlot (fsFlush s).1.fs.disk i (initSlot (raw i)) (m i) := by
    intro i
    simp only [boot, fsInit_magic hdisk.magic]
  have hmfs : (boot (fsFlush s).1.fs raw m).mfs = s.mfs := by
    simp only [boot, fsInit_magic hdisk.magic, mfs4Init]
    rw [fsFlush_disk, mfs4Load_flush]
  have hsynced : ∀ i, i ≠ 4 → Synced (fsFlush s).1.fs.disk i (s.fs.files i) := by
    intro i hi
    have hs := hdisk.synced i hi
    obtain ⟨d, hd⟩ := flushFiles_files s.fs i
    rw [fsFlush_files, hd] at hs
    exact hs.dirty (s.fs.files i).dirty
  refine ⟨?_, ?_, congrArg Mfs4.inodes hmfs, congrArg Mfs4.nextInodeId hmfs⟩
  · intro i hused htmpfs
    have hi : i ≠ 4 := by
      rintro rfl
      exact hp.slot4.elim hused (fun hne => hne htmpfs)
    rw [hfiles i]
    exact loadSlot_stored ((hsynced i hi).stored hused htmpfs) (hinv.1.slots i) hused htmpfs
      (hp.storable i hused htmpfs) (hm i)
  · intro i hfree
    rw [hfiles i]
    apply loadSlot_unused
    by_cases hi : i = 4
    · subst hi
      rw [fsFlush_disk, mfs4Flush_slot4]
      exact hp.inode10
    · exact (hsynced i hi).unused hfree

/-! ## One file and five files -/

/-- The second boot, from the disk that the first has formatted. -/
def emptyFs : FileSys := boot formatted.fs (fun _ => blankFile) (fun _ => none)

theorem emptyFs_formatted : Formatted emptyFs := by
  refine ⟨formatted.fs, fun _ => blankFile, fun _ => none, rfl, ?_, rfl, rfl⟩
  decide +kernel

/-- Write one byte to a new file. -/
def writeByte (name : CString) : Op := .writeBin name [1] 0 (some 3)

def oneFile : FileSys := opStep emptyFs (writeByte nameA)

/-- A single file comes back. -/
theorem reload_restores_one_file :
    RoundTrip oneFile (boot (fsFlush oneFile).1.fs (fun _ => blankFile) (fun _ => some 0)) := by
  have hfree : ∀ i : Slot, i ≠ 0 → (oneFile.fs.files i).used = 0 := by decide +kernel
  have hsize : (oneFile.fs.files 0).size.toNat ≤ ownBytes 0 := by decide +kernel
  have hfile : (oneFile.fs.files 0).isDir = false := by decide +kernel
  have hdata : (oneFile.fs.files 0).data.isSome = true := by decide +kernel
  apply reload_restores
  · exact Reach.next (writeByte nameA) (Reach.start emptyFs_formatted) ⟨trivial, trivial⟩
  · refine ⟨Or.inl (hfree 4 (by decide)), by decide +kernel, ?_⟩
    intro i hused _
    have hi : i = 0 := by
      by_contra hne
      exact hused (hfree i hne)
    subst hi
    refine ⟨fun hdir => ?_, fun _ => ⟨hsize, fun hnone => ?_⟩⟩
    · rw [hfile] at hdir
      cases hdir
    · rw [hnone] at hdata
      cases hdata
  · intro i
    simp

/-- Files `a` to `e` of one byte each. -/
def fiveFiles : FileSys :=
  ([nameA, ⟨[98], by decide⟩, ⟨[99], by decide⟩, ⟨[100], by decide⟩,
    ⟨[101], by decide⟩].map writeByte).foldl opStep emptyFs

/-- The fifth file is lost: its header sector is overwritten by the inode table. -/
theorem fifth_file_is_lost : ¬ ∀ s, Reach Formatted anyInput opStep s → ∀ raw m,
    (∀ i, m i ≠ none) → RoundTrip s (boot (fsFlush s).1.fs raw m) := by
  intro h
  have r : Reach Formatted anyInput opStep fiveFiles :=
    (Reach.start emptyFs_formatted).foldl _
  have hused : (fiveFiles.fs.files 4).used ≠ 0 ∧ (fiveFiles.fs.files 4).tmpfs = 0 := by
    decide +kernel
  have hlost : ((boot (fsFlush fiveFiles).1.fs (fun _ => blankFile)
      (fun _ => some 0)).fs.files 4).used = 0 := by
    decide +kernel
  have hrt := h fiveFiles r (fun _ => blankFile) (fun _ => some 0) (by simp)
  exact (hrt.kept 4 hused.1 hused.2).1 hlost

end OriaOS.Fs
