import OriaOS.Fs.Links

/-!
# Failed calls on inodes

What a call of `mfs4.c` leaves when it fails. Calls check before they write, but
`mfs4_mkdir` makes the directory in the file table before it looks for a free inode, and
`mfs4_init` scans the file table on top of what a load that failed halfway has left.
-/

namespace OriaOS.Fs

open OriaOS.Lib

variable {i : Node} {tick : UInt32}

/-! ## Loading from a disk with bad sectors -/

/-- A drive: whether there is a disk, and which of its sectors can be read. -/
structure Drive where
  present : Bool
  readable : Nat → Bool

/-- The table in memory. -/
def tableOf (raw : Nat → UInt8) (i : Fin maxInodes) : MFS4Inode :=
  MFS4Inode.ofBytes fun o => raw (i.val * inodeSize + o)

/-- `mfs4_load`, one sector copied into the table. -/
def loadSector (disk : Disk) (s : Mfs4) (k : Nat) : Mfs4 :=
  { s with inodes := tableOf fun off =>
      if k * sectorSize ≤ off ∧ off < (k + 1) * sectorSize then cellAt disk lbaData off
      else rawTable s.inodes off }

/-- `mfs4_load`, the loop over the sectors of the table. -/
def loadSectors (d : Drive) (disk : Disk) : List Nat → Mfs4 → Mfs4 × Int
  | [], s => (s, 0)
  | k :: ks, s =>
      if d.readable (lbaData + k) then loadSectors d disk ks (loadSector disk s k) else (s, -1)

/-- The magic of the metadata sector. -/
def hasInodeMagic (disk : Disk) : Bool :=
  disk lbaMeta 0 == 'M'.toUInt8 && disk lbaMeta 1 == 'F'.toUInt8 &&
    disk lbaMeta 2 == 'S'.toUInt8 && disk lbaMeta 3 == '4'.toUInt8

/-- The next inode number in the metadata sector. -/
def nextIdOn (disk : Disk) : UInt32 :=
  ofLe32 (disk lbaMeta 4) (disk lbaMeta 5) (disk lbaMeta 6) (disk lbaMeta 7)

/-- `mfs4_load`, whether it comes to the sectors of the table. -/
def Drive.starts (d : Drive) (disk : Disk) : Bool :=
  d.present && d.readable lbaMeta && hasInodeMagic disk

/-- `mfs4_load` on a drive: what it leaves of the table, and what it returns. -/
def mfs4LoadFrom (d : Drive) (disk : Disk) (s : Mfs4) : Mfs4 × Int :=
  if d.starts disk then
    loadSectors d disk (List.range inodeSects) { s with nextInodeId := nextIdOn disk }
  else (s, -1)

/-- The table `mfs4_init` starts with. -/
def cleared (s : Mfs4) : Mfs4 :=
  { inodes := fun i => { s.inodes i with used := 0 }, nextInodeId := 1 }

/-- `mfs4_init`, the scan of the file table. -/
def scanTable (files : Slot → FSFile) (s : Mfs4) : Mfs4 :=
  ((List.finRange maxFiles).foldl (scanSlot files) (s, false)).1

/-- `mfs4_init` on a drive. -/
def mfs4InitFrom (d : Drive) (s : Mfs4) (fs : Mfs3) : Mfs4 :=
  let r := mfs4LoadFrom d fs.disk (cleared s)
  if r.2 = 0 then r.1 else scanTable fs.files r.1

/-- A disk whose sectors can all be read. -/
def goodDrive : Drive := ⟨true, fun _ => true⟩

/-- The sectors of the table in front of the first that cannot be read. -/
def loadedSectors (d : Drive) : List Nat :=
  (List.range inodeSects).takeWhile fun k => d.readable (lbaData + k)

/-- Where the flag of an inode stands in the table. -/
def flagOffset (i : Node) : Nat := i.val * inodeSize + 1

section Load
variable {d : Drive} {disk : Disk} {s : Mfs4}

/-- A sector brings the flags that stand in it. -/
theorem used_loadSector (disk : Disk) (s : Mfs4) (k : Nat) (i : Node) :
    ((loadSector disk s k).inodes i).used
      = if flagOffset i / sectorSize = k then cellAt disk lbaData (flagOffset i)
        else (s.inodes i).used := by
  have hold : rawTable s.inodes (flagOffset i) = (s.inodes i).used :=
    rawTable_inode s.inodes i (by decide)
  have hin : (k * sectorSize ≤ flagOffset i ∧ flagOffset i < (k + 1) * sectorSize) ↔
      flagOffset i / sectorSize = k := by
    rw [Nat.div_eq_iff (by decide)]
    simp only [sectorSize]
    omega
  rw [← hold, ← if_congr hin rfl rfl]
  rfl

/-- The flags behind a load: those of the sectors in front of the first bad one are from the
disk, the others are as before. -/
theorem used_loadSectors (d : Drive) (disk : Disk) (ks : List Nat) (s : Mfs4) (i : Node) :
    ((loadSectors d disk ks s).1.inodes i).used
      = if flagOffset i / sectorSize ∈ ks.takeWhile (fun k => d.readable (lbaData + k)) then
          cellAt disk lbaData (flagOffset i)
        else (s.inodes i).used := by
  induction ks generalizing s with
  | nil => rfl
  | cons k ks ih =>
      rw [loadSectors, List.takeWhile_cons]
      by_cases hread : d.readable (lbaData + k)
      · rw [if_pos hread, if_pos hread, ih, used_loadSector]
        simp only [List.mem_cons]
        grind
      · rw [if_neg hread, if_neg hread]
        rfl

theorem nextInodeId_loadSectors (d : Drive) (disk : Disk) (ks : List Nat) (s : Mfs4) :
    (loadSectors d disk ks s).1.nextInodeId = s.nextInodeId := by
  induction ks generalizing s with
  | nil => rfl
  | cons k ks ih =>
      rw [loadSectors]
      split
      · rw [ih]
        rfl
      · rfl

/-- A load fails at a sector that cannot be read. -/
theorem loadSectors_failed (d : Drive) (disk : Disk) (ks : List Nat) (s : Mfs4) :
    ((loadSectors d disk ks s).2 = -1 ↔ ∃ k ∈ ks, d.readable (lbaData + k) = false) ∧
      ((loadSectors d disk ks s).2 = 0 ↔ ∀ k ∈ ks, d.readable (lbaData + k) = true) := by
  induction ks generalizing s with
  | nil => simp [loadSectors]
  | cons k ks ih =>
      rw [loadSectors, List.exists_mem_cons_iff, List.forall_mem_cons]
      cases hread : d.readable (lbaData + k) with
      | true => simpa using ih (loadSector disk s k)
      | false => simp

/-- The bytes of the inode that stands in memory. -/
theorem byte_ofBytes (raw : Nat → UInt8) {o : Nat} (ho : o < inodeSize) :
    (MFS4Inode.ofBytes raw).byte o = raw o := by
  rw [MFS4Inode.byte]
  split
  · exact congrArg raw (show 8 + (o - 8) = o by omega)
  split
  · exact congrArg raw (show 72 + (o - 72) = o by omega)
  · have hwords := fun i => bytes_ofLe32 (raw i) (raw (i + 1)) (raw (i + 2)) (raw (i + 3))
    have hlow : o < 8 ∨ 136 ≤ o := by omega
    simp only [inodeSize] at ho
    rcases hlow with hlow | hhigh
    · interval_cases o
      · rfl
      · rfl
      · exact (bytes_ofLe16 _ _).1
      · exact (bytes_ofLe16 _ _).2
      · exact (hwords 4).1
      · exact (hwords 4).2.1
      · exact (hwords 4).2.2.1
      · exact (hwords 4).2.2.2
    · interval_cases o
      · exact (hwords 136).1
      · exact (hwords 136).2.1
      · exact (hwords 136).2.2.1
      · exact (hwords 136).2.2.2
      · exact (hwords 140).1
      · exact (hwords 140).2.1
      · exact (hwords 140).2.2.1
      · exact (hwords 140).2.2.2

/-- A table in memory, read as memory. -/
theorem rawTable_tableOf (raw : Nat → UInt8) {off : Nat} (hoff : off < inodeBytes) :
    rawTable (tableOf raw) off = raw off := by
  rw [rawTable, dif_pos hoff, tableOf, byte_ofBytes _ (Nat.mod_lt _ (by decide))]
  exact congrArg raw (Nat.div_add_mod' off inodeSize)

/-- Two memories that agree hold the same table. -/
theorem tableOf_congr {raw raw' : Nat → UInt8} (h : ∀ off < inodeBytes, raw off = raw' off) :
    tableOf raw = tableOf raw' := by
  funext i
  have hin : ∀ o < inodeSize, i.val * inodeSize + o < inodeBytes := by
    intro o ho
    have hi := i.isLt
    simp only [inodeSize, inodeBytes, maxInodes] at ho hi ⊢
    omega
  apply MFS4Inode.ofBytes_byte
  intro o ho
  rw [tableOf, byte_ofBytes _ ho, h _ (hin o ho)]

/-- The table behind the first `n` sectors. -/
theorem inodes_loadSectors_range (disk : Disk) (n : Nat) (s : Mfs4) (k : Nat) :
    (loadSectors goodDrive disk (List.range' k n) s).1.inodes = tableOf fun off =>
      if k * sectorSize ≤ off ∧ off < (k + n) * sectorSize then cellAt disk lbaData off
      else rawTable s.inodes off := by
  induction n generalizing s k with
  | zero =>
      funext i
      rw [tableOf, eq_comm]
      apply MFS4Inode.ofBytes_byte
      intro o ho
      rw [if_neg (by rw [Nat.add_zero]; omega), rawTable_inode _ i ho]
      rfl
  | succ n ih =>
      have hread : goodDrive.readable (lbaData + k) = true := rfl
      rw [List.range'_succ, loadSectors, if_pos hread, ih]
      apply tableOf_congr
      intro off hoff
      rw [loadSector, rawTable_tableOf _ hoff]
      simp only [sectorSize]
      grind

/-- A disk without bad sectors is loaded whole. -/
theorem mfs4LoadFrom_goodDrive (disk : Disk) (s : Mfs4) :
    mfs4LoadFrom goodDrive disk s =
      match mfs4Load disk with
      | some m => (m, 0)
      | none => (s, -1) := by
  have hmagic : goodDrive.starts disk = hasInodeMagic disk := Bool.true_and _
  have hguard : (disk lbaMeta 0 != 'M'.toUInt8 || disk lbaMeta 1 != 'F'.toUInt8 ||
      disk lbaMeta 2 != 'S'.toUInt8 || disk lbaMeta 3 != '4'.toUInt8) = !hasInodeMagic disk := by
    simp only [hasInodeMagic, bne, Bool.not_and]
  rw [mfs4LoadFrom, hmagic, mfs4Load, hguard]
  cases hasInodeMagic disk with
  | true =>
      have hinodes := inodes_loadSectors_range disk inodeSects
        { s with nextInodeId := nextIdOn disk } 0
      have hnext := nextInodeId_loadSectors goodDrive disk (List.range inodeSects)
        { s with nextInodeId := nextIdOn disk }
      have hloaded := (loadSectors_failed goodDrive disk (List.range inodeSects)
        { s with nextInodeId := nextIdOn disk }).2.mpr fun _ _ => rfl
      rw [← List.range_eq_range'] at hinodes
      rw [if_pos rfl]
      generalize loadSectors goodDrive disk (List.range inodeSects)
        { s with nextInodeId := nextIdOn disk } = r at hinodes hnext hloaded ⊢
      obtain ⟨⟨inodes, next⟩, rc⟩ := r
      have htable : inodes = tableOf (cellAt disk lbaData) := by
        refine hinodes.trans ?_
        apply tableOf_congr
        intro off hoff
        rw [if_pos]
        simp only [inodeBytes, inodeSize, maxInodes, sectorSize, inodeSects] at hoff ⊢
        omega
      obtain rfl : rc = 0 := hloaded
      obtain rfl : next = nextIdOn disk := hnext
      rw [htable]
      rfl
  | false => rfl

/-- On a disk without bad sectors `mfs4_init` is as before. -/
theorem mfs4InitFrom_goodDrive (s : Mfs4) (fs : Mfs3) :
    mfs4InitFrom goodDrive s fs = mfs4Init s fs := by
  rw [mfs4InitFrom, mfs4LoadFrom_goodDrive, mfs4Init]
  cases mfs4Load fs.disk with
  | none => rfl
  | some m => rfl

end Load

/-! ## The scan of the file table -/

/-- What a used inode says. -/
structure Shown where
  type : UInt8
  inodeId : UInt32
  path : CString
  target : CString
  ctime : UInt32
  mtime : UInt32

/-- An inode by what it says, if it is used. -/
def MFS4Inode.shown (nd : MFS4Inode) : Option Shown :=
  if nd.used = 0 then none
  else some ⟨nd.type, nd.inodeId, nd.pathName, nd.targetName, nd.ctime, nd.mtime⟩

/-- Two tables with the same inodes in the same places. -/
def SameInodes (s s' : Mfs4) : Prop := ∀ i, (s.inodes i).shown = (s'.inodes i).shown

section Scan
variable {s s' : Mfs4} {files : Slot → FSFile} {type : UInt8} {path target : CString}
  {ctime mtime : UInt32}

theorem shown_eq_none {nd : MFS4Inode} : nd.shown = none ↔ nd.used = 0 := by
  rw [MFS4Inode.shown]
  split <;> simp [*]

/-- The inode that is filled says what it was filled with. -/
theorem shown_putInode_same (i : Node) (id : UInt32) :
    ((putInode s i type id path target ctime mtime).inodes i).shown
      = some ⟨type, id, storedPath path, storedPath target, ctime, mtime⟩ := by
  simp only [putInode, Function.update_self, MFS4Inode.shown, MFS4Inode.pathName,
    MFS4Inode.targetName, CString.ofArray_copyTo _ _ (show 0 < pathLen by decide), storedPath]
  rfl

theorem putInode_other {j : Node} (hji : j ≠ i) (id : UInt32) :
    (putInode s i type id path target ctime mtime).inodes j = s.inodes j := by
  simp only [putInode, Function.update_of_ne hji]

/-- The first free inode depends on what is used only. -/
theorem SameInodes.allocInode (h : SameInodes s s') : allocInode s = allocInode s' := by
  have hp : (fun i => (s.inodes i).used == 0) = fun i => (s'.inodes i).used == 0 := by
    funext i
    rw [Bool.eq_iff_iff, beq_iff_eq, beq_iff_eq, ← shown_eq_none, ← shown_eq_none, h i]
  rw [Fs.allocInode, Fs.allocInode, hp]

/-- A new inode in two tables with the same inodes and the same next number. -/
theorem SameInodes.newInode (h : SameInodes s s') (hid : s.nextInodeId = s'.nextInodeId)
    (type : UInt8) (path target : CString) (ctime mtime : UInt32) :
    (Fs.newInode s type path target ctime mtime = none ∧
        Fs.newInode s' type path target ctime mtime = none) ∨
      ∃ m m', Fs.newInode s type path target ctime mtime = some m ∧
        Fs.newInode s' type path target ctime mtime = some m' ∧ SameInodes m m' ∧
        m.nextInodeId = m'.nextInodeId := by
  rw [Fs.newInode, Fs.newInode, h.allocInode]
  cases Fs.allocInode s' with
  | none => exact Or.inl ⟨rfl, rfl⟩
  | some i =>
      refine Or.inr ⟨_, _, rfl, rfl, ?_, congrArg (· + 1) hid⟩
      intro j
      by_cases hji : j = i
      · rw [hji, shown_putInode_same, shown_putInode_same, hid]
      · rw [putInode_other hji, putInode_other hji]
        exact h j

/-- A new inode leaves the used ones. -/
theorem shown_newInode {m : Mfs4} (h : newInode s type path target ctime mtime = some m)
    (hi : (s.inodes i).used ≠ 0) : (m.inodes i).shown = (s.inodes i).shown := by
  obtain ⟨k, hk, rfl⟩ := Option.map_eq_some_iff.mp h
  have hne : i ≠ k := by
    rintro rfl
    exact hi (allocInode_free hk)
  rw [putInode_other hne]

/-- One round of the scan leaves the used inodes. -/
theorem shown_scanSlot (p : Mfs4 × Bool) (k : Slot) (hi : (p.1.inodes i).used ≠ 0) :
    ((scanSlot files p k).1.inodes i).shown = (p.1.inodes i).shown := by
  rw [scanSlot]
  split
  · rfl
  · split
    · rfl
    · exact shown_newInode ‹_› hi

theorem shown_scan (l : List Slot) (p : Mfs4 × Bool) (hi : (p.1.inodes i).used ≠ 0) :
    ((l.foldl (scanSlot files) p).1.inodes i).shown = (p.1.inodes i).shown := by
  induction l generalizing p with
  | nil => rfl
  | cons k l ih =>
      have hstep : ((scanSlot files p k).1.inodes i).shown = (p.1.inodes i).shown :=
        shown_scanSlot p k hi
      rw [List.foldl_cons, ih, hstep]
      rwa [ne_eq, ← shown_eq_none, hstep, shown_eq_none]

/-- Two scans that go on together. -/
structure ScanRel (p p' : Mfs4 × Bool) : Prop where
  same : SameInodes p.1 p'.1
  next : p.1.nextInodeId = p'.1.nextInodeId
  flag : p.2 = p'.2

theorem ScanRel.scanSlot {p p' : Mfs4 × Bool} (h : ScanRel p p') (k : Slot) :
    ScanRel (Fs.scanSlot files p k) (Fs.scanSlot files p' k) := by
  rw [Fs.scanSlot, Fs.scanSlot, h.flag]
  split
  · exact h
  · rcases h.same.newInode h.next (if (files k).isDir then typeDir else typeFile)
      (files k).nameStr (files k).nameStr (files k).ctime (files k).mtime with
      ⟨hn, hn'⟩ | ⟨m, m', hm, hm', hsame, hnext⟩
    · rw [hn, hn']
      exact ⟨h.same, h.next, rfl⟩
    · rw [hm, hm']
      exact ⟨hsame, hnext, rfl⟩

/-- The scan depends on the inodes and the next number only. -/
theorem ScanRel.foldl {p p' : Mfs4 × Bool} (h : ScanRel p p') (l : List Slot) :
    ScanRel (l.foldl (Fs.scanSlot files) p) (l.foldl (Fs.scanSlot files) p') := by
  induction l generalizing p p' with
  | nil => exact h
  | cons k l ih => exact ih (h.scanSlot k)

/-- A table of unused files adds nothing. -/
theorem scanTable_of_unused (hfiles : ∀ k, (files k).used = 0) (s : Mfs4) :
    scanTable files s = s := by
  have hstep : ∀ p k, scanSlot files p k = p := by
    intro p k
    rw [scanSlot, if_pos]
    simp [hfiles k]
  rw [scanTable, List.foldl_fixed' (fun k => hstep (s, false) k)]

/-- In an empty table the first used file gets inode 0 and the next number. -/
theorem scan_first (l : List Slot) (hfree : ∀ i, (s.inodes i).used = 0)
    (hfile : ∃ k ∈ l, (files k).used ≠ 0) :
    ∃ v, ((l.foldl (scanSlot files) (s, false)).1.inodes 0).shown = some v ∧
      v.inodeId = s.nextInodeId := by
  induction l with
  | nil => simp at hfile
  | cons k l ih =>
      rw [List.foldl_cons, scanSlot]
      by_cases hk : (files k).used = 0
      · rw [if_pos (by simp [hk])]
        obtain ⟨k', hk', hused⟩ := hfile
        rcases List.mem_cons.mp hk' with rfl | hk'
        · exact absurd hk hused
        · exact ih ⟨k', hk', hused⟩
      · have halloc : allocInode s = some 0 := by
          rw [allocInode, List.finRange_succ, List.find?_cons_of_pos (by simp [hfree 0])]
        rw [if_neg (by simp [hk]), newInode, halloc, Option.map_some]
        dsimp only
        rw [shown_scan]
        · exact ⟨_, shown_putInode_same _ _, rfl⟩
        · rw [ne_eq, ← shown_eq_none, shown_putInode_same]
          exact Option.some_ne_none _

/-! ### How many -/

/-- The number of used inodes. -/
def usedCount (s : Mfs4) : Nat := (Finset.univ.filter fun i => (s.inodes i).shown.isSome).card

theorem SameInodes.usedCount (h : SameInodes s s') : usedCount s = usedCount s' := by
  have hp : (fun i => ((s.inodes i).shown.isSome = true)) =
      fun i => ((s'.inodes i).shown.isSome = true) := by
    funext i
    rw [h i]
  rw [Fs.usedCount, Fs.usedCount]
  congr 1
  ext i
  simp only [Finset.mem_filter, h i]

theorem usedCount_le (s : Mfs4) : usedCount s ≤ maxInodes :=
  (Finset.card_filter_le _ _).trans_eq (Finset.card_fin maxInodes)

/-- A new inode counts as one; there is none when all are used. -/
theorem usedCount_newInode (s : Mfs4) (type : UInt8) (path target : CString)
    (ctime mtime : UInt32) :
    match newInode s type path target ctime mtime with
    | none => usedCount s = maxInodes
    | some m => usedCount m = usedCount s + 1 := by
  rw [newInode]
  cases halloc : allocInode s with
  | none =>
      have hused : ∀ i, (s.inodes i).shown.isSome := by
        intro i
        have hi := List.find?_eq_none.mp halloc i (List.mem_finRange i)
        rw [Option.isSome_iff_ne_none, ne_eq, shown_eq_none]
        simpa using hi
      rw [Option.map_none]
      dsimp only
      rw [usedCount, Finset.filter_true_of_mem fun i _ => hused i, Finset.card_fin]
  | some k =>
      rw [Option.map_some]
      dsimp only
      have hk : k ∉ Finset.univ.filter fun i => (s.inodes i).shown.isSome := by
        rw [Finset.mem_filter, shown_eq_none.mpr (allocInode_free halloc)]
        simp
      rw [usedCount, usedCount, ← Finset.card_insert_of_notMem hk]
      congr 1
      ext i
      rw [Finset.mem_filter, Finset.mem_insert, Finset.mem_filter]
      by_cases hik : i = k
      · rw [hik, shown_putInode_same]
        simp
      · rw [putInode_other hik]
        simp [hik]

/-- The scan adds one inode for each used file, as long as there are free ones. -/
theorem usedCount_scan (l : List Slot) (p : Mfs4 × Bool) (hp : p.2 → usedCount p.1 = maxInodes) :
    usedCount (l.foldl (scanSlot files) p).1
      = min maxInodes (usedCount p.1 + l.countP fun k => (files k).used != 0) := by
  induction l generalizing p with
  | nil =>
      have := usedCount_le p.1
      simpa using this
  | cons k l ih =>
      have hle := usedCount_le p.1
      rw [List.foldl_cons, scanSlot]
      by_cases hused : (files k).used = 0
      · rw [if_pos (by simp [hused]), ih p hp, List.countP_cons_of_neg (by simp [hused])]
      rw [List.countP_cons_of_pos (by simpa using hused)]
      by_cases hfull : p.2
      · have hcount := hp hfull
        rw [if_pos (by simp [hfull]), ih p hp]
        omega
      · have hnew := usedCount_newInode p.1 (if (files k).isDir then typeDir else typeFile)
          (files k).nameStr (files k).nameStr (files k).ctime (files k).mtime
        rw [if_neg (by simp [hfull, hused])]
        split
        · rename_i hnone
          rw [hnone] at hnew
          rw [ih (p.1, true) fun _ => hnew]
          dsimp only at hnew ⊢
          omega
        · rename_i m hsome
          rw [hsome] at hnew
          rw [ih (m, false) (fun h => nomatch h)]
          dsimp only at hnew ⊢
          omega

end Scan

section Scanned
variable {s : Mfs4} {files : Slot → FSFile}

theorem usedCount_scanTable (files : Slot → FSFile) (s : Mfs4) :
    usedCount (scanTable files s) = min maxInodes
      (usedCount s + (List.finRange maxFiles).countP fun k => (files k).used != 0) :=
  usedCount_scan _ (s, false) (fun h => nomatch h)

theorem scanTable_first (hfree : ∀ i, (s.inodes i).used = 0) (hfile : ∃ k, (files k).used ≠ 0) :
    ∃ v, ((scanTable files s).inodes 0).shown = some v ∧ v.inodeId = s.nextInodeId := by
  obtain ⟨k, hk⟩ := hfile
  rw [scanTable]
  exact scan_first (List.finRange maxFiles) hfree ⟨k, List.mem_finRange k, hk⟩

theorem cleared_unused (s : Mfs4) (i : Node) : ((cleared s).inodes i).used = 0 := rfl

theorem cleared_next (s : Mfs4) : (cleared s).nextInodeId = 1 := rfl

end Scanned

/-! ## The calls -/

/-- The calls that may fail. A path that is null is missing. -/
inductive Call
  | init (d : Drive)
  | mkdir (path : Option CString) (tick tick' : UInt32)
  | symlink (link target : Option CString) (tick : UInt32)
  | hardlink (link original : Option CString) (tick : UInt32)
  | rename (oldPath newPath : Option CString) (tick tick' : UInt32)
  | register (path : Option CString) (type : UInt8) (tick : UInt32)

/-- A call: both tables and what it returns; for `mfs4_init` what `mfs4_load` returned. -/
def Call.run (s : FileSys) : Call → FileSys × Int
  | .init d => ({ s with mfs := mfs4InitFrom d s.mfs s.fs },
      (mfs4LoadFrom d s.fs.disk (cleared s.mfs)).2)
  | .mkdir (some path) tick tick' => mfs4Mkdir s path tick tick'
  | .symlink (some link) (some target) tick =>
      let r := mfs4Symlink s.mfs link target tick
      ({ s with mfs := r.1 }, r.2)
  | .hardlink (some link) (some original) tick =>
      let r := mfs4Hardlink s.mfs link original tick
      ({ s with mfs := r.1 }, r.2)
  | .rename (some oldPath) (some newPath) tick tick' => mfs4Rename s oldPath newPath tick tick'
  | .register (some path) type tick =>
      let r := mfs4Register s.mfs path type tick
      ({ s with mfs := r.1 }, r.2)
  | _ => (s, -1)

/-- A call that fails leaves both tables as they were; `mfs4_init` after a load that failed
has the inodes that the scan gives the table it cleared. -/
def Call.Atomic (s : FileSys) (c : Call) : Prop :=
  (c.run s).2 = -1 →
    match c with
    | .init _ => SameInodes (c.run s).1.mfs (scanTable s.fs.files (cleared s.mfs))
    | _ => (c.run s).1.fs.files = s.fs.files ∧ (c.run s).1.mfs = s.mfs

/-- When a failed call is atomic: `mfs4_mkdir` if there was a free inode, or if it made no
directory in the file table; `mfs4_init` if the load failed in front of the table, or if it
loaded no used inode and left the next number at 1 or had no file to number. -/
def Call.Clean (s : FileSys) : Call → Prop
  | .init d => d.starts s.fs.disk = true →
      (∃ k ∈ List.range inodeSects, d.readable (lbaData + k) = false) →
        (∀ i, flagOffset i / sectorSize ∈ loadedSectors d →
          cellAt s.fs.disk lbaData (flagOffset i) = 0) ∧
        (nextIdOn s.fs.disk = 1 ∨ ∀ k, (s.fs.files k).used = 0)
  | .mkdir (some path) _ _ => path.length = 0 ∨ findInode s.mfs path ≠ none ∨
      allocInode s.mfs ≠ none ∨ firstSlot s.fs.files (·.named path) ≠ none ∨
      firstSlot s.fs.files FSFile.isFree = none
  | _ => True

section Init
variable {d : Drive} {s : FileSys}

/-- The table of a load that fails among its sectors. -/
theorem init_started (hstart : d.starts s.fs.disk = true) :
    mfs4LoadFrom d s.fs.disk (cleared s.mfs) = loadSectors d s.fs.disk (List.range inodeSects)
      { cleared s.mfs with nextInodeId := nextIdOn s.fs.disk } := if_pos hstart

/-- The scan over leftovers shows what the scan over nothing does only if there are none. -/
theorem scan_same_iff {t t0 : Mfs4} {files : Slot → FSFile} (h0 : ∀ i, (t0.inodes i).used = 0)
    (hid0 : t0.nextInodeId = 1) :
    SameInodes (scanTable files t) (scanTable files t0) ↔
      (∀ i, (t.inodes i).used = 0) ∧ (t.nextInodeId = 1 ∨ ∀ k, (files k).used = 0) := by
  have hcount0 : usedCount t0 = 0 := by
    rw [usedCount, Finset.card_eq_zero, Finset.filter_eq_empty_iff]
    intro i _
    rw [shown_eq_none.mpr (h0 i)]
    exact nofun
  have hfew : (List.finRange maxFiles).countP (fun k => (files k).used != 0) ≤ maxFiles :=
    List.countP_le_length.trans_eq (List.length_finRange ..)
  constructor
  · intro h
    have hfree : ∀ i, (t.inodes i).used = 0 := by
      by_contra hused
      obtain ⟨i, hi⟩ := not_forall.mp hused
      have hpos : 0 < usedCount t := by
        apply Finset.card_pos.mpr
        refine ⟨i, Finset.mem_filter.mpr ⟨Finset.mem_univ i, ?_⟩⟩
        rw [Option.isSome_iff_ne_none, ne_eq, shown_eq_none]
        exact hi
      have heq := h.usedCount
      rw [usedCount_scanTable, usedCount_scanTable, hcount0] at heq
      simp only [maxInodes, maxFiles] at heq hfew
      omega
    refine ⟨hfree, ?_⟩
    by_contra hnot
    obtain ⟨hid, hfile⟩ := not_or.mp hnot
    obtain ⟨v, hv, hvid⟩ := scanTable_first hfree (not_forall.mp hfile)
    obtain ⟨w, hw, hwid⟩ := scanTable_first h0 (not_forall.mp hfile)
    have hvw : some v = some w := hv.symm.trans ((h 0).trans hw)
    rw [← hvid, Option.some.inj hvw, hwid] at hid
    exact hid hid0
  · rintro ⟨hfree, hid⟩
    have hsame : SameInodes t t0 := by
      intro i
      rw [shown_eq_none.mpr (hfree i), shown_eq_none.mpr (h0 i)]
    rcases hid with hid | hfiles
    · have hrel : ScanRel (t, false) (t0, false) := ⟨hsame, hid.trans hid0.symm, rfl⟩
      exact (hrel.foldl _).same
    · rw [scanTable_of_unused hfiles, scanTable_of_unused hfiles]
      exact hsame

/-- What `mfs4_init` leaves when the load failed. -/
theorem init_atomic_iff : (Call.init d).Atomic s ↔ (Call.init d).Clean s := by
  have hrun : (Call.init d).Atomic s ↔ ((mfs4LoadFrom d s.fs.disk (cleared s.mfs)).2 = -1 →
      SameInodes (mfs4InitFrom d s.mfs s.fs) (scanTable s.fs.files (cleared s.mfs))) := Iff.rfl
  rw [hrun, mfs4InitFrom, Call.Clean]
  by_cases hstart : d.starts s.fs.disk = true
  · obtain ⟨hfailed, -⟩ := loadSectors_failed d s.fs.disk (List.range inodeSects)
      { cleared s.mfs with nextInodeId := nextIdOn s.fs.disk }
    rw [init_started hstart, hfailed, forall_prop_of_true hstart]
    apply forall_congr'
    intro hbad
    have hne : ¬ (loadSectors d s.fs.disk (List.range inodeSects)
        { cleared s.mfs with nextInodeId := nextIdOn s.fs.disk }).2 = 0 := by
      rw [hfailed.mpr hbad]
      decide
    rw [if_neg hne, scan_same_iff (cleared_unused s.mfs) (cleared_next s.mfs),
      nextInodeId_loadSectors]
    apply and_congr_left'
    apply forall_congr'
    intro i
    rw [used_loadSectors]
    exact ⟨fun h hi => (if_pos hi).symm.trans h, fun h => by
      split
      · exact h ‹_›
      · rfl⟩
  · have hne : ¬ ((-1 : Int) = 0) := by decide
    rw [mfs4LoadFrom, if_neg hstart]
    dsimp only
    rw [if_neg hne]
    exact iff_of_true (fun _ _ => rfl) fun h => absurd h hstart

end Init

section Mkdir
variable {s : FileSys} {path : CString} {tick tick' : UInt32}

/-- `fs_mkdir` changes the file table exactly if it makes a directory. -/
theorem files_fsMkdir (s : Mfs3) (name : CString) (tick : UInt32) :
    (fsMkdir s name tick).1.files = s.files ↔
      firstSlot s.files (·.named name) ≠ none ∨ firstSlot s.files FSFile.isFree = none := by
  rw [fsMkdir]
  cases firstSlot s.files (·.named name) with
  | some i => simp
  | none =>
      cases hfree : firstSlot s.files FSFile.isFree with
      | none => simp
      | some i =>
          refine iff_of_false ?_ (by simp)
          intro heq
          have hunused : (s.files i).used = 0 := by
            have := List.find?_some hfree
            simpa [FSFile.isFree] using this
          have hused := congrArg (fun files => (files i).used) heq
          simp [diskSave, put, hunused] at hused

/-- A new inode there is exactly if one is free. -/
theorem newInode_eq_none {s : Mfs4} {type : UInt8} {path target : CString}
    {ctime mtime : UInt32} :
    newInode s type path target ctime mtime = none ↔ allocInode s = none := by
  rw [newInode, Option.map_eq_none_iff]

theorem mkdir_atomic_iff :
    (Call.mkdir (some path) tick tick').Atomic s ↔ (Call.mkdir (some path) tick tick').Clean s := by
  have hrun : (Call.mkdir (some path) tick tick').Atomic s ↔
      ((mfs4Mkdir s path tick tick').2 = -1 →
        (mfs4Mkdir s path tick tick').1.fs.files = s.fs.files ∧
          (mfs4Mkdir s path tick tick').1.mfs = s.mfs) := Iff.rfl
  rw [hrun, mfs4Mkdir, Call.Clean]
  by_cases hempty : path.length = 0
  · rw [if_pos hempty]
    exact iff_of_true (fun _ => ⟨rfl, rfl⟩) (Or.inl hempty)
  rw [if_neg hempty, or_iff_right hempty]
  cases findInode s.mfs path with
  | some i => exact iff_of_true (fun _ => ⟨rfl, rfl⟩) (Or.inl nofun)
  | none =>
      rw [or_iff_right (not_not.mpr rfl)]
      dsimp only
      split
      · rename_i hnone
        rw [or_iff_right (not_not.mpr (newInode_eq_none.mp hnone)), ← files_fsMkdir _ _ tick]
        exact ⟨fun h => (h rfl).1, fun h _ => ⟨h, rfl⟩⟩
      · rename_i m hsome
        refine iff_of_true (fun h => absurd h (by simp)) (Or.inl ?_)
        rw [ne_eq, ← newInode_eq_none, hsome]
        exact nofun

end Mkdir

section Others
variable {s : FileSys}

/-- `mfs4_symlink` checks before it writes. -/
theorem mfs4Symlink_failed {s : Mfs4} {link target : CString}
    (h : (mfs4Symlink s link target tick).2 = -1) : (mfs4Symlink s link target tick).1 = s := by
  rw [mfs4Symlink] at h ⊢
  split
  · rfl
  · split
    · rfl
    · simp [*] at h

/-- `mfs4_hardlink` checks before it writes. -/
theorem mfs4Hardlink_failed {s : Mfs4} {link original : CString}
    (h : (mfs4Hardlink s link original tick).2 = -1) :
    (mfs4Hardlink s link original tick).1 = s := by
  rw [mfs4Hardlink] at h ⊢
  split
  · rfl
  · split
    · rfl
    · split
      · rfl
      · split
        · rfl
        · simp [*] at h

/-- `mfs4_register` checks before it writes. -/
theorem mfs4Register_failed {s : Mfs4} {path : CString} {type : UInt8}
    (h : (mfs4Register s path type tick).2 = -1) : (mfs4Register s path type tick).1 = s := by
  rw [mfs4Register] at h ⊢
  split
  · rfl
  · split
    · rfl
    · split
      · rfl
      · simp [*] at h

theorem fsRename_failed {s : Mfs3} {oldName newName : CString}
    (h : (fsRename s oldName newName tick).2 ≠ 0) : (fsRename s oldName newName tick).1 = s := by
  rw [fsRename] at h ⊢
  split
  · rfl
  · split
    · simp [*] at h
    · rfl

/-- `mfs4_rename` checks before it writes, and a failed `fs_rename` has not written. -/
theorem mfs4Rename_failed {oldPath newPath : CString} {tick' : UInt32}
    (h : (mfs4Rename s oldPath newPath tick tick').2 = -1) :
    (mfs4Rename s oldPath newPath tick tick').1 = s := by
  rw [mfs4Rename] at h ⊢
  split
  · rfl
  · split
    · rfl
    · dsimp only at h ⊢
      split
      · split
        · rw [fsRename_failed ‹_›]
        · simp [*] at h
      · simp [*] at h

end Others

/-- A failed call leaves no trace exactly if it is clean. -/
theorem call_atomic_iff (s : FileSys) (c : Call) : c.Atomic s ↔ c.Clean s := by
  match c with
  | .init d => exact init_atomic_iff
  | .mkdir (some path) tick tick' => exact mkdir_atomic_iff
  | .symlink (some link) (some target) tick =>
      exact iff_of_true (fun h => ⟨rfl, mfs4Symlink_failed h⟩) trivial
  | .hardlink (some link) (some original) tick =>
      exact iff_of_true (fun h => ⟨rfl, mfs4Hardlink_failed h⟩) trivial
  | .rename (some oldPath) (some newPath) tick tick' =>
      refine iff_of_true (fun h => ?_) trivial
      have hsame := mfs4Rename_failed h
      exact ⟨congrArg (·.fs.files) hsame, congrArg (·.mfs) hsame⟩
  | .register (some path) type tick =>
      exact iff_of_true (fun h => ⟨rfl, mfs4Register_failed h⟩) trivial
  | .mkdir none _ _ => exact iff_of_true (fun _ => ⟨rfl, rfl⟩) trivial
  | .symlink none _ _ => exact iff_of_true (fun _ => ⟨rfl, rfl⟩) trivial
  | .symlink (some _) none _ => exact iff_of_true (fun _ => ⟨rfl, rfl⟩) trivial
  | .hardlink none _ _ => exact iff_of_true (fun _ => ⟨rfl, rfl⟩) trivial
  | .hardlink (some _) none _ => exact iff_of_true (fun _ => ⟨rfl, rfl⟩) trivial
  | .rename none _ _ _ => exact iff_of_true (fun _ => ⟨rfl, rfl⟩) trivial
  | .rename (some _) none _ _ => exact iff_of_true (fun _ => ⟨rfl, rfl⟩) trivial
  | .register none _ _ => exact iff_of_true (fun _ => ⟨rfl, rfl⟩) trivial

/-- A system whose inodes are all used, with an empty file table. -/
def fullTable : FileSys where
  fs :=
    { files := fun _ =>
        { name := fun _ => 0, size := 0, used := 0, tmpfs := 0, dirty := false, perms := 0
          ctime := 0, mtime := 0, data := none }
      disk := fun _ _ => 0, overflow := false }
  mfs := ⟨fun _ => { zeroInode with type := typeFile, used := 1, path := fun _ => 0 }, 129⟩

/-- `mfs4_mkdir` of `a` there fails, and `a` is in the file table. -/
theorem not_every_call_atomic : ¬ ∀ s c, Call.Atomic s c := by
  intro h
  have hfail : (mfs4Mkdir fullTable nameA 0 0).2 = -1 := by decide +kernel
  have hmade : ((mfs4Mkdir fullTable nameA 0 0).1.fs.files 0).used = 1 := by decide +kernel
  have hkept := (h fullTable (.mkdir (some nameA) 0 0) hfail).1
  exact absurd (hmade.symm.trans (congrArg (fun files => (files 0).used) hkept)) (by decide)

end OriaOS.Fs
