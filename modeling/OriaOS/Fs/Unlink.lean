import OriaOS.Fs.Links

/-!
# What an unlink removes

An unlink removes the bytes of a file when its inode is the last of its number. The
bytes are found by the target. In a run in which no file gets a second number while
inodes name it, an unlink removes the bytes exactly when no other inode names them.
-/

namespace OriaOS.Fs

open OriaOS.Lib

/-! ## The files as a map -/

/-- The name of a file that can be read. -/
def FSFile.fileKey (f : FSFile) : Option CString := if f.isDir then none else f.key

theorem FSFile.fileKey_iff {f : FSFile} {name : CString} :
    f.fileKey = some name ↔ f.isFile name = true := by
  rw [isFile_iff, fileKey]
  split
  · next h => simp [h]
  · next h => simp [h]

theorem NamesInv.fileKeys {files : Slot → FSFile} (h : NamesInv files) :
    DistinctKeys fun i => (files i).fileKey := by
  intro i j name hi hj
  exact h.distinct (FSFile.isFile_iff.mp (FSFile.fileKey_iff.mp hi)).1
    (FSFile.isFile_iff.mp (FSFile.fileKey_iff.mp hj)).1

/-- With distinct names the scan finds the one file of the name. -/
theorem NamesInv.scan_eq {β : Type*} {files : Slot → FSFile} (h : NamesInv files)
    (val : Slot → β) (name : CString) :
    (firstSlot files (·.isFile name)).map val = mapOf (fun i => (files i).fileKey) val name := by
  cases hi : firstSlot files (·.isFile name) with
  | none =>
      rw [mapOf_eq_none]
      · rfl
      · intro j hj
        have hn := firstSlot_none hi j
        rw [FSFile.fileKey_iff.mp hj] at hn
        cases hn
  | some i =>
      rw [h.fileKeys.mapOf_eq (i := i) (FSFile.fileKey_iff.mpr (firstSlot_some hi))]
      rfl

theorem fsReadBin_eq {s : Mfs3} (h : NamesInv s.files) (name : CString) :
    fsReadBin s name = mapOf (fun i => (s.files i).fileKey)
      (fun i => ((s.files i).data, (s.files i).size)) name :=
  h.scan_eq _ name

theorem fsReadBin_ne_none {s : Mfs3} {name : CString} :
    fsReadBin s name ≠ none ↔ FileNamed s name := by
  unfold fsReadBin
  cases hi : firstSlot s.files (·.isFile name) with
  | none =>
      refine ⟨fun h => absurd rfl h, ?_⟩
      rintro ⟨k, hk⟩
      rw [firstSlot_none hi k] at hk
      cases hk
  | some i => exact ⟨fun _ => ⟨i, firstSlot_some hi⟩, fun _ => by simp⟩

theorem diskSave_other {s : Mfs3} {i j : Slot} (h : j ≠ i) :
    (diskSave s i).files j = s.files j := by
  simp only [diskSave]
  split
  · rfl
  · split
    · rfl
    · exact Function.update_of_ne h ..

theorem fsDelete_names_inv {s : Mfs3} (h : NamesInv s.files) (name : CString) :
    NamesInv (fsDelete s name).1.files :=
  (fsDelete_names s name fun _ => True).names h fun _ _ => trivial

/-- A deletion removes the file of its name and no other. -/
theorem fsReadBin_fsDelete {s : Mfs3} (h : NamesInv s.files) (name name' : CString) :
    fsReadBin (fsDelete s name).1 name' = if name' = name then none else fsReadBin s name' := by
  have h' := fsDelete_names_inv h name
  rw [fsReadBin_eq h', fsReadBin_eq h]
  revert h'
  unfold fsDelete
  split
  · rename_i i hi
    intro h'
    have hkey := FSFile.named_iff.mp (firstSlot_some hi)
    generalize hg : ({ s.files i with used := 0, data := none } : FSFile) = g at h' ⊢
    have hother : ∀ j, j ≠ i → (diskSave (put s i g) i).files j = s.files j := by
      intro j hj
      rw [diskSave_other hj, put_other hj]
    have hfree : ((diskSave (put s i g) i).files i).used = 0 := by
      rw [(diskSave_header_same _ i i).used, put_self, ← hg]
    rw [h.fileKeys.mapOf_change (i := i) h'.fileKeys
      (fun j hj => by rw [hother j hj]) fun j hj _ => by rw [hother j hj]]
    dsimp only
    have hgone : ((diskSave (put s i g) i).files i).fileKey ≠ some name' := by
      intro hk
      rw [FSFile.fileKey_iff, FSFile.isFile_iff, FSFile.key_of_free hfree] at hk
      cases hk.1
    rw [if_neg hgone]
    by_cases heq : name' = name
    · rw [if_pos heq]
      split
      · rfl
      · next hdir =>
        apply mapOf_eq_none
        intro j hj
        have hk := (FSFile.isFile_iff.mp (FSFile.fileKey_iff.mp hj)).1
        exact hdir (h.distinct hk (heq ▸ hkey) ▸ hj)
    · rw [if_neg heq]
      apply if_neg
      intro hk
      have hk := (FSFile.isFile_iff.mp (FSFile.fileKey_iff.mp hk)).1
      exact heq (Option.some.inj (hk.symm.trans hkey))
  · rename_i hn
    intro _
    split
    · next heq =>
      apply mapOf_eq_none
      intro j hj
      have hnone := firstSlot_none hn j
      have hk := (FSFile.isFile_iff.mp (FSFile.fileKey_iff.mp hj)).1
      rw [FSFile.named_iff.mpr (heq ▸ hk)] at hnone
      cases hnone
    · rfl

/-! ## Unlinking -/

/-- What an unlink of a path does to the bytes of files. -/
structure SharedData (s : FileSys) (path : CString) : Prop where
  exist : ∀ j, (s.mfs.inodes j).IsFile → fsReadBin s.fs (targetStr s.mfs j) ≠ none
  kept : ∀ i j, findInode s.mfs path = some i → j ≠ i → (s.mfs.inodes j).IsFile →
    fsReadBin (mfs4Unlink s path).1.fs (targetStr s.mfs j) = fsReadBin s.fs (targetStr s.mfs j)
  gone : ∀ i, findInode s.mfs path = some i → (s.mfs.inodes i).IsFile →
    (fsReadBin (mfs4Unlink s path).1.fs (targetStr s.mfs i) = none ↔
      ∀ j, j ≠ i → (s.mfs.inodes j).IsFile → targetStr s.mfs j ≠ targetStr s.mfs i)

/-- An inode that shares its target with no other has the only reference. -/
theorem refs_of_alone {s : Mfs4} {i : Node}
    (h : ∀ j, (s.inodes j).IsFile → (s.inodes j).inodeId = (s.inodes i).inodeId → j = i) :
    refs s (s.inodes i).inodeId ≤ 1 := by
  have hsub : (List.finRange maxInodes).filter
      (fun j => sharesId (s.inodes j) (s.inodes i).inodeId) ⊆ [i] := by
    intro j hj
    obtain ⟨hfile, hid⟩ := sharesId_iff.mp (List.mem_filter.mp hj).2
    exact List.mem_singleton.mpr (h j hfile hid)
  have hnodup := (List.nodup_finRange maxInodes).filter
    fun j => sharesId (s.inodes j) (s.inodes i).inodeId
  rw [refs, List.countP_eq_length_filter]
  exact (List.subperm_of_subset hnodup hsub).length_le

theorem LinkInv.shared {s : FileSys} (h : LinkInv s) (hn : NamesInv s.fs.files)
    (path : CString) : SharedData s path := by
  have htarget : ∀ j, (s.mfs.inodes j).IsFile → targetStr s.mfs j = (s.mfs.inodes j).targetName :=
    fun j hj => targetStr_eq (h.nodes.terminated j hj.1)
  have hexist : ∀ j, (s.mfs.inodes j).IsFile → fsReadBin s.fs (targetStr s.mfs j) ≠ none := by
    intro j hj
    rw [htarget j hj]
    exact fsReadBin_ne_none.mpr (h.exist j hj)
  have hkept : ∀ i j, findInode s.mfs path = some i → j ≠ i → (s.mfs.inodes j).IsFile →
      fsReadBin (mfs4Unlink s path).1.fs (targetStr s.mfs j) =
        fsReadBin s.fs (targetStr s.mfs j) := by
    intro i j hi hji hj
    have hused := used_of_find h.nodes.terminated hi
    rw [(mfs4Unlink_unlinked hi).fs]
    split
    · rename_i hlast
      have hiFile : (s.mfs.inodes i).IsFile := ⟨hused, hlast.1⟩
      rw [fsReadBin_fsDelete hn, if_neg]
      rw [htarget j hj, htarget i hiFile]
      exact fun heq => hji (h.nodes.last hiFile hlast.2 hj heq)
    · rfl
  constructor
  case exist => exact hexist
  case kept => exact hkept
  case gone =>
    intro i hi hfile
    constructor
    · intro hnone j hji hj heq
      have hk := hkept i j hi hji hj
      rw [heq, hnone] at hk
      exact hexist i hfile hk.symm
    · intro halone
      have hrefs : refs s.mfs (s.mfs.inodes i).inodeId ≤ 1 := by
        apply refs_of_alone
        intro j hj hid
        by_contra hji
        apply halone j hji hj
        rw [htarget j hj, htarget i hfile]
        exact (h.nodes.agree j i hj hfile).mp hid
      rw [(mfs4Unlink_unlinked hi).fs, if_pos ⟨hfile.2, hrefs⟩, fsReadBin_fsDelete hn,
        if_pos rfl]

/-! ## Runs -/

/-- Files are created, linked, renamed and unlinked, under names that fit. -/
def shareCall (s : FileSys) : Op → Prop
  | .writeBin name .. => name.length ≤ maxName - 1
  | .register path type _ => path.length ≤ maxName - 1 ∧ type = typeFile ∧ FileNamed s.fs path
  | .hardlink link original _ => link.length ≤ maxName - 1 ∧ original.length ≤ maxName - 1
  | .renameInode oldPath newPath .. =>
      oldPath.length ≤ maxName - 1 ∧ newPath.length ≤ maxName - 1
  | .unlinkInode path => path.length ≤ maxName - 1
  | _ => False

/-- No file takes the name of a directory, and a path that gets a new inode is not the
target of another. -/
def shareKeeps (s : FileSys) : Op → Prop
  | .writeBin name .. => ∀ j, (s.fs.files j).key = some name → (s.fs.files j).isDir = false
  | .register path .. => MakesInode s.mfs path → NewFile s.mfs path
  | _ => True

def shareGuard (s : FileSys) (op : Op) : Prop := shareCall s op ∧ shareKeeps s op

theorem shareGuard_link {s : FileSys} {op : Op} (h : LinkInv s) (hg : shareGuard s op) :
    linkGuard s op := by
  obtain ⟨hcall, hkeep⟩ := hg
  have hfits : ∀ {path : CString}, path.length ≤ maxName - 1 → PathApart s.mfs path :=
    fun hlen _ => hlen.trans (by decide)
  cases op with
  | writeBin name bytes tick m =>
      refine ⟨trivial, ?_⟩
      intro j hj
      rw [storedName_of_le hcall] at hj
      exact hkeep j hj
  | register path type tick =>
      obtain ⟨hlen, -, hfile⟩ := hcall
      refine ⟨fun _ => (storedName_of_le hlen).symm ▸ hfile, ?_⟩
      intro _ hmakes
      exact ⟨hfits hlen, fun _ => ⟨hlen, hkeep hmakes⟩⟩
  | hardlink link original tick => exact ⟨trivial, fun _ => hfits hcall.1⟩
  | renameInode oldPath newPath tick tick' =>
      refine ⟨trivial, ?_⟩
      intro hnone i _
      refine ⟨?_, fun _ => hcall.2⟩
      intro j _
      exact free_path h.nodes.terminated hnone (hfits hcall.2) j
  | unlinkInode path => exact ⟨trivial, trivial⟩
  | _ => exact hcall.elim

theorem opStep_shareNames {s : FileSys} {op : Op} (h : NamesInv s.fs.files)
    (hg : shareGuard s op) : NamesInv (opStep s op).fs.files := by
  obtain ⟨hcall, hkeep⟩ := hg
  cases op with
  | writeBin name bytes tick m =>
      apply (fsWriteBinInternal_names s.fs name bytes 0 tick m).names h
      intro j hj
      rw [storedName_of_le hcall] at hj
      exact FSFile.isFile_iff.mpr ⟨hj, hkeep j hj⟩
  | register | hardlink => exact h
  | renameInode oldPath newPath tick tick' =>
      rcases mfs4Rename_fs s oldPath newPath tick tick' with hs | ⟨target, hs⟩
      · exact hs ▸ h
      · change NamesInv (mfs4Rename s oldPath newPath tick tick').1.fs.files
        rw [hs]
        apply (fsRename_names s.fs target newPath tick).names h
        intro j hj
        rw [storedName_of_le hcall.2] at hj
        exact Or.inl (FSFile.named_iff.mpr hj)
  | unlinkInode path =>
      rcases mfs4Unlink_fs s path with hs | ⟨target, hs⟩
      · exact hs ▸ h
      · exact hs ▸ fsDelete_names_inv h target
  | _ => exact hcall.elim

/-- In every run in which no file gets a second number while inodes name it, an unlink
keeps the bytes that another inode names, and removes them with the last. -/
theorem unlink_keeps_shared {s : FileSys} (r : Reach Scanned shareGuard opStep s)
    (path : CString) : SharedData s path := by
  have hinv : LinkInv s ∧ NamesInv s.fs.files := by
    apply r.invariant (P := fun s => LinkInv s ∧ NamesInv s.fs.files)
    · exact fun s h => ⟨h.inv, h.names⟩
    · exact fun s op h hg => ⟨opStep_link h.1 (shareGuard_link h.1 hg), opStep_shareNames h.2 hg⟩
  exact hinv.1.shared hinv.2 path

theorem nameB_nonzero : (0 : UInt8) ∉ [(98 : UInt8)] := by decide

def nameB : CString := ⟨[98], nameB_nonzero⟩

/-- The file `a` with a second link `b`. -/
def linkedFile : FileSys :=
  opStep ((createFile nameA).foldl opStep emptyFs) (.hardlink nameB nameA 0)

theorem unlink_keeps_shared_two_links : SharedData linkedFile nameA := by
  have hfree : ∀ j, (emptyFs.fs.files j).used = 0 := by decide +kernel
  have hnodes : ∀ j, ((opStep emptyFs (.writeBin nameA [1] 0 (some 3))).mfs.inodes j).used = 0 := by
    decide +kernel
  have hlen : nameA.length ≤ maxName - 1 := by decide
  apply unlink_keeps_shared
  apply Reach.next
  · apply createFile_reach (Reach.start emptyFs_scanned)
    · refine ⟨hlen, ?_⟩
      intro j hj
      rw [FSFile.key_of_free (hfree j)] at hj
      cases hj
    · refine ⟨⟨hlen, rfl, by decide +kernel⟩, ?_⟩
      exact fun _ j hj => absurd (hnodes j) hj.1
  · exact ⟨⟨by decide, hlen⟩, trivial⟩

/-- The file `a` is made again after its first link is gone. -/
def madeAgain : FileSys :=
  (createFile nameA).foldl opStep (opStep linkedFile (.unlinkInode nameA))

theorem second_number_loses_data : ¬ ∀ s, Reach Scanned shareCall opStep s →
    ∀ path, SharedData s path := by
  intro h
  have hlen : nameA.length ≤ maxName - 1 := by decide
  have hlink : Reach Scanned shareCall opStep linkedFile :=
    Reach.next _ (createFile_reach (Reach.start emptyFs_scanned) hlen
      ⟨hlen, rfl, by decide +kernel⟩) ⟨by decide, hlen⟩
  have hcall : shareCall linkedFile (.unlinkInode nameA) := hlen
  have hunlink : Reach Scanned shareCall opStep (opStep linkedFile (.unlinkInode nameA)) :=
    hlink.next _ hcall
  have hfile : FileNamed (opStep (opStep linkedFile (.unlinkInode nameA))
      (.writeBin nameA [1] 0 (some 3))).fs nameA := by
    decide +kernel
  have hr : Reach Scanned shareCall opStep madeAgain :=
    createFile_reach hunlink hlen ⟨hlen, rfl, hfile⟩
  have hb : (madeAgain.mfs.inodes 1).IsFile ∧ findInode madeAgain.mfs nameA = some 0 := by
    decide +kernel
  have hgone : (fsReadBin (mfs4Unlink madeAgain nameA).1.fs
      (targetStr madeAgain.mfs 1)).isNone = true := by
    decide +kernel
  have hd := h madeAgain hr nameA
  have hkept := hd.kept 0 1 hb.2 (by decide) hb.1
  rw [Option.isNone_iff_eq_none.mp hgone] at hkept
  exact hd.exist 1 hb.1 hkept.symm

end OriaOS.Fs
