import OriaOS.Lib.Keyed
import OriaOS.Fs.Buffers

/-!
# Names in the file table

A stored name is the first 31 bytes of the name a call was given; a lookup compares
whole names. The calls of `fs.c` look for an entry of the name before they store it,
but not all with the same test, so the names of the table are kept apart only where
the test of the call finds the entry that has the stored name already.
-/

namespace OriaOS.Fs

open OriaOS.Lib

variable {name : CString} {f g : FSFile} {s : Mfs3} {i : Slot} {files : Slot → FSFile}

/-- The name as the table stores it. -/
def storedName (name : CString) : CString := name.cut (maxName - 1)

namespace FSFile

/-- The name of a used entry. -/
def key (f : FSFile) : Option CString := if f.used = 0 then none else some f.nameStr

/-- The name field holds a terminator. -/
def Terminated (f : FSFile) : Prop := ∃ k, f.name k = 0

theorem key_of_used (h : f.used ≠ 0) : f.key = some f.nameStr := if_neg h

theorem key_of_free (h : f.used = 0) : f.key = none := if_pos h

theorem key_eq_some : f.key = some name ↔ f.used ≠ 0 ∧ f.nameStr = name := by
  unfold key
  split
  · next h => simp [h]
  · next h => simp [h]

theorem named_iff : f.named name = true ↔ f.key = some name := by
  rw [key_eq_some]
  simp [named]

theorem isFile_iff : f.isFile name = true ↔ f.key = some name ∧ f.isDir = false := by
  rw [key_eq_some]
  simp only [isFile, Bool.and_eq_true, bne_iff_ne, beq_iff_eq, Bool.not_eq_true']
  constructor
  · rintro ⟨⟨hused, hdir⟩, hname⟩
    exact ⟨⟨hused, hname⟩, hdir⟩
  · rintro ⟨⟨hused, hname⟩, hdir⟩
    exact ⟨⟨hused, hdir⟩, hname⟩

theorem nameMem_name (f : FSFile) (k : Fin maxName) : f.nameMem (0 + k.val) = f.name k := by
  simp [nameMem]

theorem nameStr_eq (h : f.Terminated) : f.nameStr = CString.ofArray f.name :=
  CString.read_eq_ofArray h (by decide) f.nameMem_name

/-- A name with a terminator does not depend on the other fields. -/
theorem nameStr_congr (h : f.Terminated) (hname : g.name = f.name) : g.nameStr = f.nameStr := by
  have hg : g.Terminated := by
    obtain ⟨k, hk⟩ := h
    exact ⟨k, hname ▸ hk⟩
  rw [nameStr_eq h, nameStr_eq hg, hname]

theorem length_nameStr (h : f.Terminated) : f.nameStr.length ≤ maxName - 1 := by
  rw [nameStr_eq h]
  exact CString.length_ofArray h

theorem terminated_setName (f : FSFile) (name : CString) : (f.setName name).Terminated :=
  name.terminated_copyTo f.name (by decide)

theorem nameStr_setName (f : FSFile) (name : CString) :
    (f.setName name).nameStr = storedName name := by
  rw [nameStr_eq (terminated_setName f name)]
  exact name.ofArray_copyTo f.name (by decide)

theorem key_congr (h : f.used ≠ 0 → f.Terminated) (hu : g.used = f.used) (hname : g.name = f.name) :
    g.key = f.key := by
  by_cases hf : f.used = 0
  · rw [key_of_free hf, key_of_free (hu.trans hf)]
  · rw [key_of_used hf, key_of_used (fun hg => hf (hu.symm.trans hg)),
      nameStr_congr (h hf) hname]

end FSFile

/-- A stored name is stored as it is. -/
theorem storedName_of_le (h : name.length ≤ maxName - 1) : storedName name = name :=
  CString.cut_of_le h

theorem length_storedName (name : CString) : (storedName name).length ≤ maxName - 1 := by
  rw [storedName, CString.length_cut]
  exact Nat.min_le_left _ _

/-- An entry with the name field of one that was given a name. -/
theorem terminated_of_filled (hname : g.name = (f.setName name).name) : g.Terminated := by
  obtain ⟨k, hk⟩ := FSFile.terminated_setName f name
  exact ⟨k, hname ▸ hk⟩

/-- The key of an entry that has been given a name. -/
theorem key_of_filled (hu : g.used ≠ 0) (hname : g.name = (f.setName name).name) :
    g.key = some (storedName name) := by
  rw [FSFile.key_of_used hu, FSFile.nameStr_congr (FSFile.terminated_setName _ _) hname,
    FSFile.nameStr_setName]

/-! ## What the searches say -/

theorem firstSlot_none {p : FSFile → Bool} (h : firstSlot files p = none) (i : Slot) :
    p (files i) = false := by
  have := List.find?_eq_none.mp h i (List.mem_finRange i)
  simpa using this

/-! ## The names a call stores -/

/-- The new entry of a slot: the old name, or an entry out of use. -/
def KeepsName (f g : FSFile) : Prop := g.used = 0 ∨ g.used = f.used ∧ g.name = f.name

/-- The new entry of a slot takes a name, after a search in which `found` are the
slots that would have been taken for it. -/
def TakesName (found : Slot → Prop) (name : CString) (f : FSFile) (i : Slot) (g : FSFile) : Prop :=
  g.used ≠ 0 ∧ g.name = (f.setName name).name ∧ ∀ j, found j → j = i

/-- What a call does to the names: slots keep theirs, and one may take a new one. -/
abbrev NameEdit (s : Mfs3) (found : Slot → Prop) (name : CString) : Mfs3 → Prop :=
  Edit s (fun i g => KeepsName (s.files i) g)
    (fun i g _ => KeepsName (s.files i) g ∨ TakesName found name (s.files i) i g)

theorem fsWrite_names (s : Mfs3) (name text : CString) (tick : UInt32) (m : Malloc) :
    NameEdit s (fun j => (s.files j).isFile name = true) name (fsWrite s name text tick m).1 := by
  unfold fsWrite
  split
  · exact .same
  · split
    · dsimp only
      split
      · exact .same
      · exact .saved _ _ _ (Or.inl (Or.inr ⟨rfl, rfl⟩))
    · rename_i hnone
      split
      · rename_i i hi
        have hfree := free_of_firstSlot hi
        dsimp only
        split
        · exact .held i _ (Or.inl hfree)
        · apply Edit.saved
          refine Or.inr ⟨by simp, rfl, ?_⟩
          intro j hj
          rw [firstSlot_none hnone j] at hj
          cases hj
      · exact .same

theorem fsWriteBinInternal_names (s : Mfs3) (name : CString) (bytes : List UInt8)
    (tmpfs : UInt8) (tick : UInt32) (m : Malloc) :
    NameEdit s (fun j => (s.files j).isFile name = true) name
      (fsWriteBinInternal s name bytes tmpfs tick m).1 := by
  unfold fsWriteBinInternal
  split
  · exact .same
  · split
    · rename_i i hi
      dsimp only
      split
      · exact .held i _ (Or.inr ⟨rfl, rfl⟩)
      · exact .saved _ _ _ (Or.inl (Or.inr ⟨rfl, rfl⟩))
    · rename_i hnone
      split
      · rename_i i hi
        have hfree := free_of_firstSlot hi
        dsimp only
        split
        · exact .held i _ (Or.inl hfree)
        · apply Edit.saved
          refine Or.inr ⟨by simp, rfl, ?_⟩
          intro j hj
          rw [firstSlot_none hnone j] at hj
          cases hj
      · exact .same

theorem fsMkdir_names (s : Mfs3) (name : CString) (tick : UInt32) :
    NameEdit s (fun j => (s.files j).named name = true) name (fsMkdir s name tick).1 := by
  unfold fsMkdir
  split
  · exact .same
  · rename_i hnone
    split
    · apply Edit.saved (o := s.overflow)
      refine Or.inr ⟨by simp, rfl, ?_⟩
      intro j hj
      rw [firstSlot_none hnone j] at hj
      cases hj
    · exact .same

theorem fsDelete_names (s : Mfs3) (name : CString) (found : Slot → Prop) :
    NameEdit s found name (fsDelete s name).1 := by
  unfold fsDelete
  split
  · exact .saved _ _ s.overflow (Or.inl (Or.inl rfl))
  · exact .same

theorem fsSetPerms_names (s : Mfs3) (name : CString) (perms : UInt16) (found : Slot → Prop) :
    NameEdit s found name (fsSetPerms s name perms).1 := by
  unfold fsSetPerms
  split
  · exact .saved _ _ s.overflow (Or.inl (Or.inr ⟨rfl, rfl⟩))
  · exact .same

theorem fsRename_names (s : Mfs3) (oldName newName : CString) (tick : UInt32) :
    NameEdit s (fun j => (s.files j).named newName = true ∨
      firstSlot s.files (·.named oldName) = some j) newName (fsRename s oldName newName tick).1 := by
  unfold fsRename
  split
  · exact .same
  · rename_i hnone
    split
    · rename_i i hi
      have hused : (s.files i).used ≠ 0 := (FSFile.key_eq_some.mp
        (FSFile.named_iff.mp (firstSlot_some hi))).1
      apply Edit.saved (o := s.overflow)
      refine Or.inr ⟨hused, rfl, ?_⟩
      rintro j (hj | hj)
      · rw [firstSlot_none hnone j] at hj
        cases hj
      · exact Option.some.inj (hj.symm.trans hi)
    · exact .same

/-! ## Distinct names -/

/-- No two used slots hold the same name. -/
def NamesUnique (s : Mfs3) : Prop :=
  ∀ i j, (s.files i).used ≠ 0 → (s.files j).used ≠ 0 →
    (s.files i).nameStr = (s.files j).nameStr → i = j

/-- The names of used entries are terminated and distinct. -/
structure NamesInv (files : Slot → FSFile) : Prop where
  terminated : ∀ i, (files i).used ≠ 0 → (files i).Terminated
  distinct : DistinctKeys fun i => (files i).key

theorem NamesInv.unique (h : NamesInv s.files) : NamesUnique s := by
  intro i j hi hj heq
  exact h.distinct (FSFile.key_of_used hi) ((FSFile.key_of_used hj).trans (congrArg some heq.symm))

/-- Every slot but one keeps its name. -/
theorem NamesInv.change {files' : Slot → FSFile} (h : NamesInv files)
    (hother : ∀ j, j ≠ i → (files' j).used = (files j).used ∧ (files' j).name = (files j).name)
    (hterm : (files' i).used ≠ 0 → (files' i).Terminated)
    (hself : ∀ name, (files' i).key = some name → ∀ j, j ≠ i → (files j).key ≠ some name) :
    NamesInv files' := by
  constructor
  case terminated =>
    intro j hj
    by_cases hji : j = i
    · subst hji
      exact hterm hj
    · obtain ⟨hu, hn⟩ := hother j hji
      obtain ⟨k, hk⟩ := h.terminated j (hu ▸ hj)
      exact ⟨k, hn ▸ hk⟩
  case distinct =>
    apply h.distinct.change _ hself
    intro j hji
    exact FSFile.key_congr (h.terminated j) (hother j hji).1 (hother j hji).2

/-- The entry that has the stored form of the name is one the call looks for. -/
def StoresApart (s : Mfs3) (found : Slot → Prop) (name : CString) : Prop :=
  ∀ j, (s.files j).key = some (storedName name) → found j

theorem NamesInv.put {found : Slot → Prop} {o : Bool} (h : NamesInv s.files)
    (hfound : StoresApart s found name)
    (hg : KeepsName (s.files i) g ∨ TakesName found name (s.files i) i g) :
    NamesInv (Fs.put { s with overflow := o } i g).files := by
  have hself : (Fs.put { s with overflow := o } i g).files i = g := by simp [Fs.put]
  apply h.change (i := i)
  · intro j hj
    simp [Fs.put, hj]
  · rw [hself]
    intro hu
    rcases hg with (hfree | ⟨hsame, hname⟩) | ⟨-, hname, -⟩
    · exact absurd hfree hu
    · obtain ⟨k, hk⟩ := h.terminated i (hsame ▸ hu)
      exact ⟨k, hname ▸ hk⟩
    · obtain ⟨k, hk⟩ := FSFile.terminated_setName (s.files i) name
      exact ⟨k, hname ▸ hk⟩
  · rw [hself]
    intro name' hkey j hj hother
    obtain ⟨hu, hn⟩ := FSFile.key_eq_some.mp hkey
    rcases hg with (hfree | ⟨hsame, hname⟩) | ⟨-, hname, hlast⟩
    · exact hu hfree
    · have hold : (s.files i).key = some name' :=
        (FSFile.key_congr (h.terminated i) hsame hname).symm.trans hkey
      exact hj (h.distinct hother hold)
    · have hstored : g.nameStr = storedName name :=
        (FSFile.nameStr_congr (FSFile.terminated_setName _ _) hname).trans
          (FSFile.nameStr_setName _ _)
      rw [← hn, hstored] at hother
      exact hj (hlast j (hfound j hother))

/-- The names and the used flags are all that matters. -/
theorem NamesInv.same {files' : Slot → FSFile} (h : NamesInv files)
    (hsame : ∀ j, (files' j).used = (files j).used ∧ (files' j).name = (files j).name) :
    NamesInv files' := by
  have hkey : (fun j => (files' j).key) = fun j => (files j).key := by
    ext1 j
    exact FSFile.key_congr (h.terminated j) (hsame j).1 (hsame j).2
  constructor
  · intro j hu
    obtain ⟨k, hk⟩ := h.terminated j ((hsame j).1 ▸ hu)
    exact ⟨k, (hsame j).2 ▸ hk⟩
  · rw [hkey]
    exact h.distinct

theorem diskSave_names (s : Mfs3) (i j : Slot) : ((diskSave s i).files j).used = (s.files j).used ∧
    ((diskSave s i).files j).name = (s.files j).name := by
  obtain ⟨d, hd⟩ := diskSave_files s i j
  rw [hd]
  exact ⟨rfl, rfl⟩

theorem namesInv_diskSave : NamesInv (diskSave s i).files ↔ NamesInv s.files :=
  ⟨fun h => h.same fun j => ⟨(diskSave_names s i j).1.symm, (diskSave_names s i j).2.symm⟩,
    fun h => h.same (diskSave_names s i)⟩

theorem Edit.names {t : Mfs3} {found : Slot → Prop} (e : NameEdit s found name t)
    (h : NamesInv s.files) (hfound : StoresApart s found name) : NamesInv t.files := by
  cases e with
  | same => exact h
  | held i g hg => exact h.put (o := s.overflow) hfound (Or.inl hg)
  | saved i g o hg => exact namesInv_diskSave.mpr (h.put hfound hg)

/-! ## Runs -/

/-- A call of `fs.c` on its table. -/
def tableCall : Op → Prop
  | .write .. | .writeBin .. | .writeTmp .. | .delete .. | .mkdir .. | .rename ..
  | .setPerms .. => True
  | _ => False

/-- The test of the call finds the entry that has the stored name. A write tests
only files, and every test compares the name in full. -/
def findsStored (s : Mfs3) : Op → Prop
  | .write name .. | .writeBin name .. | .writeTmp name .. =>
      StoresApart s (fun j => (s.files j).isFile name = true) name
  | .mkdir name _ => StoresApart s (fun j => (s.files j).named name = true) name
  | .rename oldName newName _ =>
      StoresApart s (fun j => (s.files j).named newName = true ∨
        firstSlot s.files (·.named oldName) = some j) newName
  | _ => True

def namesGuard (s : FileSys) (op : Op) : Prop := tableCall op ∧ findsStored s.fs op

theorem opStep_names {s : FileSys} {op : Op} (h : NamesInv s.fs.files) (hg : namesGuard s op) :
    NamesInv (opStep s op).fs.files := by
  obtain ⟨hcall, hfound⟩ := hg
  cases op with
  | write name text tick m => exact (fsWrite_names s.fs name text tick m).names h hfound
  | writeBin name bytes tick m =>
      exact (fsWriteBinInternal_names s.fs name bytes 0 tick m).names h hfound
  | writeTmp name bytes tick m =>
      exact (fsWriteBinInternal_names s.fs name bytes 1 tick m).names h hfound
  | delete name => exact (fsDelete_names s.fs name fun _ => True).names h fun _ _ => trivial
  | mkdir name tick => exact (fsMkdir_names s.fs name tick).names h hfound
  | rename oldName newName tick =>
      exact (fsRename_names s.fs oldName newName tick).names h hfound
  | setPerms name perms =>
      exact (fsSetPerms_names s.fs name perms fun _ => True).names h fun _ _ => trivial
  | _ => exact hcall.elim

/-- A table without files, on any disk. -/
def NoFiles (s : FileSys) : Prop := ∀ i, (s.fs.files i).used = 0

theorem noFiles_names {s : FileSys} (h : NoFiles s) : NamesInv s.fs.files :=
  ⟨fun i hu => absurd (h i) hu, DistinctKeys.of_empty fun i => FSFile.key_of_free (h i)⟩

/-- In every run of calls whose tests find the stored name, the names of the table
are distinct in every state reached. -/
theorem names_unique {s : FileSys} (r : Reach NoFiles namesGuard opStep s) : NamesUnique s.fs :=
  (r.invariant (P := fun s => NamesInv s.fs.files) (fun _ h => noFiles_names h)
    fun _ _ h hg => opStep_names h hg).unique

theorem formatted_noFiles : NoFiles formatted := fun _ => rfl

/-- The table with one directory. -/
def oneDirectory (name : CString) : FileSys := opStep formatted (.mkdir name 0)

theorem oneDirectory_reach {guard : FileSys → Op → Prop} (h : guard formatted (.mkdir name 0)) :
    Reach NoFiles guard opStep (oneDirectory name) :=
  Reach.next _ (Reach.start formatted_noFiles) h

/-- Make a file of one byte. -/
def makeFile : Op := .writeBin nameA [1] 0 (some 3)

theorem names_unique_two_names :
    NamesUnique (opStep (oneDirectory ⟨[100], by decide⟩) makeFile).fs := by
  have hfree : ∀ name j, (formatted.fs.files j).key ≠ some name := by
    intro name j
    rw [FSFile.key_of_free (formatted_noFiles j)]
    simp
  have hkeys : ∀ j, ((oneDirectory ⟨[100], by decide⟩).fs.files j).key ≠
      some (storedName nameA) := by
    decide +kernel
  apply names_unique
  apply Reach.next
  · exact oneDirectory_reach ⟨trivial, fun j hj => absurd hj (hfree _ j)⟩
  · exact ⟨trivial, fun j hj => absurd hj (hkeys j)⟩

/-- A file of the name of a directory. -/
def sameName : FileSys := opStep (oneDirectory nameA) makeFile

/-- A write does not find the directory that has its name already. -/
theorem file_takes_name_of_directory :
    ¬ ∀ s, Reach NoFiles (fun _ op => tableCall op) opStep s → NamesUnique s.fs := by
  intro h
  have r : Reach NoFiles (fun _ op => tableCall op) opStep sameName :=
    Reach.next makeFile (oneDirectory_reach trivial) trivial
  have hused : (sameName.fs.files 0).used ≠ 0 ∧ (sameName.fs.files 1).used ≠ 0 ∧
      (sameName.fs.files 0).nameStr = (sameName.fs.files 1).nameStr := by
    decide +kernel
  exact absurd (h _ r 0 1 hused.1 hused.2.1 hused.2.2) (by decide)

end OriaOS.Fs
