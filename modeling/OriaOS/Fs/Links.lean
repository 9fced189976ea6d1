import OriaOS.Fs.Reboot

/-!
# Inodes and the files behind them

The inode table against the file table. The number of a file inode stands for the
file its links share, and the target of the inode is how the file is found. The two
agree as long as no second number is given to a file that links still name, and as
long as a path fits the name field of the file table.
-/

namespace OriaOS.Fs

open OriaOS.Lib

variable {dir : Bool} {name newPath path target : CString} {f g : FSFile} {nd : MFS4Inode}
  {t : Mfs3} {s s' : Mfs4} {files : Slot → FSFile} {id tick tick' : UInt32} {type : UInt8}

/-- `i` ranges over the inode table. -/
abbrev Node := Fin maxInodes

/-- A path as the inode table stores it. -/
def storedPath (path : CString) : CString := path.cut (pathLen - 1)

theorem storedPath_of_le (h : path.length ≤ pathLen - 1) : storedPath path = path :=
  CString.cut_of_le h

namespace MFS4Inode

def pathName (nd : MFS4Inode) : CString := CString.ofArray nd.path
def targetName (nd : MFS4Inode) : CString := CString.ofArray nd.target

/-- The path of a used inode. -/
def key (nd : MFS4Inode) : Option CString := if nd.used = 0 then none else some nd.pathName

/-- A used inode of a file. -/
def IsFile (nd : MFS4Inode) : Prop := nd.used ≠ 0 ∧ nd.type = typeFile

instance (nd : MFS4Inode) : Decidable nd.IsFile := inferInstanceAs (Decidable (_ ∧ _))

/-- Both path fields hold a terminator. -/
def Terminated (nd : MFS4Inode) : Prop := (∃ k, nd.path k = 0) ∧ ∃ k, nd.target k = 0

theorem key_of_used (h : nd.used ≠ 0) : nd.key = some nd.pathName := if_neg h

theorem key_of_free (h : nd.used = 0) : nd.key = none := if_pos h

theorem key_eq_some : nd.key = some path ↔ nd.used ≠ 0 ∧ nd.pathName = path := by
  unfold key
  split
  · next h => simp [h]
  · next h => simp [h]

end MFS4Inode

/-! ## Reading the table -/

theorem rawTable_path (inodes : Node → MFS4Inode) (i : Node) (k : Fin pathLen) :
    rawTable inodes (i.val * inodeSize + 8 + k.val) = (inodes i).path k := by
  have hk : k.val < 64 := k.isLt
  rw [Nat.add_assoc, rawTable_inode inodes i (show 8 + k.val < 144 by omega),
    MFS4Inode.byte, dif_pos (by omega)]
  simp

theorem rawTable_target (inodes : Node → MFS4Inode) (i : Node) (k : Fin pathLen) :
    rawTable inodes (i.val * inodeSize + 72 + k.val) = (inodes i).target k := by
  have hk : k.val < 64 := k.isLt
  rw [Nat.add_assoc, rawTable_inode inodes i (show 72 + k.val < 144 by omega),
    MFS4Inode.byte, dif_neg (by omega), dif_pos (by omega)]
  simp

theorem pathStr_eq {i : Node} (h : (s.inodes i).Terminated) : pathStr s i = (s.inodes i).pathName :=
  CString.read_eq_ofArray h.1 (by decide) (rawTable_path s.inodes i)

theorem targetStr_eq {i : Node} (h : (s.inodes i).Terminated) :
    targetStr s i = (s.inodes i).targetName :=
  CString.read_eq_ofArray h.2 (by decide) (rawTable_target s.inodes i)

theorem length_targetName (h : nd.Terminated) : nd.targetName.length ≤ pathLen - 1 :=
  CString.length_ofArray h.2

/-- Every used inode has terminated paths. -/
def AllTerminated (s : Mfs4) : Prop := ∀ i, (s.inodes i).used ≠ 0 → (s.inodes i).Terminated

theorem findInode_some {i : Node} (h : AllTerminated s) (hi : findInode s path = some i) :
    (s.inodes i).key = some path := by
  have hp := List.find?_some hi
  simp only [Bool.and_eq_true, bne_iff_ne, beq_iff_eq] at hp
  rw [MFS4Inode.key_of_used hp.1, ← pathStr_eq (h i hp.1), hp.2]

theorem findInode_none (h : AllTerminated s) (hn : findInode s path = none) (i : Node) :
    (s.inodes i).key ≠ some path := by
  intro hi
  obtain ⟨hu, hpath⟩ := MFS4Inode.key_eq_some.mp hi
  have hp := List.find?_eq_none.mp hn i (List.mem_finRange i)
  rw [pathStr_eq (h i hu), hpath] at hp
  simp [hu] at hp

theorem allocInode_free {i : Node} (h : allocInode s = some i) : (s.inodes i).used = 0 := by
  simpa using List.find?_some h

/-! ## What the tables promise -/

/-- A file of the file table has this name. -/
def FileNamed (s : Mfs3) (name : CString) : Prop :=
  ∃ k, (s.files k).isFile name = true

instance (s : Mfs3) (name : CString) : Decidable (FileNamed s name) :=
  inferInstanceAs (Decidable (∃ _, _))

/-- The invariant of the inode table. -/
structure InodesOk (s : FileSys) : Prop where
  paths : ∀ i j, (s.mfs.inodes i).used ≠ 0 → (s.mfs.inodes j).used ≠ 0 →
    pathStr s.mfs i = pathStr s.mfs j → i = j
  targets : ∀ i j, (s.mfs.inodes i).IsFile → (s.mfs.inodes j).IsFile →
    (s.mfs.inodes i).inodeId = (s.mfs.inodes j).inodeId → targetStr s.mfs i = targetStr s.mfs j
  exist : ∀ i, (s.mfs.inodes i).IsFile → FileNamed s.fs (targetStr s.mfs i)

/-- The inode table by itself: distinct paths, and the number of a file inode and its
target determine each other. -/
structure NodesInv (s : Mfs4) : Prop where
  terminated : AllTerminated s
  paths : DistinctKeys fun i => (s.inodes i).key
  agree : ∀ i j, (s.inodes i).IsFile → (s.inodes j).IsFile →
    ((s.inodes i).inodeId = (s.inodes j).inodeId ↔
      (s.inodes i).targetName = (s.inodes j).targetName)

/-- The file table: names are terminated, and no directory has the name of a file. -/
structure KindsInv (files : Slot → FSFile) : Prop where
  terminated : ∀ i, (files i).used ≠ 0 → (files i).Terminated
  kinds : ∀ {i j name}, (files i).key = some name → (files j).key = some name →
    (files i).isDir = (files j).isDir

theorem NamesInv.kinds (h : NamesInv files) : KindsInv files where
  terminated := h.terminated
  kinds hi hj := congrArg (fun k => (files k).isDir) (h.distinct hi hj)

/-- The run invariant. -/
structure LinkInv (s : FileSys) : Prop where
  kinds : KindsInv s.fs.files
  nodes : NodesInv s.mfs
  exist : ∀ i, (s.mfs.inodes i).IsFile → FileNamed s.fs (s.mfs.inodes i).targetName

theorem LinkInv.ok {s : FileSys} (h : LinkInv s) : InodesOk s where
  paths := by
    intro i j hi hj heq
    rw [pathStr_eq (h.nodes.terminated i hi), pathStr_eq (h.nodes.terminated j hj)] at heq
    exact h.nodes.paths (MFS4Inode.key_of_used hi)
      ((MFS4Inode.key_of_used hj).trans (congrArg some heq.symm))
  targets := by
    intro i j hi hj heq
    rw [targetStr_eq (h.nodes.terminated i hi.1), targetStr_eq (h.nodes.terminated j hj.1)]
    exact (h.nodes.agree i j hi hj).mp heq
  exist := by
    intro i hi
    rw [targetStr_eq (h.nodes.terminated i hi.1)]
    exact h.exist i hi

/-! ## Changing one inode -/

/-- One inode changes: it takes a path no other has, and if it is a file, its number and
its target agree with those of the others. -/
theorem NodesInv.change {i : Node} (h : NodesInv s)
    (hother : ∀ j, j ≠ i → s'.inodes j = s.inodes j)
    (hterm : (s'.inodes i).used ≠ 0 → (s'.inodes i).Terminated)
    (hpath : ∀ path, (s'.inodes i).key = some path → ∀ j, j ≠ i → (s.inodes j).key ≠ some path)
    (hagree : (s'.inodes i).IsFile → ∀ j, j ≠ i → (s.inodes j).IsFile →
      ((s'.inodes i).inodeId = (s.inodes j).inodeId ↔
        (s'.inodes i).targetName = (s.inodes j).targetName)) :
    NodesInv s' := by
  constructor
  case terminated =>
    intro j hj
    by_cases hji : j = i
    · subst hji
      exact hterm hj
    · rw [hother j hji] at hj ⊢
      exact h.terminated j hj
  case paths =>
    refine h.paths.change ?_ hpath
    intro j hji
    rw [hother j hji]
  case agree =>
    intro a b ha hb
    by_cases hai : a = i
    · subst hai
      by_cases hbi : b = a
      · subst hbi
        exact ⟨fun _ => rfl, fun _ => rfl⟩
      · rw [hother b hbi] at hb ⊢
        exact hagree ha b hbi hb
    · rw [hother a hai] at ha ⊢
      by_cases hbi : b = i
      · subst hbi
        rw [eq_comm (a := (s.inodes a).inodeId), eq_comm (a := (s.inodes a).targetName)]
        exact hagree hb a hai ha
      · rw [hother b hbi] at hb ⊢
        exact h.agree a b ha hb

/-- A free inode `i` has been filled. -/
structure Filled (s s' : Mfs4) (i : Node) (type : UInt8) (id : UInt32)
    (path target : CString) : Prop where
  free : (s.inodes i).used = 0
  other : ∀ j, j ≠ i → s'.inodes j = s.inodes j
  used : (s'.inodes i).used ≠ 0
  type : (s'.inodes i).type = type
  id : (s'.inodes i).inodeId = id
  path : (s'.inodes i).pathName = storedPath path
  target : (s'.inodes i).targetName = storedPath target
  terminated : (s'.inodes i).Terminated

theorem putInode_filled {i : Node} (hfree : (s.inodes i).used = 0) (type : UInt8) (id : UInt32)
    (path target : CString) (ctime mtime : UInt32) :
    Filled s (putInode s i type id path target ctime mtime) i type id path target := by
  have hself : ((putInode s i type id path target ctime mtime).inodes i) =
      { s.inodes i with
        used := 1, type := type, inodeId := id
        path := path.copyTo (s.inodes i).path, target := target.copyTo (s.inodes i).target
        ctime := ctime, mtime := mtime } := by
    simp [putInode]
  constructor
  case free => exact hfree
  case other =>
    intro j hj
    simp [putInode, hj]
  case path =>
    rw [hself]
    exact path.ofArray_copyTo _ (by decide)
  case target =>
    rw [hself]
    exact target.ofArray_copyTo _ (by decide)
  case terminated =>
    rw [hself]
    exact ⟨path.terminated_copyTo _ (by decide), target.terminated_copyTo _ (by decide)⟩
  all_goals simp [hself]

theorem newInode_filled {ctime mtime : UInt32}
    (h : newInode s type path target ctime mtime = some s') :
    ∃ i, Filled s s' i type s.nextInodeId path target := by
  obtain ⟨i, hi, rfl⟩ := Option.map_eq_some_iff.mp h
  have hf := putInode_filled (s := { s with nextInodeId := s.nextInodeId + 1 })
    (allocInode_free hi) type s.nextInodeId path target ctime mtime
  exact ⟨i, hf.free, hf.other, hf.used, hf.type, hf.id, hf.path, hf.target, hf.terminated⟩

/-- The inode that has the stored path already has a path that is found again. -/
def PathApart (s : Mfs4) (path : CString) : Prop :=
  (∃ i, (s.inodes i).key = some (storedPath path)) → path.length ≤ pathLen - 1

/-- A path that is not found is not stored. -/
theorem free_path (h : AllTerminated s) (hn : findInode s path = none) (hap : PathApart s path)
    (j : Node) : (s.inodes j).key ≠ some (storedPath path) := by
  intro hj
  rw [storedPath_of_le (hap ⟨j, hj⟩)] at hj
  exact findInode_none h hn j hj

theorem Filled.nodes {i : Node} (f : Filled s s' i type id path target) (h : NodesInv s)
    (hpath : ∀ j, (s.inodes j).key ≠ some (storedPath path))
    (hagree : type = typeFile → ∀ j, (s.inodes j).IsFile →
      (id = (s.inodes j).inodeId ↔ storedPath target = (s.inodes j).targetName)) :
    NodesInv s' := by
  apply h.change f.other (fun _ => f.terminated)
  · intro p hp j _
    rw [MFS4Inode.key_of_used f.used, f.path, Option.some.injEq] at hp
    exact hp ▸ hpath j
  · intro hfile j _ hj
    rw [f.id, f.target]
    exact hagree (f.type.symm.trans hfile.2) j hj

/-- The new inode is the only one whose file needs a name. -/
theorem Filled.exist {s : FileSys} {i : Node} (f : Filled s.mfs s' i type id path target)
    (h : ∀ j, (s.mfs.inodes j).IsFile → FileNamed s.fs (s.mfs.inodes j).targetName)
    (hnew : type = typeFile → FileNamed s.fs (storedPath target)) :
    ∀ j, (s'.inodes j).IsFile → FileNamed s.fs (s'.inodes j).targetName := by
  intro j hj
  by_cases hji : j = i
  · subst hji
    rw [f.target]
    exact hnew (f.type.symm.trans hj.2)
  · rw [f.other j hji] at hj ⊢
    exact h j hj

/-! ## The file table under a call -/

/-- The same name, kind and used flag. -/
structure SameHeader (f g : FSFile) : Prop where
  used : g.used = f.used
  name : g.name = f.name
  perms : g.perms = f.perms

theorem SameHeader.trans {h : FSFile} (a : SameHeader f g) (b : SameHeader g h) : SameHeader f h :=
  ⟨b.used.trans a.used, b.name.trans a.name, b.perms.trans a.perms⟩

theorem SameHeader.isDir (h : SameHeader f g) : g.isDir = f.isDir := by
  rw [FSFile.isDir, FSFile.isDir, h.perms]

theorem SameHeader.key (h : SameHeader f g) (hf : f.used ≠ 0 → f.Terminated) : g.key = f.key :=
  FSFile.key_congr hf h.used h.name

theorem SameHeader.terminated (h : SameHeader f g) (hf : f.Terminated) : g.Terminated := by
  obtain ⟨k, hk⟩ := hf
  exact ⟨k, h.name ▸ hk⟩

theorem SameHeader.isFile (h : SameHeader f g) (hf : f.used ≠ 0 → f.Terminated) (name : CString) :
    g.isFile name = f.isFile name := by
  rw [Bool.eq_iff_iff, FSFile.isFile_iff, FSFile.isFile_iff, h.key hf, h.isDir]

/-- The entry is what it was, or out of use, or has a new name and kind. -/
inductive TakesKind (name : CString) (dir : Bool) (f g : FSFile) : Prop
  | same (h : SameHeader f g)
  | unused (h : g.used = 0)
  | filled (used : g.used ≠ 0) (name : g.name = (f.setName name).name) (kind : g.isDir = dir)

theorem TakesKind.congr {g' : FSFile} (h : TakesKind name dir f g) (hg : SameHeader g g') :
    TakesKind name dir f g' := by
  cases h with
  | same h => exact .same (h.trans hg)
  | unused h => exact .unused (hg.used.trans h)
  | filled hu hn hk =>
      exact .filled (fun hz => hu (hg.used.symm.trans hz)) (hg.name.trans hn) (hg.isDir.trans hk)

/-- A used entry stays what it is, a free one may be filled. -/
def FillsFree (name : CString) (dir : Bool) (f g : FSFile) : Prop :=
  TakesKind name dir f g ∧ (f.used ≠ 0 → SameHeader f g)

theorem FillsFree.same (h : SameHeader f g) : FillsFree name dir f g :=
  ⟨.same h, fun _ => h⟩

theorem FillsFree.unused (hf : f.used = 0) (hg : g.used = 0) : FillsFree name dir f g :=
  ⟨.unused hg, fun hu => absurd hf hu⟩

theorem FillsFree.filled (hf : f.used = 0) (hg : g.used ≠ 0)
    (hname : g.name = (f.setName name).name) (hdir : g.isDir = dir) : FillsFree name dir f g :=
  ⟨.filled hg hname hdir, fun hu => absurd hf hu⟩

/-- What a call does to an entry, with or without a save. -/
abbrev EntryEdit (s : Mfs3) (R : FSFile → FSFile → Prop) : Mfs3 → Prop :=
  Edit s (fun i g => R (s.files i) g) (fun i g _ => R (s.files i) g)

theorem fsWrite_fills (s : Mfs3) (name text : CString) (tick : UInt32) (m : Malloc) :
    EntryEdit s (FillsFree name false) (fsWrite s name text tick m).1 := by
  have hdir : ((permRead ||| permWrite) &&& permDir != 0) = false := by decide
  unfold fsWrite
  split
  · exact .same
  · split
    · dsimp only
      split
      · exact .same
      · exact .saved _ _ _ (.same ⟨rfl, rfl, rfl⟩)
    · split
      · rename_i i hi
        have hfree := free_of_firstSlot hi
        dsimp only
        split
        · exact .held i _ (.unused hfree hfree)
        · exact .saved i _ _ (.filled hfree (by simp) rfl hdir)
      · exact .same

/-- The entry a write stores: that of the file, or a free one. -/
inductive Placed (s : Mfs3) (name : CString) (i : Slot) (g : FSFile) : Prop
  | found (h : firstSlot s.files (·.isFile name) = some i) (same : SameHeader (s.files i) g)
  | fresh (none : firstSlot s.files (·.isFile name) = none) (free : (s.files i).used = 0)
      (used : g.used ≠ 0) (name : g.name = ((s.files i).setName name).name)
      (kind : g.isDir = false)

theorem Edit.weaken {s : Mfs3} {Held Held' : Slot → FSFile → Prop}
    {Saved Saved' : Slot → FSFile → Bool → Prop} (e : Edit s Held Saved t)
    (hheld : ∀ i g, Held i g → Held' i g) (hsaved : ∀ i g o, Saved i g o → Saved' i g o) :
    Edit s Held' Saved' t := by
  cases e with
  | same => exact .same
  | held i g hg => exact .held i g (hheld i g hg)
  | saved i g o hg => exact .saved i g o (hsaved i g o hg)

theorem Outcome.edit {s : Mfs3} {ok : Int} {Held Saved : Slot → FSFile → Prop} {r : Mfs3 × Int}
    (out : Outcome s ok Held Saved r) : Edit s Held (fun i g _ => Saved i g) r.1 := by
  cases out with
  | same => exact .same
  | held i g _ _ h => exact .held i g h
  | saved i g o h => exact .saved i g o h

theorem fsWrite_placed (s : Mfs3) (name text : CString) (tick : UInt32) (m : Malloc) :
    Outcome s 1 (fun i g => (s.files i).used = 0 ∧ g.used = 0)
      (fun i g => Placed s name i g ∧ ∃ b, TextSlot (s.files i) g text m b)
      (fsWrite s name text tick m) := by
  have hdir : ((permRead ||| permWrite) &&& permDir != 0) = false := by decide
  unfold fsWrite
  split
  · exact .same 0 (by decide)
  · next hlen =>
    have hshort : text.length < maxData := Nat.lt_of_not_le hlen
    split
    · next i hi =>
      dsimp only
      split
      · exact .same 0 (by decide)
      · next b hb =>
        exact .saved i _ _ ⟨.found hi ⟨rfl, rfl, rfl⟩, b, hb, hshort, used_of_isFile hi, rfl, rfl⟩
    · next hnone =>
      split
      · next i hi =>
        have hfree := free_of_firstSlot hi
        dsimp only
        split
        · exact .held i _ 0 (by decide) ⟨hfree, hfree⟩
        · next b hb =>
          exact .saved i _ _
            ⟨.fresh hnone hfree (by simp) rfl hdir, b, hb, hshort, by simp, rfl, rfl⟩
      · exact .same 0 (by decide)

theorem fsWriteBinInternal_placed (s : Mfs3) (name : CString) (bytes : List UInt8)
    (tmpfs : UInt8) (tick : UInt32) (m : Malloc) :
    Outcome s 1
      (fun i g => binBuf bytes m = none ∧
        (firstSlot s.files (·.isFile name) = some i ∧ SameHeader (s.files i) g ∨
          (s.files i).used = 0 ∧ g.used = 0))
      (fun i g => Placed s name i g ∧ ∃ b, BinSlot g bytes m b)
      (fsWriteBinInternal s name bytes tmpfs tick m) := by
  have hdir : ((permRead ||| permWrite ||| permExec) &&& permDir != 0) = false := by decide
  unfold fsWriteBinInternal
  split
  · exact .same 0 (by decide)
  · rename_i hlen
    have hshort : bytes.length ≤ maxBinData := Nat.le_of_not_lt hlen
    split
    · rename_i i hi
      dsimp only
      split
      · rename_i hb
        exact .held _ _ 0 (by decide) ⟨hb, Or.inl ⟨hi, rfl, rfl, rfl⟩⟩
      · rename_i b hb
        exact .saved _ _ _ ⟨.found hi ⟨rfl, rfl, rfl⟩, b, hb, hshort, used_of_isFile hi, rfl, rfl⟩
    · rename_i hnone
      split
      · rename_i i hi
        have hfree := free_of_firstSlot hi
        dsimp only
        split
        · rename_i hb
          exact .held i _ 0 (by decide) ⟨hb, Or.inr ⟨hfree, hfree⟩⟩
        · rename_i b hb
          exact .saved i _ _
            ⟨.fresh hnone hfree (by simp) rfl hdir, b, hb, hshort, by simp, rfl, rfl⟩
      · exact .same 0 (by decide)

theorem fsWriteBinInternal_fills (s : Mfs3) (name : CString) (bytes : List UInt8)
    (tmpfs : UInt8) (tick : UInt32) (m : Malloc) :
    EntryEdit s (FillsFree name false) (fsWriteBinInternal s name bytes tmpfs tick m).1 := by
  apply (fsWriteBinInternal_placed s name bytes tmpfs tick m).edit.weaken
  · rintro i g ⟨-, ⟨-, hsame⟩ | ⟨hfree, hg⟩⟩
    · exact .same hsame
    · exact .unused hfree hg
  · rintro i g - ⟨hplace, -⟩
    cases hplace with
    | found _ hsame => exact .same hsame
    | fresh _ hfree hu hname hkind => exact .filled hfree hu hname hkind

theorem fsMkdir_fills (s : Mfs3) (name : CString) (tick : UInt32) :
    EntryEdit s (FillsFree name true) (fsMkdir s name tick).1 := by
  have hdir : ((permDir ||| permRead ||| permWrite) &&& permDir != 0) = true := by decide
  unfold fsMkdir
  split
  · exact .same
  · split
    · rename_i i hi
      exact .saved i _ s.overflow (.filled (free_of_firstSlot hi) (by simp) rfl hdir)
    · exact .same

theorem diskSave_header_same (s : Mfs3) (i j : Slot) :
    SameHeader (s.files j) ((diskSave s i).files j) := by
  obtain ⟨d, hd⟩ := diskSave_files s i j
  rw [hd]
  exact ⟨rfl, rfl, rfl⟩

theorem put_self (s : Mfs3) (i : Slot) (g : FSFile) : (put s i g).files i = g :=
  Function.update_self ..

theorem put_other {s : Mfs3} {i j : Slot} (h : j ≠ i) (g : FSFile) :
    (put s i g).files j = s.files j :=
  Function.update_of_ne h ..

/-- What an edit leaves in the slots, as far as names and kinds go. -/
theorem Edit.entry {s : Mfs3} {R : FSFile → FSFile → Prop} (e : EntryEdit s R t)
    (hsame : ∀ f g, SameHeader f g → R f g) (hcongr : ∀ f g g', R f g → SameHeader g g' → R f g') :
    ∃ i, (∀ j, j ≠ i → SameHeader (s.files j) (t.files j)) ∧ R (s.files i) (t.files i) := by
  cases e with
  | same => exact ⟨0, fun _ _ => ⟨rfl, rfl, rfl⟩, hsame _ _ ⟨rfl, rfl, rfl⟩⟩
  | held i g hg =>
      refine ⟨i, ?_, by rwa [put_self]⟩
      intro j hj
      rw [put_other hj]
      exact ⟨rfl, rfl, rfl⟩
  | saved i g o hg =>
      refine ⟨i, ?_, ?_⟩
      · intro j hj
        have h := diskSave_header_same (put { s with overflow := o } i g) i j
        rwa [put_other hj] at h
      · have h := diskSave_header_same (put { s with overflow := o } i g) i i
        rw [put_self] at h
        exact hcongr _ _ _ hg h

theorem Edit.terminated {s : Mfs3} (e : EntryEdit s (TakesKind name dir) t)
    (h : ∀ i, (s.files i).used ≠ 0 → (s.files i).Terminated) :
    ∀ i, (t.files i).used ≠ 0 → (t.files i).Terminated := by
  obtain ⟨i, hother, hi⟩ := e.entry (fun _ _ => .same) fun _ _ _ => TakesKind.congr
  intro j hj
  by_cases hji : j = i
  · subst hji
    cases hi with
    | same hs => exact hs.terminated (h j (hs.used ▸ hj))
    | unused hu => exact absurd hu hj
    | filled _ hname _ => exact terminated_of_filled hname
  · have hs := hother j hji
    exact hs.terminated (h j (hs.used ▸ hj))

theorem Edit.kinds {s : Mfs3} (e : EntryEdit s (TakesKind name dir) t) (h : KindsInv s.files)
    (hkind : ∀ j, (s.files j).key = some (storedName name) → (s.files j).isDir = dir) :
    KindsInv t.files := by
  obtain ⟨i, hother, hi⟩ := e.entry (fun _ _ => .same) fun _ _ _ => TakesKind.congr
  -- What an entry is called and what kind it has, seen from the old table.
  have hfrom : ∀ j n, (t.files j).key = some n →
      (∃ k, (s.files k).key = some n ∧ (s.files k).isDir = (t.files j).isDir) ∨
        n = storedName name ∧ (t.files j).isDir = dir := by
    intro j n hn
    by_cases hji : j = i
    · subst hji
      cases hi with
      | same hs => exact Or.inl ⟨j, (hs.key (h.terminated j)).symm.trans hn, hs.isDir.symm⟩
      | unused hu =>
          rw [FSFile.key_of_free hu] at hn
          cases hn
      | filled hu hname hkind =>
          rw [key_of_filled hu hname, Option.some.injEq] at hn
          exact Or.inr ⟨hn.symm, hkind⟩
    · have hs := hother j hji
      exact Or.inl ⟨j, (hs.key (h.terminated j)).symm.trans hn, hs.isDir.symm⟩
  constructor
  case terminated => exact e.terminated h.terminated
  case kinds =>
    intro a b n ha hb
    rcases hfrom a n ha with ⟨k, hk, hka⟩ | ⟨hn, hda⟩
    · rcases hfrom b n hb with ⟨l, hl, hlb⟩ | ⟨hn, hdb⟩
      · rw [← hka, ← hlb]
        exact h.kinds hk hl
      · rw [← hka, hdb]
        exact hkind k (hn ▸ hk)
    · rcases hfrom b n hb with ⟨l, hl, hlb⟩ | ⟨-, hdb⟩
      · rw [hda, ← hlb]
        exact (hkind l (hn ▸ hl)).symm
      · rw [hda, hdb]

/-- Calls that only fill free slots keep every file. -/
theorem Edit.keepsFile {s : Mfs3} (e : EntryEdit s (FillsFree name dir) t) (h : KindsInv s.files)
    {name' : CString} (hf : FileNamed s name') : FileNamed t name' := by
  obtain ⟨k, hk⟩ := hf
  have hu : (s.files k).used ≠ 0 :=
    (FSFile.key_eq_some.mp (FSFile.isFile_iff.mp hk).1).1
  obtain ⟨i, hother, -, hi⟩ := e.entry (fun _ _ => .same)
    fun _ _ _ hg hs => ⟨hg.1.congr hs, fun hf => (hg.2 hf).trans hs⟩
  have hs : SameHeader (s.files k) (t.files k) := by
    by_cases hki : k = i
    · subst hki
      exact hi hu
    · exact hother k hki
  exact ⟨k, (hs.isFile (h.terminated k) name').trans hk⟩

/-- Entries that stay or go out of use. -/
theorem KindsInv.drop {files' : Slot → FSFile} (h : KindsInv files)
    (hd : ∀ j, SameHeader (files j) (files' j) ∨ (files' j).used = 0) : KindsInv files' := by
  have hold : ∀ {j name}, (files' j).key = some name →
      SameHeader (files j) (files' j) ∧ (files j).key = some name := by
    intro j name hj
    have hs := (hd j).resolve_right (FSFile.key_eq_some.mp hj).1
    exact ⟨hs, (hs.key (h.terminated j)).symm.trans hj⟩
  constructor
  case terminated =>
    intro j hj
    have hs := (hd j).resolve_right hj
    exact hs.terminated (h.terminated j (hs.used ▸ hj))
  case kinds =>
    intro a b name ha hb
    obtain ⟨hsa, ha⟩ := hold ha
    obtain ⟨hsb, hb⟩ := hold hb
    rw [hsa.isDir, hsb.isDir]
    exact h.kinds ha hb

theorem fsDelete_kinds {s : Mfs3} (h : KindsInv s.files) (name : CString) :
    KindsInv (fsDelete s name).1.files := by
  unfold fsDelete
  split
  · rename_i i _
    apply h.drop
    intro j
    have hs := diskSave_header_same (put s i { s.files i with used := 0, data := none }) i j
    by_cases hj : j = i
    · subst hj
      rw [put_self] at hs
      exact Or.inr hs.used
    · rw [put_other hj] at hs
      exact Or.inl hs
  · exact h

/-- A deletion keeps the files of every other name. -/
theorem fsDelete_keepsFile {s : Mfs3} (h : KindsInv s.files) {name' : CString}
    (hne : name' ≠ name) (hf : FileNamed s name') : FileNamed (fsDelete s name).1 name' := by
  unfold fsDelete
  split
  · rename_i i hi
    have hkey := FSFile.named_iff.mp (firstSlot_some hi)
    obtain ⟨k, hk⟩ := hf
    have hki : k ≠ i := by
      rintro rfl
      exact hne (Option.some.inj ((FSFile.isFile_iff.mp hk).1.symm.trans hkey))
    have hs := diskSave_header_same (put s i { s.files i with used := 0, data := none }) i k
    rw [put_other hki] at hs
    exact ⟨k, (hs.isFile (h.terminated k) name').trans hk⟩
  · exact hf

theorem fsRename_cases (s : Mfs3) (oldName newName : CString) (tick : UInt32) :
    (fsRename s oldName newName tick).2 ≠ 0 ∧ (fsRename s oldName newName tick).1 = s ∨
    (fsRename s oldName newName tick).2 = 0 ∧ (∀ j, (s.files j).key ≠ some newName) ∧
      ∃ i, (s.files i).key = some oldName ∧ (fsRename s oldName newName tick).1 =
        diskSave (put s i
          { (s.files i).setName newName with dirty := true, mtime := tick }) i := by
  unfold fsRename
  split
  · exact Or.inl ⟨by simp, rfl⟩
  · rename_i hnone
    split
    · rename_i i hi
      refine Or.inr ⟨rfl, ?_, i, FSFile.named_iff.mp (firstSlot_some hi), rfl⟩
      intro j hj
      have hn := firstSlot_none hnone j
      rw [FSFile.named_iff.mpr hj] at hn
      cases hn
    · exact Or.inl ⟨by simp, rfl⟩

/-- The table after a file has been renamed. -/
structure Renamed (s t : Mfs3) (oldName newName : CString) : Prop where
  kinds : KindsInv t.files
  fresh : ∀ j, (s.files j).key ≠ some newName
  moved : FileNamed t newName
  kept : ∀ name, name ≠ oldName → FileNamed s name → FileNamed t name

theorem fsRename_renamed {s : Mfs3} {oldName newName : CString} (h : KindsInv s.files)
    (hlen : newName.length ≤ maxName - 1) (hf : FileNamed s oldName)
    (hok : (fsRename s oldName newName tick).2 = 0) :
    Renamed s (fsRename s oldName newName tick).1 oldName newName := by
  rcases fsRename_cases s oldName newName tick with ⟨hne, -⟩ | ⟨-, hfresh, i, hi, hr⟩
  · exact absurd hok hne
  rw [hr]
  generalize hg : ({ (s.files i).setName newName with dirty := true, mtime := tick } : FSFile) = g
  have hu : g.used ≠ 0 := by
    rw [← hg]
    exact (FSFile.key_eq_some.mp hi).1
  have hname : g.name = ((s.files i).setName newName).name := by rw [← hg]
  have hdir : g.isDir = false := by
    obtain ⟨k, hk⟩ := hf
    have hkd := FSFile.isFile_iff.mp hk
    rw [← hkd.2, h.kinds hkd.1 hi, ← hg]
    rfl
  have hkey : g.key = some newName := by
    rw [key_of_filled hu hname, storedName_of_le hlen]
  have hends : g.Terminated := terminated_of_filled hname
  constructor
  case fresh => exact hfresh
  case kinds =>
    have e : EntryEdit s (TakesKind newName false) (diskSave (put s i g) i) :=
      .saved i g s.overflow (.filled hu hname hdir)
    apply e.kinds h
    intro j hj
    rw [storedName_of_le hlen] at hj
    exact absurd hj (hfresh j)
  case moved =>
    have hs := diskSave_header_same (put s i g) i i
    rw [put_self] at hs
    refine ⟨i, (hs.isFile (fun _ => hends) newName).trans ?_⟩
    exact FSFile.isFile_iff.mpr ⟨hkey, hdir⟩
  case kept =>
    rintro name hne ⟨k, hk⟩
    have hki : k ≠ i := by
      rintro rfl
      exact hne (Option.some.inj ((FSFile.isFile_iff.mp hk).1.symm.trans hi))
    have hs := diskSave_header_same (put s i g) i k
    rw [put_other hki] at hs
    exact ⟨k, (hs.isFile (h.terminated k) name).trans hk⟩

/-! ## Moving and dropping an inode -/

theorem sharesId_iff : sharesId nd id = true ↔ nd.IsFile ∧ nd.inodeId = id := by
  simp only [sharesId, Bool.and_eq_true, bne_iff_ne, beq_iff_eq, MFS4Inode.IsFile]

/-- With at most one reference nothing else has the number. -/
theorem refs_le_one {i j : Node} (h : refs s id ≤ 1) (hi : sharesId (s.inodes i) id = true)
    (hj : sharesId (s.inodes j) id = true) : j = i := by
  by_contra hne
  have hsub : [i, j].Subperm ((List.finRange maxInodes).filter fun k =>
      sharesId (s.inodes k) id) := by
    apply List.subperm_of_subset
    · simp [Ne.symm hne]
    · intro k hk
      rcases List.mem_pair.mp hk with rfl | rfl
      · exact List.mem_filter.mpr ⟨List.mem_finRange _, hi⟩
      · exact List.mem_filter.mpr ⟨List.mem_finRange _, hj⟩
  have hlen := hsub.length_le
  rw [← List.countP_eq_length_filter] at hlen
  exact absurd (hlen.trans h) (by simp)

theorem movePath_other (s : Mfs4) {i j : Node} (h : j ≠ i) (newPath : CString) (tick : UInt32) :
    (movePath s i newPath tick).inodes j = s.inodes j :=
  Function.update_of_ne h ..

theorem movePath_self (s : Mfs4) (i : Node) (newPath : CString) (tick : UInt32) :
    (movePath s i newPath tick).inodes i =
      { s.inodes i with path := newPath.copyTo (s.inodes i).path, mtime := tick } :=
  Function.update_self ..

/-- The path moves, nothing else does. -/
structure Moved (s s' : Mfs4) (i : Node) (newPath : CString) : Prop where
  other : ∀ j, j ≠ i → s'.inodes j = s.inodes j
  used : (s'.inodes i).used = (s.inodes i).used
  type : (s'.inodes i).type = (s.inodes i).type
  id : (s'.inodes i).inodeId = (s.inodes i).inodeId
  path : (s'.inodes i).pathName = storedPath newPath
  target : (s'.inodes i).target = (s.inodes i).target
  pathEnds : ∃ k, (s'.inodes i).path k = 0

theorem movePath_moved (s : Mfs4) (i : Node) (newPath : CString) (tick : UInt32) :
    Moved s (movePath s i newPath tick) i newPath := by
  have hself := movePath_self s i newPath tick
  constructor
  case other => exact fun j hj => movePath_other s hj newPath tick
  case path =>
    rw [hself]
    exact newPath.ofArray_copyTo _ (by decide)
  case pathEnds =>
    rw [hself]
    exact newPath.terminated_copyTo _ (by decide)
  all_goals rw [hself]

theorem Moved.isFile {i : Node} (m : Moved s s' i newPath) (j : Node) :
    (s'.inodes j).IsFile ↔ (s.inodes j).IsFile := by
  by_cases hji : j = i
  · subst hji
    rw [MFS4Inode.IsFile, MFS4Inode.IsFile, m.used, m.type]
  · rw [m.other j hji]

theorem Moved.targetName {i : Node} (m : Moved s s' i newPath) (j : Node) :
    (s'.inodes j).targetName = (s.inodes j).targetName := by
  by_cases hji : j = i
  · subst hji
    rw [MFS4Inode.targetName, m.target]
    rfl
  · rw [m.other j hji]

theorem Moved.nodes {i : Node} (m : Moved s s' i newPath) (h : NodesInv s)
    (hpath : ∀ j, j ≠ i → (s.inodes j).key ≠ some (storedPath newPath)) : NodesInv s' := by
  apply h.change m.other
  · intro hu
    exact ⟨m.pathEnds, m.target ▸ (h.terminated i (m.used ▸ hu)).2⟩
  · intro path hp j hj
    obtain ⟨-, hname⟩ := MFS4Inode.key_eq_some.mp hp
    rw [← hname, m.path]
    exact hpath j hj
  · intro hi j _ hj
    rw [m.id, MFS4Inode.targetName, m.target]
    exact h.agree i j ((m.isFile i).mp hi) hj

theorem retarget_apart {j : Node} (h : ¬ sharesId (s.inodes j) id = true) (newPath : CString) :
    (retarget s id newPath).inodes j = s.inodes j :=
  if_neg h

theorem retarget_link {j : Node} (h : sharesId (s.inodes j) id = true) (newPath : CString) :
    (retarget s id newPath).inodes j =
      { s.inodes j with target := newPath.copyTo (s.inodes j).target } :=
  if_pos h

theorem retarget_isFile (s : Mfs4) (id : UInt32) (newPath : CString) (j : Node) :
    (((retarget s id newPath).inodes j).IsFile ↔ (s.inodes j).IsFile) ∧
      ((retarget s id newPath).inodes j).inodeId = (s.inodes j).inodeId ∧
      ((retarget s id newPath).inodes j).key = (s.inodes j).key := by
  by_cases h : sharesId (s.inodes j) id = true
  · rw [retarget_link h]
    exact ⟨Iff.rfl, rfl, rfl⟩
  · rw [retarget_apart h]
    exact ⟨Iff.rfl, rfl, rfl⟩

theorem retarget_target {j : Node} (hj : (s.inodes j).IsFile) (newPath : CString) :
    ((retarget s id newPath).inodes j).targetName =
      if (s.inodes j).inodeId = id then storedPath newPath else (s.inodes j).targetName := by
  split
  · next hid =>
    rw [retarget_link (sharesId_iff.mpr ⟨hj, hid⟩)]
    exact newPath.ofArray_copyTo _ (by decide)
  · next hid => rw [retarget_apart fun h => hid (sharesId_iff.mp h).2]

/-- All links of a file take a target no other file has. -/
theorem retarget_nodes (h : NodesInv s)
    (hfresh : ∀ j, (s.inodes j).IsFile → (s.inodes j).targetName ≠ storedPath newPath) :
    NodesInv (retarget s id newPath) := by
  constructor
  case terminated =>
    intro j hj
    by_cases hs : sharesId (s.inodes j) id = true
    · have hu : (s.inodes j).used ≠ 0 := (sharesId_iff.mp hs).1.1
      rw [retarget_link hs]
      exact ⟨(h.terminated j hu).1, newPath.terminated_copyTo _ (by decide)⟩
    · rw [retarget_apart hs] at hj ⊢
      exact h.terminated j hj
  case paths =>
    have hkeys : (fun j => ((retarget s id newPath).inodes j).key) = fun j => (s.inodes j).key := by
      ext1 j
      exact (retarget_isFile s id newPath j).2.2
    rw [hkeys]
    exact h.paths
  case agree =>
    intro a b ha hb
    obtain ⟨hfa, hia, -⟩ := retarget_isFile s id newPath a
    obtain ⟨hfb, hib, -⟩ := retarget_isFile s id newPath b
    have hfa := hfa.mp ha
    have hfb := hfb.mp hb
    rw [hia, hib, retarget_target hfa, retarget_target hfb]
    by_cases haid : (s.inodes a).inodeId = id
    · by_cases hbid : (s.inodes b).inodeId = id
      · simp [haid, hbid]
      · rw [if_pos haid, if_neg hbid, haid]
        exact ⟨fun h => absurd h.symm hbid, fun h => absurd h.symm (hfresh b hfb)⟩
    · by_cases hbid : (s.inodes b).inodeId = id
      · rw [if_neg haid, if_pos hbid, hbid]
        exact ⟨fun h => absurd h haid, fun h => absurd h (hfresh a hfa)⟩
      · rw [if_neg haid, if_neg hbid]
        exact h.agree a b hfa hfb

/-! ## The calls -/

/-- The creation of an inode goes through. -/
def MakesInode (s : Mfs4) (path : CString) : Prop :=
  findInode s path = none ∧ allocInode s ≠ none

/-- No file inode has the next number, and none has the path as its target. -/
def NewFile (s : Mfs4) (path : CString) : Prop :=
  ∀ j, (s.inodes j).IsFile →
    s.nextInodeId ≠ (s.inodes j).inodeId ∧ path ≠ (s.inodes j).targetName

/-- The calls of `mfs4.c` on the tables, and the creation of files. A file is
registered once it exists. -/
def linkCall (s : FileSys) : Op → Prop
  | .write .. | .writeBin .. | .writeTmp .. => True
  | .register path type _ => type = typeFile → FileNamed s.fs (storedName path)
  | .symlink .. | .hardlink .. | .mkdirInode .. | .renameInode .. | .unlinkInode .. => True
  | _ => False

/-- What a call must meet in the tables. -/
def linkKeeps (s : FileSys) : Op → Prop
  | .write name .. | .writeBin name .. | .writeTmp name .. =>
      ∀ j, (s.fs.files j).key = some (storedName name) → (s.fs.files j).isDir = false
  | .register path type _ => path.length ≠ 0 → MakesInode s.mfs path → PathApart s.mfs path ∧
      (type = typeFile → path.length ≤ maxName - 1 ∧ NewFile s.mfs path)
  | .symlink link .. | .hardlink link .. => MakesInode s.mfs link → PathApart s.mfs link
  | .mkdirInode path .. => path.length ≠ 0 → findInode s.mfs path = none →
      PathApart s.mfs path ∧ (firstSlot s.fs.files (·.named path) = none →
        ∀ j, (s.fs.files j).key = some (storedName path) → (s.fs.files j).isDir = true)
  | .renameInode oldPath newPath .. => findInode s.mfs newPath = none →
      ∀ i, findInode s.mfs oldPath = some i →
        (∀ j, j ≠ i → (s.mfs.inodes j).key ≠ some (storedPath newPath)) ∧
        ((s.mfs.inodes i).type = typeFile → newPath.length ≤ maxName - 1)
  | _ => True

def linkGuard (s : FileSys) (op : Op) : Prop := linkCall s op ∧ linkKeeps s op

/-- A new inode that is not one of a file. -/
theorem LinkInv.newNode {s : FileSys} {ctime mtime : UInt32} (h : LinkInv s)
    (hnew : newInode s.mfs type path target ctime mtime = some s')
    (hpath : ∀ j, (s.mfs.inodes j).key ≠ some (storedPath path))
    (hfile : type = typeFile → storedPath target = target ∧ NewFile s.mfs target ∧
      FileNamed s.fs target) :
    LinkInv { s with mfs := s' } := by
  obtain ⟨i, f⟩ := newInode_filled hnew
  constructor
  case kinds => exact h.kinds
  case nodes =>
    apply f.nodes h.nodes hpath
    intro ht j hj
    obtain ⟨hstored, hn, -⟩ := hfile ht
    rw [hstored]
    exact ⟨fun hid => absurd hid (hn j hj).1, fun htar => absurd htar (hn j hj).2⟩
  case exist =>
    apply f.exist h.exist
    intro ht
    obtain ⟨hstored, -, hf⟩ := hfile ht
    rwa [hstored]

theorem mfs4Symlink_inv {s : FileSys} {link : CString} (h : LinkInv s)
    (hap : MakesInode s.mfs link → PathApart s.mfs link) :
    LinkInv { s with mfs := (mfs4Symlink s.mfs link target tick).1 } := by
  unfold mfs4Symlink
  split
  · exact h
  · rename_i hnone
    split
    · exact h
    · rename_i s' hs'
      apply h.newNode hs'
      · apply free_path h.nodes.terminated hnone (hap ⟨hnone, ?_⟩)
        intro hfull
        simp [newInode, hfull] at hs'
      · intro ht
        exact absurd ht (by decide)

theorem mfs4Register_inv {s : FileSys} (h : LinkInv s)
    (hg : linkGuard s (.register path type tick)) :
    LinkInv { s with mfs := (mfs4Register s.mfs path type tick).1 } := by
  obtain ⟨hfile, hkeep⟩ := hg
  unfold mfs4Register
  split
  · exact h
  · rename_i hlen
    split
    · exact h
    · rename_i hnone
      split
      · exact h
      · rename_i s' hs'
        have hmakes : MakesInode s.mfs path := by
          refine ⟨hnone, ?_⟩
          intro hfull
          simp [newInode, hfull] at hs'
        obtain ⟨hap, hshort⟩ := hkeep hlen hmakes
        apply h.newNode hs' (free_path h.nodes.terminated hnone hap)
        intro ht
        obtain ⟨hle, hnew⟩ := hshort ht
        refine ⟨storedPath_of_le (hle.trans (by decide)), hnew, ?_⟩
        have hf := hfile ht
        rwa [storedName_of_le hle] at hf

theorem mfs4Hardlink_inv {s : FileSys} {link original : CString} (h : LinkInv s)
    (hap : MakesInode s.mfs link → PathApart s.mfs link) :
    LinkInv { s with mfs := (mfs4Hardlink s.mfs link original tick).1 } := by
  unfold mfs4Hardlink
  split
  · exact h
  · rename_i hnone
    split
    · exact h
    · rename_i o ho
      split
      · exact h
      · rename_i hfile
        split
        · exact h
        · rename_i i hi
          have hused : (s.mfs.inodes o).used ≠ 0 :=
            (MFS4Inode.key_eq_some.mp (findInode_some h.nodes.terminated ho)).1
          have hoFile : (s.mfs.inodes o).IsFile := ⟨hused, not_not.mp hfile⟩
          have hends := h.nodes.terminated o hused
          have hstored : storedPath (targetStr s.mfs o) = (s.mfs.inodes o).targetName := by
            rw [targetStr_eq hends, storedPath_of_le (length_targetName hends)]
          have f := putInode_filled (allocInode_free hi) typeFile (s.mfs.inodes o).inodeId
            link (targetStr s.mfs o) tick tick
          constructor
          case kinds => exact h.kinds
          case nodes =>
            apply f.nodes h.nodes
            · apply free_path h.nodes.terminated hnone (hap ⟨hnone, ?_⟩)
              rw [hi]
              simp
            · intro _ j hj
              rw [hstored]
              exact h.nodes.agree o j hoFile hj
          case exist =>
            apply f.exist h.exist
            intro _
            rw [hstored]
            exact h.exist o hoFile

/-- Calls that only fill free slots keep the invariant. -/
theorem LinkInv.table {s : FileSys} (h : LinkInv s) (e : EntryEdit s.fs (FillsFree name dir) t)
    (hkind : ∀ j, (s.fs.files j).key = some (storedName name) → (s.fs.files j).isDir = dir) :
    LinkInv { s with fs := t } where
  kinds := (e.weaken (fun _ _ hg => hg.1) fun _ _ _ hg => hg.1).kinds h.kinds hkind
  nodes := h.nodes
  exist := fun i hi => e.keepsFile h.kinds (h.exist i hi)

theorem mfs4Mkdir_inv {s : FileSys} (h : LinkInv s)
    (hkeep : linkKeeps s (.mkdirInode path tick tick')) :
    LinkInv (mfs4Mkdir s path tick tick').1 := by
  unfold mfs4Mkdir
  split
  · exact h
  · rename_i hlen
    split
    · exact h
    · rename_i hnone
      obtain ⟨hap, hdirs⟩ := hkeep hlen hnone
      have hs : LinkInv { s with fs := (fsMkdir s.fs path tick).1 } := by
        cases hslot : firstSlot s.fs.files (·.named path) with
        | some j =>
            rw [fsMkdir, hslot]
            exact h
        | none => exact h.table (fsMkdir_fills s.fs path tick) (hdirs hslot)
      dsimp only
      split
      · exact hs
      · rename_i s' hs'
        apply hs.newNode hs' (free_path h.nodes.terminated hnone hap)
        intro ht
        exact absurd ht (by decide)

/-- What an unlink of inode `i` does. -/
structure Unlinked (s s' : FileSys) (i : Node) : Prop where
  fs : s'.fs =
    if (s.mfs.inodes i).type = typeFile ∧ refs s.mfs (s.mfs.inodes i).inodeId ≤ 1 then
      (fsDelete s.fs (targetStr s.mfs i)).1
    else s.fs
  other : ∀ j, j ≠ i → s'.mfs.inodes j = s.mfs.inodes j
  unused : (s'.mfs.inodes i).used = 0

theorem mfs4Unlink_unlinked {s : FileSys} {i : Node} (hi : findInode s.mfs path = some i) :
    Unlinked s (mfs4Unlink s path).1 i := by
  constructor
  case fs => simp only [mfs4Unlink, hi]
  case other =>
    intro j hj
    simp [mfs4Unlink, hi, hj]
  case unused => simp [mfs4Unlink, hi]

theorem mfs4Unlink_missing {s : FileSys} (hn : findInode s.mfs path = none) :
    (mfs4Unlink s path).1 = s := by
  simp only [mfs4Unlink, hn]

/-- The last link of a file is the only inode with its target. -/
theorem NodesInv.last {i j : Node} (h : NodesInv s) (hi : (s.inodes i).IsFile)
    (hlast : refs s (s.inodes i).inodeId ≤ 1) (hj : (s.inodes j).IsFile)
    (htarget : (s.inodes j).targetName = (s.inodes i).targetName) : j = i :=
  refs_le_one hlast (sharesId_iff.mpr ⟨hi, rfl⟩)
    (sharesId_iff.mpr ⟨hj, (h.agree j i hj hi).mpr htarget⟩)

theorem Unlinked.inv {s s' : FileSys} {i : Node} (u : Unlinked s s' i) (h : LinkInv s)
    (hused : (s.mfs.inodes i).used ≠ 0) : LinkInv s' := by
  constructor
  case kinds =>
    rw [u.fs]
    split
    · exact fsDelete_kinds h.kinds _
    · exact h.kinds
  case nodes =>
    apply h.nodes.change u.other
    · exact fun hu => absurd u.unused hu
    · intro p hp
      rw [MFS4Inode.key_of_free u.unused] at hp
      cases hp
    · exact fun hf => absurd u.unused hf.1
  case exist =>
    intro j hj
    have hji : j ≠ i := by
      rintro rfl
      exact hj.1 u.unused
    rw [u.other j hji] at hj ⊢
    rw [u.fs]
    split
    · rename_i hlast
      apply fsDelete_keepsFile h.kinds _ (h.exist j hj)
      rw [targetStr_eq (h.nodes.terminated i hused)]
      exact fun htar => hji (h.nodes.last ⟨hused, hlast.1⟩ hlast.2 hj htar)
    · exact h.exist j hj

theorem used_of_find {i : Node} (h : AllTerminated s) (hi : findInode s path = some i) :
    (s.inodes i).used ≠ 0 :=
  (MFS4Inode.key_eq_some.mp (findInode_some h hi)).1

theorem mfs4Unlink_inv {s : FileSys} (h : LinkInv s) : LinkInv (mfs4Unlink s path).1 := by
  cases hi : findInode s.mfs path with
  | none =>
      rw [mfs4Unlink_missing hi]
      exact h
  | some i => exact (mfs4Unlink_unlinked hi).inv h (used_of_find h.nodes.terminated hi)

/-- A rename of a file: all its links take the new name. -/
theorem rename_file_inv {s : FileSys} {i : Node} (h : LinkInv s) (hi : (s.mfs.inodes i).IsFile)
    (hlen : newPath.length ≤ maxName - 1)
    (hpath : ∀ j, j ≠ i → (s.mfs.inodes j).key ≠ some (storedPath newPath))
    (hok : (fsRename s.fs (targetStr s.mfs i) newPath tick).2 = 0) :
    LinkInv
      { fs := (fsRename s.fs (targetStr s.mfs i) newPath tick).1
        mfs := movePath (retarget s.mfs (s.mfs.inodes i).inodeId newPath) i newPath tick' } := by
  have htarget := targetStr_eq (h.nodes.terminated i hi.1)
  have hstored : storedPath newPath = newPath := storedPath_of_le (hlen.trans (by decide))
  rw [htarget] at hok ⊢
  have r := fsRename_renamed h.kinds hlen (h.exist i hi) hok
  have m := movePath_moved (retarget s.mfs (s.mfs.inodes i).inodeId newPath) i newPath tick'
  have hfree : ∀ j, (s.mfs.inodes j).IsFile →
      (s.mfs.inodes j).targetName ≠ storedPath newPath := by
    intro j hj heq
    obtain ⟨k, hk⟩ := h.exist j hj
    rw [heq, hstored] at hk
    exact r.fresh k (FSFile.isFile_iff.mp hk).1
  constructor
  case kinds => exact r.kinds
  case nodes =>
    apply m.nodes (retarget_nodes h.nodes hfree)
    intro j hj
    rw [(retarget_isFile _ _ newPath j).2.2]
    exact hpath j hj
  case exist =>
    intro j hj
    have hfile := (retarget_isFile _ _ newPath j).1.mp ((m.isFile j).mp hj)
    rw [m.targetName j, retarget_target hfile]
    split
    · rw [hstored]
      exact r.moved
    · rename_i hid
      apply r.kept _ _ (h.exist j hfile)
      exact fun htar => hid ((h.nodes.agree j i hfile hi).mpr htar)

theorem mfs4Rename_inv {s : FileSys} {oldPath : CString} (h : LinkInv s)
    (hkeep : linkKeeps s (.renameInode oldPath newPath tick tick')) :
    LinkInv (mfs4Rename s oldPath newPath tick tick').1 := by
  unfold mfs4Rename
  split
  · exact h
  · rename_i i hi
    have hused := used_of_find h.nodes.terminated hi
    split
    · exact h
    · rename_i hnone
      obtain ⟨hpath, hlen⟩ := hkeep hnone i hi
      dsimp only
      split
      · rename_i hfile
        split
        · rename_i hfail
          rcases fsRename_cases s.fs (targetStr s.mfs i) newPath tick with ⟨-, hr⟩ | ⟨hok, -⟩
          · rw [hr]
            exact h
          · exact absurd hok hfail
        · rename_i hok
          exact rename_file_inv h ⟨hused, hfile⟩ (hlen hfile) hpath (not_not.mp hok)
      · have m := movePath_moved s.mfs i newPath tick'
        constructor
        case kinds => exact h.kinds
        case nodes => exact m.nodes h.nodes hpath
        case exist =>
          intro j hj
          rw [m.targetName j]
          exact h.exist j ((m.isFile j).mp hj)

theorem opStep_link {s : FileSys} {op : Op} (h : LinkInv s) (hg : linkGuard s op) :
    LinkInv (opStep s op) := by
  obtain ⟨hcall, hkeep⟩ := hg
  cases op with
  | write name text tick m => exact h.table (fsWrite_fills s.fs name text tick m) hkeep
  | writeBin name bytes tick m =>
      exact h.table (fsWriteBinInternal_fills s.fs name bytes 0 tick m) hkeep
  | writeTmp name bytes tick m =>
      exact h.table (fsWriteBinInternal_fills s.fs name bytes 1 tick m) hkeep
  | register path type tick => exact mfs4Register_inv h ⟨hcall, hkeep⟩
  | symlink link target tick => exact mfs4Symlink_inv h hkeep
  | hardlink link original tick => exact mfs4Hardlink_inv h hkeep
  | mkdirInode path tick tick' => exact mfs4Mkdir_inv h hkeep
  | unlinkInode path => exact mfs4Unlink_inv h
  | renameInode oldPath newPath tick tick' => exact mfs4Rename_inv h hkeep
  | _ => exact hcall.elim

/-! ## The table scan -/

/-- The inode table after the scan of the slots `done`. -/
structure ScanInv (files : Slot → FSFile) (done : List Slot) (m : Mfs4) : Prop where
  nodes : NodesInv m
  next : m.nextInodeId.toNat ≤ 1 + done.length
  older : ∀ i, (m.inodes i).used ≠ 0 → (m.inodes i).inodeId.toNat < m.nextInodeId.toNat
  source : ∀ i, (m.inodes i).used ≠ 0 → ∃ k ∈ done, (files k).key = some (m.inodes i).pathName ∧
    (m.inodes i).targetName = (m.inodes i).pathName ∧
    ((m.inodes i).type = typeFile → (files k).isDir = false)

theorem ScanInv.weaken {done : List Slot} {m : Mfs4} {k : Slot} (h : ScanInv files done m) :
    ScanInv files (k :: done) m where
  nodes := h.nodes
  next := by
    have := h.next
    simp only [List.length_cons]
    omega
  older := h.older
  source := by
    intro i hi
    obtain ⟨l, hl, hs⟩ := h.source i hi
    exact ⟨l, List.mem_cons_of_mem _ hl, hs⟩

/-- The scan takes one more slot. -/
theorem ScanInv.slot {done : List Slot} {m m' : Mfs4} {k : Slot} (hn : NamesInv files)
    (h : ScanInv files done m) (hk : k ∉ done) (hshort : done.length < maxFiles)
    (hused : (files k).used ≠ 0)
    (hnew : newInode m (if (files k).isDir then typeDir else typeFile) (files k).nameStr
      (files k).nameStr (files k).ctime (files k).mtime = some m') :
    ScanInv files (k :: done) m' := by
  have hkey := FSFile.key_of_used hused
  have hstored : storedPath (files k).nameStr = (files k).nameStr :=
    storedPath_of_le ((FSFile.length_nameStr (hn.terminated k hused)).trans (by decide))
  have hnext : m'.nextInodeId = m.nextInodeId + 1 := by
    obtain ⟨i, -, rfl⟩ := Option.map_eq_some_iff.mp hnew
    rfl
  obtain ⟨i, f⟩ := newInode_filled hnew
  have hapart : ∀ j, (m.inodes j).used ≠ 0 → (m.inodes j).pathName ≠ (files k).nameStr := by
    intro j hj heq
    obtain ⟨l, hl, hkl, -⟩ := h.source j hj
    rw [heq] at hkl
    exact hk (hn.distinct hkl hkey ▸ hl)
  have hnum : (m.nextInodeId + 1).toNat = m.nextInodeId.toNat + 1 := by
    have hnext := h.next
    have hlen : done.length < 64 := hshort
    rw [UInt32.toNat_add, show (1 : UInt32).toNat = 1 from rfl, Nat.mod_eq_of_lt (by omega)]
  constructor
  case nodes =>
    apply f.nodes h.nodes
    · intro j hj
      obtain ⟨hu, hp⟩ := MFS4Inode.key_eq_some.mp hj
      exact hapart j hu (hp.trans hstored)
    · intro _ j hj
      obtain ⟨l, hl, hkl, htar, -⟩ := h.source j hj.1
      rw [hstored, htar]
      constructor
      · intro hid
        exact absurd (congrArg UInt32.toNat hid) (h.older j hj.1).ne'
      · exact fun hname => absurd hname.symm (hapart j hj.1)
  case next =>
    rw [hnext, hnum, List.length_cons]
    have := h.next
    omega
  case older =>
    intro j hj
    rw [hnext, hnum]
    by_cases hji : j = i
    · subst hji
      rw [f.id]
      exact Nat.lt_succ_self _
    · rw [f.other j hji] at hj ⊢
      exact (h.older j hj).trans (Nat.lt_succ_self _)
  case source =>
    intro j hj
    by_cases hji : j = i
    · subst hji
      refine ⟨k, List.mem_cons_self, ?_, f.target.trans f.path.symm, ?_⟩
      · rw [f.path, hstored, hkey]
      · rw [f.type]
        intro ht
        by_contra hdir
        rw [if_pos (by simpa using hdir)] at ht
        exact absurd ht (by decide)
    · rw [f.other j hji] at hj ⊢
      obtain ⟨l, hl, hs⟩ := h.source j hj
      exact ⟨l, List.mem_cons_of_mem _ hl, hs⟩

theorem scan_inv (hn : NamesInv files) (slots : List Slot) :
    ∀ (done : List Slot) (r : Mfs4 × Bool), ScanInv files done r.1 →
      (slots.reverse ++ done).Nodup →
      ScanInv files (slots.reverse ++ done) (slots.foldl (scanSlot files) r).1 := by
  induction slots with
  | nil => exact fun done r h _ => h
  | cons k slots ih =>
      intro done r h hnodup
      have hlist : (k :: slots).reverse ++ done = slots.reverse ++ k :: done := by simp
      rw [hlist] at hnodup ⊢
      apply ih _ _ _ hnodup
      have hk : k ∉ done := (List.nodup_cons.mp hnodup.of_append_right).1
      have hlen : done.length < maxFiles := by
        have hle := hnodup.of_append_right.length_le_card
        rw [Fintype.card_fin, List.length_cons] at hle
        exact hle
      unfold scanSlot
      dsimp only
      split
      · exact h.weaken
      · rename_i hgo
        split
        · exact h.weaken
        · rename_i m' hm'
          apply h.slot hn hk hlen _ hm'
          intro hu
          simp [hu] at hgo

/-- The state after `mfs4_init` has scanned a table of terminated, distinct names. -/
structure Scanned (s : FileSys) : Prop where
  names : NamesInv s.fs.files
  unsaved : mfs4Load s.fs.disk = none
  scan : ∃ m, s.mfs = mfs4Init m s.fs

theorem Scanned.inv {s : FileSys} (h : Scanned s) : LinkInv s := by
  obtain ⟨m, hm⟩ := h.scan
  have hstart : ScanInv s.fs.files []
      { inodes := fun i => { m.inodes i with used := 0 }, nextInodeId := 1 } := by
    constructor
    case nodes =>
      constructor
      case terminated => exact fun i hi => absurd rfl hi
      case paths => exact DistinctKeys.of_empty fun i => MFS4Inode.key_of_free rfl
      case agree => exact fun i j hi => absurd rfl hi.1
    case next => exact Nat.le_refl 1
    case older => exact fun i hi => absurd rfl hi
    case source => exact fun i hi => absurd rfl hi
  have hscan := scan_inv h.names (List.finRange maxFiles) [] (_, false) hstart
    (by simpa using List.nodup_finRange maxFiles)
  have heq : s.mfs = ((List.finRange maxFiles).foldl (scanSlot s.fs.files)
      ({ inodes := fun i => { m.inodes i with used := 0 }, nextInodeId := 1 }, false)).1 := by
    rw [hm]
    simp only [mfs4Init, h.unsaved]
  rw [← heq] at hscan
  constructor
  case kinds => exact h.names.kinds
  case nodes => exact hscan.nodes
  case exist =>
    intro i hi
    obtain ⟨k, -, hkey, htar, hdir⟩ := hscan.source i hi.1
    exact ⟨k, FSFile.isFile_iff.mpr ⟨htar ▸ hkey, hdir hi.2⟩⟩

/-- In every run of calls that find the stored paths, register files under names that
fit and give no file a second number, the inode table is in order. -/
theorem inodes_ok {s : FileSys} (r : Reach Scanned linkGuard opStep s) : InodesOk s :=
  (r.invariant (fun _ => Scanned.inv) fun _ _ => opStep_link).ok

theorem emptyFs_scanned : Scanned emptyFs where
  names := firstSession_start.inv.table.names
  unsaved := by decide +kernel
  scan := ⟨⟨fun _ => zeroInode, 1⟩, by rw [emptyFs, boot]⟩

/-- Create a file and register it. -/
def createFile (name : CString) : List Op :=
  [.writeBin name [1] 0 (some 3), .register name typeFile 0]

theorem createFile_reach {guard : FileSys → Op → Prop} {s : FileSys}
    (r : Reach Scanned guard opStep s) (hw : guard s (.writeBin name [1] 0 (some 3)))
    (hr : guard (opStep s (.writeBin name [1] 0 (some 3))) (.register name typeFile 0)) :
    Reach Scanned guard opStep ((createFile name).foldl opStep s) :=
  Reach.next _ (Reach.next _ r hw) hr

theorem inodes_ok_one_file : InodesOk ((createFile nameA).foldl opStep emptyFs) := by
  have hfree : ∀ j, (emptyFs.fs.files j).used = 0 := by decide +kernel
  have hnodes : ∀ j, ((opStep emptyFs (.writeBin nameA [1] 0 (some 3))).mfs.inodes j).used = 0 := by
    decide +kernel
  apply inodes_ok
  apply createFile_reach (Reach.start emptyFs_scanned)
  · refine ⟨trivial, ?_⟩
    intro j hj
    rw [FSFile.key_of_free (hfree j)] at hj
    cases hj
  · refine ⟨fun _ => by decide +kernel, ?_⟩
    intro _ _
    refine ⟨fun _ => by decide, fun _ => ⟨by decide, ?_⟩⟩
    exact fun j hj => absurd (hnodes j) hj.1

/-- A file under a name of 32 characters. -/
def longName : FileSys := (createFile (xs 32)).foldl opStep emptyFs

theorem long_name_lost : ¬ ∀ s, Reach Scanned linkCall opStep s → InodesOk s := by
  intro h
  have hr : Reach Scanned linkCall opStep longName :=
    createFile_reach (Reach.start emptyFs_scanned) trivial fun _ => by decide +kernel
  have hlost : ¬ FileNamed longName.fs (targetStr longName.mfs 0) := by decide +kernel
  exact hlost ((h longName hr).exist 0 (by decide +kernel))

end OriaOS.Fs
