import OriaOS.Fs.Descriptors

/-!
# Access modes

`vfs_read` and `vfs_write` test the flags of a descriptor against a mask of both mode
bits, so neither check ever refuses a mode. Beside the descriptors stands the history
of the flags that each was opened with.
-/

namespace OriaOS.Fs

open OriaOS.Lib OriaOS.Sched
open OriaOS.Ipc (vfsMaxFd Fd)

variable {name : CString} {m : Malloc} {s : Mfs3} {t : Tid} {tick : UInt32}

/-- Opened with `VFS_O_RDONLY`. -/
def readOnly (flags : UInt32) : Prop := flags &&& 3 = 1

/-- Opened with `VFS_O_WRONLY`. -/
def writeOnly (flags : UInt32) : Prop := flags &&& 3 = 2

instance (flags : UInt32) : Decidable (readOnly flags) := inferInstanceAs (Decidable (_ = _))

/-- The descriptors, and the flags each was opened with. -/
structure Modes where
  vfs : Vfs
  opened : Tid → Fd → UInt32

/-- The flags after a call. -/
def openedStep (s : Modes) : VfsOp → Tid → Fd → UInt32
  | .open t path flags tick m => fun u k =>
      if u = t ∧ (vfsOpen s.vfs t path flags tick m).2 = (k.val : Int) then flags
      else s.opened u k
  | .copy src dst => Function.update s.opened dst (s.opened src)
  | _ => s.opened

def modeStep (s : Modes) (op : VfsOp) : Modes := ⟨vfsStep s.vfs op, openedStep s op⟩

def ModesStart (s : Modes) : Prop := VfsStart s.vfs

/-- The next call keeps to the mode of its descriptor. -/
structure ModesOk (guard : Modes → VfsOp → Prop) (s : Modes) : Prop where
  opens : ∀ t path flags tick m, readOnly flags → guard s (.open t path flags tick m) →
    ∀ name, FileNamed s.vfs.fs name →
      content (vfsOpen s.vfs t path flags tick m).1.fs name = content s.vfs.fs name
  writes : ∀ t j buf m raw m' tick, (s.vfs.fds t j).IsFile → readOnly (s.opened t j) →
    guard s (.write t j buf m raw m' tick) → ∀ name, FileNamed s.vfs.fs name →
      content (vfsWriteFile s.vfs t j buf m raw m' tick).1.fs name = content s.vfs.fs name
  reads : ∀ t j len, (s.vfs.fds t j).IsFile → writeOnly (s.opened t j) →
    guard s (.read t j len) → (vfsReadFile s.vfs t j len).2.2 = []

def modeCall (s : Modes) (op : VfsOp) : Prop := vfsCall s.vfs op

/-- A write that stores what stands there. -/
def sameBytes (s : Vfs) (t : Tid) (j : Fd) (buf : List UInt8) (raw : Nat → UInt8)
    (m' : Malloc) : Prop :=
  BytesHeld s.fs (s.fds t j).name ∧ writeFitsAt s t j buf raw m' ∧
    (s.fds t j).offset.toNat + buf.length ≤ (s.fileOf t j).length ∧
    buf = ((s.fileOf t j).drop (s.fds t j).offset.toNat).take buf.length

/-- The condition of a call: what the checks of the mode miss does no harm. -/
def modeKeeps (s : Modes) : VfsOp → Prop
  | .open _ path flags _ _ =>
      readOnly flags → flags &&& oCreate ≠ 0 →
        fsRead s.vfs.fs path ≠ none ∨ ¬ FileNamed s.vfs.fs (storedName path)
  | .write t j buf m raw m' _ =>
      (s.vfs.fds t j).IsFile → readOnly (s.opened t j) → m ≠ none →
        FileNamed s.vfs.fs (s.vfs.fds t j).name → sameBytes s.vfs t j buf raw m'
  | .read t j len =>
      (s.vfs.fds t j).IsFile → writeOnly (s.opened t j) →
        readFits s.vfs t j len ∧
          ((s.vfs.fileOf t j).drop (s.vfs.fds t j).offset.toNat).take len = []
  | _ => True

def modeGuard (s : Modes) (op : VfsOp) : Prop := modeCall s op ∧ modeKeeps s op

/-! ## Opening -/

theorem not_file_of_stored (h : NamesEnd s) (hnone : ¬ FileNamed s (storedName name)) :
    firstSlot s.files (·.isFile name) = none := by
  by_contra hsome
  obtain ⟨i, hi⟩ := Option.ne_none_iff_exists'.mp hsome
  have hshort : name.length ≤ maxName - 1 := by
    obtain ⟨hu, hname⟩ := FSFile.key_eq_some.mp (key_of_first hi)
    exact hname ▸ FSFile.length_nameStr (h i hu)
  rw [storedName_of_le hshort] at hnone
  exact hnone ⟨i, firstSlot_some hi⟩

/-- A text write to a new file leaves the files of other names. -/
theorem fsWrite_other {name' text : CString} (hnone : firstSlot s.files (·.isFile name) = none)
    (hne : name' ≠ storedName name) :
    fsReadBin (fsWrite s name text tick m).1 name' = fsReadBin s name' := by
  unfold fsWrite
  split
  · rfl
  · rw [hnone]
    dsimp only
    split
    · next i hi =>
      have hold : (s.files i).view name' = none := view_of_unused (free_of_firstSlot hi) name'
      split
      · apply fsReadBin_change (i := i) (fun k hk => put_other hk _) hold
        rw [put_self]
        exact view_of_unused (f := (s.files i).setName name) (free_of_firstSlot hi) name'
      · next b hb =>
        apply fsReadBin_change (i := i) (fun k hk => save_other hk _ _) hold
        have hsame := diskSave_header_same (put (noteStore s b (text.length + 1)) i
          { storeText ((s.files i).setName name) b text with
            used := 1, tmpfs := 0, dirty := true, perms := permRead ||| permWrite
            ctime := tick, mtime := tick }) i i
        rw [put_self] at hsame
        have hends := FSFile.terminated_setName (s.files i) name
        exact view_of_key ((hsame.key fun _ => hends).trans (key_of_filled (by simp) rfl)) hne
    · rfl

theorem createFor_other {path : CString} (h : NamesEnd s)
    (hkeeps : fsRead s path ≠ none ∨ ¬ FileNamed s (storedName path)) (hname : FileNamed s name) :
    content (createFor s path tick m) name = content s name := by
  unfold createFor
  split
  · rfl
  · next hnone =>
    have hnew := hkeeps.resolve_left (not_not_intro hnone)
    apply content_congr
    apply fsWrite_other (not_file_of_stored h hnew)
    rintro rfl
    exact hnew hname

/-! ## The calls -/

theorem FdsInv.open_keeps {s : Vfs} (h : FdsInv s) {path : CString} {flags : UInt32}
    (hkeeps : flags &&& oCreate ≠ 0 → fsRead s.fs path ≠ none ∨ ¬ FileNamed s.fs (storedName path))
    (hname : FileNamed s.fs name) :
    content (vfsOpen s t path flags tick m).1.fs name = content s.fs name := by
  rcases vfsOpen_cases s t path flags tick m with hr | ⟨fs, f, j, hr, hfs, -⟩
  · rw [hr]
  · rw [hr]
    rcases hfs with rfl | ⟨hcreate, rfl⟩
    · rfl
    · exact createFor_other h.files.names (hkeeps hcreate) hname

/-- A write of the bytes that stand there. -/
theorem FdsInv.write_same {s : Vfs} (h : FdsInv s) {j : Fd} {buf : List UInt8} {m' : Malloc}
    {raw : Nat → UInt8} (tick : UInt32) (hfile : (s.fds t j).IsFile)
    (hsame : sameBytes s t j buf raw m') :
    (vfsWriteFile s t j buf m raw m' tick).1.fileOf t j = s.fileOf t j := by
  obtain ⟨hheld, hfits, hlen, hbuf⟩ := hsame
  have hok := vfsWriteFile_ok (m := m) tick h.files hheld (h.names t j hfile)
    fun _ _ => hfits
  rcases vfsWriteFile_eq (m := m) tick h.files hheld fun _ _ => hfits with
    hr | ⟨-, n, hn, -, -, hr⟩
  · rw [hr]
  · rw [hok.bytes n (by rw [hr])]
    have htake : buf.take n = ((s.fileOf t j).drop (s.fds t j).offset.toNat).take n := by
      rw [hbuf, List.take_take, Nat.min_eq_left hn]
    rw [htake]
    exact overwrite_same (by omega)

theorem FdsInv.write_keeps {s : Vfs} (h : FdsInv s) {j : Fd} {buf : List UInt8} {m' : Malloc}
    {raw : Nat → UInt8} (hfile : (s.fds t j).IsFile)
    (hsame : m ≠ none → FileNamed s.fs (s.fds t j).name → sameBytes s t j buf raw m')
    (hname : FileNamed s.fs name) :
    content (vfsWriteFile s t j buf m raw m' tick).1.fs name = content s.fs name := by
  rcases vfsWriteFile_step s t j buf m raw m' tick with hr | ⟨hm, out, offset, bytes, hr⟩
  · rw [hr]
  · by_cases hne : name = (s.fds t j).name
    · subst hne
      have hfileOf := h.write_same (m := m) tick hfile (hsame hm hname)
      have hkept : ((vfsWriteFile s t j buf m raw m' tick).1.fds t j).name = (s.fds t j).name := by
        rw [hr, setFd_fd]
      rw [Vfs.fileOf, hkept] at hfileOf
      exact hfileOf
    · rw [hr]
      exact content_congr (fsWriteBin_other h.files.names (h.names t j hfile) hne)

theorem FdsInv.ok {s : Modes} (h : FdsInv s.vfs) : ModesOk modeGuard s where
  opens := fun _ _ _ _ _ hmode hg _ hname => h.open_keeps (hg.2 hmode) hname
  writes := fun _ _ _ _ _ _ _ hfile hmode hg _ hname =>
    h.write_keeps hfile (hg.2 hfile hmode) hname
  reads := by
    intro t j len hfile hmode hg
    obtain ⟨hfits, hempty⟩ := hg.2 hfile hmode
    have hok := vfsReadFile_ok h.files fun _ => hfits
    by_cases hflags : (s.vfs.fds t j).flags &&& oRdwr = 0
    · rw [hok.refused hflags]
    · rw [hok.bytes hflags, hempty]

theorem modes_ok {s : Modes} (r : Reach ModesStart modeGuard modeStep s) :
    ModesOk modeGuard s := by
  have hinv : FdsInv s.vfs := r.invariant (P := fun u : Modes => FdsInv u.vfs)
    (fun _ (h : VfsStart _) => h.inv.toFdsInv) fun _ op h _ => vfsStep_fds h op
  exact hinv.ok

def firstModes : Modes := ⟨noFiles, fun _ _ => 0⟩

theorem firstModes_start : ModesStart firstModes := noFiles_start

/-- Open the file for reading. -/
def openReader : VfsOp := .open 0 nameA 1 0 (some 0)

theorem modes_ok_reader :
    ModesOk modeGuard ([createA, openReader, .read 0 4 1].foldl modeStep firstModes) := by
  apply modes_ok
  apply Reach.guarded (Reach.start firstModes_start)
  have hlen : 1 < 2147483648 := by decide
  have hcreate : ¬ readOnly 7 := by decide
  have hopened : (modeStep (modeStep firstModes createA) openReader).opened 0 4 = 1 := by
    decide +kernel
  refine ⟨⟨trivial, fun h => absurd h hcreate⟩, ⟨trivial, fun _ h => absurd rfl h⟩,
    ⟨hlen, fun _ hmode => ?_⟩, trivial⟩
  rw [writeOnly, hopened] at hmode
  exact absurd hmode (by decide)

/-- A write through a descriptor that was opened for reading. -/
theorem reader_writes :
    ¬ ∀ s, Reach ModesStart modeCall modeStep s → ModesOk modeCall s := by
  intro h
  have hr : Reach ModesStart modeCall modeStep
      ([createA, openReader].foldl modeStep firstModes) :=
    Reach.guarded (Reach.start firstModes_start) ⟨trivial, trivial, trivial⟩
  have hlen : ([9] : List UInt8).length < 2147483648 := by decide
  have hkept := (h _ hr).writes 0 4 [9] (some 0) (fun _ => 0) (some 0) 0 (by decide +kernel)
    (by decide +kernel) hlen nameA (by decide +kernel)
  revert hkept
  decide +kernel

end OriaOS.Fs
