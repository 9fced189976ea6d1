import OriaOS.Fs.Names
import OriaOS.Fs.Persist

/-!
# Files after a reboot

What a load finds on the disk against the history of the names. A used header on
the disk is the header of its slot in memory as long as no call takes a slot out of
the disk's sight that is still stored there; every call but the write to tmpfs over
a stored file keeps to that.
-/

namespace OriaOS.Fs

open OriaOS.Lib

variable {name : CString} {disk : Disk} {f g : FSFile} {m : Malloc} {s : Mfs3} {i : Slot}
  {tick : UInt32}

/-! ## The results of the calls -/

/-- How a call that stores or drops one entry ends: with another result than `ok` and
no store to the disk, or with the result `ok` and slot `i` saved as `g`. -/
inductive Outcome (s : Mfs3) (ok : Int) (Held : Slot → FSFile → Prop)
    (Saved : Slot → FSFile → Prop) : Mfs3 × Int → Prop
  | same (r : Int) (hr : r ≠ ok) : Outcome s ok Held Saved (s, r)
  | held (i : Slot) (g : FSFile) (r : Int) (hr : r ≠ ok) (h : Held i g) :
      Outcome s ok Held Saved (put s i g, r)
  | saved (i : Slot) (g : FSFile) (o : Bool) (h : Saved i g) :
      Outcome s ok Held Saved (diskSave (put { s with overflow := o } i g) i, ok)

/-- A failed call leaves the header of a used entry alone. -/
def KeepsHeader (f g : FSFile) : Prop :=
  f.used = 0 ∧ g.used = 0 ∨ g = { f with data := none }

/-- The slot that a write fills: the file of that name, or a free slot that takes the
name. -/
structure Fills (s : Mfs3) (name : CString) (i : Slot) (g : FSFile) : Prop where
  used : g.used ≠ 0
  place : firstSlot s.files (·.isFile name) = some i ∧ g.name = (s.files i).name ∨
    (s.files i).used = 0 ∧ g.name = ((s.files i).setName name).name

theorem fsWrite_outcome (s : Mfs3) (name text : CString) (tick : UInt32) (m : Malloc) :
    Outcome s 1 (fun i g => KeepsHeader (s.files i) g)
      (fun i g => Fills s name i g ∧
        ((s.files i).used = 0 ∧ g.tmpfs = 0 ∨ g.tmpfs = (s.files i).tmpfs))
      (fsWrite s name text tick m) := by
  unfold fsWrite
  split
  · exact .same 0 (by decide)
  · split
    · rename_i i hi
      dsimp only
      split
      · exact .same 0 (by decide)
      · exact .saved i _ _ ⟨⟨used_of_isFile hi, Or.inl ⟨hi, rfl⟩⟩, Or.inr rfl⟩
    · split
      · rename_i i hi
        have hfree := free_of_firstSlot hi
        dsimp only
        split
        · exact .held i _ 0 (by decide) (Or.inl ⟨hfree, hfree⟩)
        · exact .saved i _ _ ⟨⟨by simp, Or.inr ⟨hfree, rfl⟩⟩, Or.inl ⟨hfree, rfl⟩⟩
      · exact .same 0 (by decide)

theorem fsWriteBinInternal_outcome (s : Mfs3) (name : CString) (bytes : List UInt8)
    (tmpfs : UInt8) (tick : UInt32) (m : Malloc) :
    Outcome s 1 (fun i g => KeepsHeader (s.files i) g)
      (fun i g => Fills s name i g ∧ g.tmpfs = tmpfs ∧ bytes.length ≤ maxBinData ∧
        m.grant bytes.length ≠ none)
      (fsWriteBinInternal s name bytes tmpfs tick m) := by
  have hgrant {b : Buf} (hb : binBuf bytes m = some b) : m.grant bytes.length ≠ none := by
    intro hnone
    simp [binBuf, hnone] at hb
  unfold fsWriteBinInternal
  split
  · exact .same 0 (by decide)
  · rename_i hlen
    have hshort : bytes.length ≤ maxBinData := Nat.le_of_not_lt hlen
    split
    · rename_i i hi
      dsimp only
      split
      · exact .held i _ 0 (by decide) (Or.inr rfl)
      · rename_i b hb
        exact .saved i _ _
          ⟨⟨used_of_isFile hi, Or.inl ⟨hi, rfl⟩⟩, rfl, hshort, hgrant hb⟩
    · split
      · rename_i i hi
        have hfree := free_of_firstSlot hi
        dsimp only
        split
        · exact .held i _ 0 (by decide) (Or.inl ⟨hfree, hfree⟩)
        · rename_i b hb
          exact .saved i _ _ ⟨⟨by simp, Or.inr ⟨hfree, rfl⟩⟩, rfl, hshort, hgrant hb⟩
      · exact .same 0 (by decide)

theorem fsDelete_outcome (s : Mfs3) (name : CString) :
    Outcome s 1 (fun _ _ => False)
      (fun i g => (s.files i).key = some name ∧ g = { s.files i with used := 0, data := none })
      (fsDelete s name) := by
  unfold fsDelete
  split
  · rename_i i hi
    exact .saved i _ s.overflow ⟨FSFile.named_iff.mp (firstSlot_some hi), rfl⟩
  · exact .same 0 (by decide)

theorem fsRename_outcome (s : Mfs3) (oldName newName : CString) (tick : UInt32) :
    Outcome s 0 (fun _ _ => False)
      (fun i g => (s.files i).key = some oldName ∧
        g = { (s.files i).setName newName with dirty := true, mtime := tick })
      (fsRename s oldName newName tick) := by
  unfold fsRename
  split
  · exact .same (-1) (by decide)
  · split
    · rename_i i hi
      exact .saved i _ s.overflow ⟨FSFile.named_iff.mp (firstSlot_some hi), rfl⟩
    · exact .same (-1) (by decide)

/-! ## Headers on the disk -/

/-- A used header on the disk is the header of the entry in memory. -/
def Current (disk : Disk) (i : Slot) (f : FSFile) : Prop :=
  disk (hdrSector i) 36 ≠ 0 → f.used ≠ 0 ∧ f.tmpfs = 0 ∧ disk (hdrSector i) = header f

theorem hdrSector_inj {j : Slot} (h : j ≠ i) :
    hdrSector j < hdrSector i ∨ hdrSector i + 129 ≤ hdrSector j := by
  have hne : j.val ≠ i.val := fun hv => h (Fin.ext hv)
  simp only [hdrSector, dataSecs]
  omega

theorem Current.unused (h : Current disk i f) (hf : f.used = 0 ∨ f.tmpfs ≠ 0) :
    disk (hdrSector i) 36 = 0 := by
  by_contra hne
  obtain ⟨hu, ht, -⟩ := h hne
  exact hf.elim hu fun hf => hf ht

theorem Current.dirty (h : Current disk i f) (d : Bool) : Current disk i { f with dirty := d } := h

/-- The table and the disk between calls. -/
structure TableInv (s : Mfs3) : Prop where
  magic : hasMagic s.disk = true
  current : ∀ i, Current s.disk i (s.files i)
  names : NamesInv s.files

/-- A slot is saved that is not hidden from the disk while it is stored there. -/
theorem current_save {o : Bool} (h : ∀ j, Current s.disk j (s.files j))
    (hg : g.tmpfs ≠ 0 → (s.files i).used = 0 ∨ (s.files i).tmpfs ≠ 0) :
    ∀ j, Current (diskSave (put { s with overflow := o } i g) i).disk j
      ((diskSave (put { s with overflow := o } i g) i).files j) := by
  intro j
  have hself : (put { s with overflow := o } i g).files i = g := by simp [put]
  obtain ⟨d, hd⟩ := diskSave_files (put { s with overflow := o } i g) i j
  rw [hd]
  apply Current.dirty
  by_cases hji : j = i
  · subst hji
    rw [hself]
    intro hne
    by_cases ht : g.tmpfs = 0
    · have hhdr := diskSave_header (i := j) (hself.symm ▸ ht)
      rw [hself] at hhdr
      rw [hhdr] at hne
      exact ⟨hne, ht, hhdr⟩
    · rw [diskSave_of_tmpfs (by rw [hself]; exact ht)] at hne
      exact absurd ((h j).unused (hg ht)) hne
  · have hout := diskSave_outside (s := put { s with overflow := o } i g) (hdrSector_inj hji)
    have hkeep : (put { s with overflow := o } i g).files j = s.files j := by simp [put, hji]
    unfold Current
    rw [hout, hkeep]
    exact h j

theorem current_put (h : ∀ j, Current s.disk j (s.files j)) (hg : KeepsHeader (s.files i) g) :
    ∀ j, Current s.disk j ((put s i g).files j) := by
  intro j
  by_cases hji : j = i
  · subst hji
    have hself : (put s j g).files j = g := by simp [put]
    rw [hself]
    rcases hg with ⟨hf, -⟩ | rfl
    · exact fun hne => absurd ((h j).unused (Or.inl hf)) hne
    · exact h j
  · have hkeep : (put s i g).files j = s.files j := by simp [put, hji]
    rw [hkeep]
    exact h j

/-- The header byte that a flush puts in the place of the used flag of slot 4. -/
theorem current_flush {s : FileSys} (h : ∀ j, Current s.fs.disk j (s.fs.files j))
    (hnode : (s.mfs.inodes 10).target 60 = 0) :
    ∀ j, Current (fsFlush s).1.fs.disk j ((fsFlush s).1.fs.files j) := by
  have hfiles : ∀ j, Current (flushFiles s.fs).1.disk j ((flushFiles s.fs).1.files j) := by
    apply flushFiles_keeps (P := fun t => ∀ j, Current t.disk j (t.files j)) h
    intro t i ht _
    have hself : put { t with overflow := t.overflow } i (t.files i) = t := by simp [put]
    rw [← hself]
    exact current_save ht Or.inr
  intro j
  rw [fsFlush_disk, fsFlush_files]
  by_cases hj : j = 4
  · subst hj
    intro hne
    rw [mfs4Flush_slot4] at hne
    exact absurd hnode hne
  · have hsame := (show Agree (mfs4Flush s.mfs (flushFiles s.fs).1.disk) _ j from
      agree_mfs4Flush hj).header
    unfold Current
    rw [hsame]
    exact hfiles j

/-! ## Histories -/

/-- What became of a name last: stored by `fs_write` or `fs_write_bin`, stored by
`fs_write_tmp`, or given up by `fs_delete` or `fs_rename`. -/
inductive Fate
  | never
  | written
  | temporary
  | gone
deriving DecidableEq

/-- The file system and the fate of every name. -/
structure Session where
  sys : FileSys
  fate : CString → Fate

/-- The fates after a call that succeeds. -/
def fateStep (s : FileSys) (fate : CString → Fate) : Op → CString → Fate
  | .write name text tick m =>
      if (fsWrite s.fs name text tick m).2 = 1 then
        Function.update fate (storedName name) .written
      else fate
  | .writeBin name bytes tick m =>
      if (fsWriteBin s.fs name bytes tick m).2 = 1 then
        Function.update fate (storedName name) .written
      else fate
  | .writeTmp name bytes tick m =>
      if (fsWriteTmp s.fs name bytes tick m).2 = 1 then
        Function.update fate (storedName name) .temporary
      else fate
  | .delete name =>
      if (fsDelete s.fs name).2 = 1 then Function.update fate name .gone else fate
  | .rename oldName newName tick =>
      if (fsRename s.fs oldName newName tick).2 = 0 then
        Function.update (Function.update fate oldName .gone) (storedName newName) (fate oldName)
      else fate
  | _ => fate

def sessionStep (s : Session) : Event → Session
  | .op o => ⟨opStep s.sys o, fateStep s.sys s.fate o⟩
  | .reload raw m => ⟨boot s.sys.fs raw m, s.fate⟩

/-- The first boot from a formatted disk without files. -/
def SessionStart (s : Session) : Prop := Formatted s.sys ∧ s.fate = fun _ => .never

/-- The calls of a session, and reloads in between. -/
def sessionCall : Event → Prop
  | .op (.write ..) | .op (.writeBin ..) | .op (.writeTmp ..) | .op (.delete ..)
  | .op (.rename ..) | .op .flush | .reload .. => True
  | _ => False

/-- The header of slot 4 on the disk is put out of use by a flush. -/
def flushClears (s : FileSys) : Op → Prop
  | .flush => (s.mfs.inodes 10).target 60 = 0
  | _ => True

/-- The condition on the events: a name is not stored a second time, a write to tmpfs
does not replace a file that is on the disk, a flush does not put a used header in the
place of slot 4, and a reload gets its buffers. -/
def sessionKeeps (s : FileSys) : Event → Prop
  | .op o => findsStored s.fs o ∧ keepsHeader s.fs o ∧ flushClears s o
  | .reload _ m => ∀ i, m i ≠ none

def sessionGuard (s : Session) (e : Event) : Prop := sessionCall e ∧ sessionKeeps s.sys e

/-- Every file that a reboot finds was last written to be kept. -/
def NoResurrection (s : Session) : Prop :=
  ∀ raw m i, ((boot s.sys.fs raw m).fs.files i).used ≠ 0 →
    s.fate ((boot s.sys.fs raw m).fs.files i).nameStr = .written

/-- Every stored entry of a table has the fate of a stored file. -/
def Fated (fate : CString → Fate) (files : Slot → FSFile) : Prop :=
  ∀ i name, (files i).key = some name → (files i).tmpfs = 0 → fate name = .written

structure SessionInv (s : Session) : Prop where
  table : TableInv s.sys.fs
  fated : Fated s.fate s.sys.fs.files

/-! ## Reloading -/

/-- What a load makes of a slot is what stood in memory. -/
theorem loadSlot_current (h : Current disk i f) (hused : (loadSlot disk i g m).used ≠ 0) :
    f.used ≠ 0 ∧ f.tmpfs = 0 ∧ (loadSlot disk i g m).name = f.name := by
  have hflag : disk (hdrSector i) 36 ≠ 0 := fun hz => hused (loadSlot_unused hz)
  obtain ⟨hu, ht, hhdr⟩ := h hflag
  refine ⟨hu, ht, ?_⟩
  have hbyte : header f 36 ≠ 0 := hu
  unfold loadSlot
  simp only [hhdr, hbyte, if_false, readHeader_header]
  split
  · rfl
  · split <;> rfl

/-- A slot that is loaded is current again. -/
theorem current_loadSlot (h : Current disk i f) (hm : m ≠ none) :
    Current disk i (loadSlot disk i g m) := by
  intro hflag
  obtain ⟨hu, ht, hhdr⟩ := h hflag
  have hbyte : header f 36 ≠ 0 := hu
  obtain ⟨extra, rfl⟩ := Option.ne_none_iff_exists'.mp hm
  have hgrant : Malloc.grant (some extra) maxData = some (maxData + extra) := rfl
  unfold loadSlot
  simp only [hhdr, hbyte, if_false, readHeader_header, hgrant]
  split <;> exact ⟨hu, ht, rfl⟩

theorem boot_files (h : TableInv s) (raw : Slot → FSFile) (m : Slot → Malloc) (i : Slot) :
    (boot s raw m).fs.files i = loadSlot s.disk i (initSlot (raw i)) (m i) := by
  simp only [boot, fsInit_magic h.magic]

/-- A loaded entry has the name of the stored entry of its slot. -/
theorem TableInv.loaded (h : TableInv s) {raw : Slot → FSFile} {m : Slot → Malloc}
    (hused : ((boot s raw m).fs.files i).used ≠ 0) :
    ((boot s raw m).fs.files i).Terminated ∧ (s.files i).tmpfs = 0 ∧
      (s.files i).key = some ((boot s raw m).fs.files i).nameStr := by
  rw [boot_files h] at hused ⊢
  obtain ⟨hu, ht, hname⟩ := loadSlot_current (h.current i) hused
  have hterm := h.names.terminated i hu
  refine ⟨?_, ht, ?_⟩
  · obtain ⟨k, hk⟩ := hterm
    exact ⟨k, hname ▸ hk⟩
  · rw [FSFile.nameStr_congr hterm hname]
    exact FSFile.key_of_used hu

theorem SessionInv.noResurrection {s : Session} (h : SessionInv s) : NoResurrection s := by
  intro raw m i hused
  obtain ⟨-, ht, hkey⟩ := h.table.loaded hused
  exact h.fated i _ hkey ht

theorem SessionInv.reload {s : Session} (h : SessionInv s) {raw : Slot → FSFile}
    {m : Slot → Malloc} (hm : ∀ i, m i ≠ none) : SessionInv (sessionStep s (.reload raw m)) := by
  have hkey : ∀ i name, ((boot s.sys.fs raw m).fs.files i).key = some name →
      (s.sys.fs.files i).key = some name ∧ (s.sys.fs.files i).tmpfs = 0 := by
    intro i name hi
    obtain ⟨hu, hn⟩ := FSFile.key_eq_some.mp hi
    obtain ⟨-, ht, hk⟩ := h.table.loaded hu
    exact ⟨hn ▸ hk, ht⟩
  constructor
  case table =>
    constructor
    case magic =>
      have hdisk : (boot s.sys.fs raw m).fs.disk = s.sys.fs.disk := by
        simp only [boot, fsInit_magic h.table.magic]
      change hasMagic (boot s.sys.fs raw m).fs.disk = true
      rw [hdisk]
      exact h.table.magic
    case current =>
      intro i
      have hdisk : (boot s.sys.fs raw m).fs.disk = s.sys.fs.disk := by
        simp only [boot, fsInit_magic h.table.magic]
      change Current (boot s.sys.fs raw m).fs.disk i ((boot s.sys.fs raw m).fs.files i)
      rw [hdisk, boot_files h.table]
      exact current_loadSlot (h.table.current i) (hm i)
    case names =>
      constructor
      · exact fun i hu => (h.table.loaded hu).1
      · intro i j name hi hj
        exact h.table.names.distinct (hkey i name hi).1 (hkey j name hj).1
  case fated =>
    intro i name hi _
    obtain ⟨hk, ht⟩ := hkey i name hi
    exact h.fated i name hk ht

/-! ## Calls -/

/-- A slot that a write fills has the stored name. -/
theorem Fills.key (h : Fills s name i g) (hn : NamesInv s.files) :
    g.key = some (storedName name) := by
  rcases h.place with ⟨hi, hname⟩ | ⟨-, hname⟩
  · rw [FSFile.key_of_used h.used]
    obtain ⟨hu, hold⟩ := FSFile.key_eq_some.mp (FSFile.isFile_iff.mp (firstSlot_some hi)).1
    have hterm := hn.terminated i hu
    have hlen : name.length ≤ maxName - 1 := hold ▸ FSFile.length_nameStr hterm
    rw [FSFile.nameStr_congr hterm hname, hold, storedName_of_le hlen]
  · exact key_of_filled h.used hname

/-- Saving does not change the key of an entry. -/
theorem key_diskSave (h : NamesInv s.files) (i j : Slot) :
    ((diskSave s i).files j).key = (s.files j).key := by
  obtain ⟨d, hd⟩ := diskSave_files s i j
  rw [hd]
  exact FSFile.key_congr (h.terminated j) rfl rfl

theorem KeepsHeader.key (h : KeepsHeader f g) (hf : f.used ≠ 0 → f.Terminated) :
    g.key = f.key ∧ (g.used ≠ 0 → g.tmpfs = f.tmpfs) := by
  rcases h with ⟨hf0, hg0⟩ | rfl
  · exact ⟨by rw [FSFile.key_of_free hf0, FSFile.key_of_free hg0], fun hu => absurd hg0 hu⟩
  · exact ⟨FSFile.key_congr hf rfl rfl, fun _ => rfl⟩

section Calls
variable {s : Session} {ok : Int} {Held : Slot → FSFile → Prop} {Saved : Slot → FSFile → Prop}
  {r : Mfs3 × Int} {fate' : CString → Fate}

/-- A slot is saved under its fate, and the names of the other slots keep theirs. -/
theorem Fated.save {i : Slot} {g : FSFile} {o : Bool} {t : Mfs3}
    (ht : t = put { s.sys.fs with overflow := o } i g) (h : Fated s.fate s.sys.fs.files)
    (hn : NamesInv t.files) (hself : ∀ name, g.key = some name → g.tmpfs = 0 →
      fate' name = .written)
    (hother : ∀ j, j ≠ i → ∀ name, (s.sys.fs.files j).key = some name → g.key ≠ some name →
      fate' name = s.fate name) : Fated fate' (diskSave t i).files := by
  intro j name hkey htmpfs
  rw [key_diskSave hn] at hkey
  obtain ⟨d, hd⟩ := diskSave_files t i j
  rw [hd] at htmpfs
  have hi : t.files i = g := by simp [ht, put]
  by_cases hj : j = i
  · subst hj
    rw [hi] at hkey htmpfs
    exact hself name hkey htmpfs
  · have hold : t.files j = s.sys.fs.files j := by simp [ht, put, hj]
    have hne : g.key ≠ some name := by
      intro hg
      exact hj (hn.distinct hkey ((congrArg FSFile.key hi).trans hg))
    rw [hold] at hkey htmpfs
    rw [hother j hj name hkey hne]
    exact h j name hkey htmpfs

/-- A call keeps the invariant when the slot it saves gets the right fate. -/
theorem Outcome.session (out : Outcome s.sys.fs ok Held Saved r) (h : SessionInv s)
    (hnames : NamesInv r.1.files) (hheld : ∀ i g, Held i g → KeepsHeader (s.sys.fs.files i) g)
    (hsaved : ∀ i g, Saved i g → g.tmpfs ≠ 0 →
      (s.sys.fs.files i).used = 0 ∨ (s.sys.fs.files i).tmpfs ≠ 0)
    (hself : ∀ i g, Saved i g → ∀ name, g.key = some name → g.tmpfs = 0 →
      fate' name = .written)
    (hother : ∀ i g, Saved i g → ∀ j, j ≠ i → ∀ name, (s.sys.fs.files j).key = some name →
      g.key ≠ some name → fate' name = s.fate name) (mfs : Mfs4) :
    SessionInv ⟨⟨r.1, mfs⟩, if r.2 = ok then fate' else s.fate⟩ := by
  cases out with
  | same r hr =>
      simp only [if_neg hr]
      exact ⟨h.table, h.fated⟩
  | held i g r hr hg =>
      have hkeep := hheld i g hg
      simp only [if_neg hr]
      refine ⟨⟨h.table.magic, current_put h.table.current hkeep, hnames⟩, ?_⟩
      intro j name hkey htmpfs
      by_cases hj : j = i
      · subst hj
        have hself : (put s.sys.fs j g).files j = g := by simp [put]
        obtain ⟨hk, ht⟩ := hkeep.key (h.table.names.terminated j)
        simp only [hself] at hkey htmpfs
        exact h.fated j name (hk.symm.trans hkey)
          (ht (FSFile.key_eq_some.mp hkey).1 ▸ htmpfs)
      · have hold : (put s.sys.fs i g).files j = s.sys.fs.files j := by simp [put, hj]
        simp only [hold] at hkey htmpfs
        exact h.fated j name hkey htmpfs
  | saved i g o hg =>
      have hlba : 0 < hdrSector i ∨ hdrSector i + 129 ≤ 0 := by
        simp only [hdrSector]
        omega
      have hout := diskSave_outside (s := put { s.sys.fs with overflow := o } i g) hlba
      simp only [if_true]
      refine ⟨⟨(hasMagic_congr hout).trans h.table.magic,
        current_save h.table.current (hsaved i g hg), hnames⟩, ?_⟩
      exact h.fated.save rfl (namesInv_diskSave.mp hnames) (hself i g hg) (hother i g hg)

end Calls

/-- Storing a name changes the fate of no other name. -/
theorem update_other {fate : CString → Fate} {key : Option CString} {stored : CString} {x : Fate}
    (hkey : key = some stored) (hne : key ≠ some name) :
    Function.update fate stored x name = fate name := by
  apply Function.update_of_ne
  rintro rfl
  exact hne hkey

theorem update_stored {fate : CString → Fate} {key : Option CString} {stored : CString} {x : Fate}
    (hkey : key = some stored) (hname : key = some name) :
    Function.update fate stored x name = x := by
  cases hkey.symm.trans hname
  exact Function.update_self name x fate

theorem session_write {s : Session} (h : SessionInv s) {text : CString}
    (hfound : findsStored s.sys.fs (.write name text tick m)) :
    SessionInv (sessionStep s (.op (.write name text tick m))) := by
  have hn := h.table.names
  apply (fsWrite_outcome s.sys.fs name text tick m).session h
    ((fsWrite_names s.sys.fs name text tick m).names hn hfound) (fun _ _ hg => hg)
  · rintro i g ⟨-, ⟨hfree, -⟩ | ht⟩ hne
    · exact Or.inl hfree
    · exact Or.inr (ht ▸ hne)
  · rintro i g ⟨hfill, -⟩ name' hname -
    exact update_stored (hfill.key hn) hname
  · rintro i g ⟨hfill, -⟩ j - name' - hne
    exact update_other (hfill.key hn) hne

theorem session_writeBin {s : Session} (h : SessionInv s) {bytes : List UInt8}
    (hfound : findsStored s.sys.fs (.writeBin name bytes tick m)) :
    SessionInv (sessionStep s (.op (.writeBin name bytes tick m))) := by
  have hn := h.table.names
  apply (fsWriteBinInternal_outcome s.sys.fs name bytes 0 tick m).session h
    ((fsWriteBinInternal_names s.sys.fs name bytes 0 tick m).names hn hfound) (fun _ _ hg => hg)
  · rintro i g ⟨-, ht, -⟩ hne
    exact absurd ht hne
  · rintro i g ⟨hfill, -⟩ name' hname -
    exact update_stored (hfill.key hn) hname
  · rintro i g ⟨hfill, -⟩ j - name' - hne
    exact update_other (hfill.key hn) hne

theorem session_writeTmp {s : Session} (h : SessionInv s) {bytes : List UInt8}
    (hfound : findsStored s.sys.fs (.writeTmp name bytes tick m))
    (hkeep : keepsHeader s.sys.fs (.writeTmp name bytes tick m)) :
    SessionInv (sessionStep s (.op (.writeTmp name bytes tick m))) := by
  have hn := h.table.names
  apply (fsWriteBinInternal_outcome s.sys.fs name bytes 1 tick m).session h
    ((fsWriteBinInternal_names s.sys.fs name bytes 1 tick m).names hn hfound) (fun _ _ hg => hg)
  · rintro i g ⟨hfill, -, hshort, hm⟩ -
    rcases hfill.place with ⟨hi, -⟩ | ⟨hfree, -⟩
    · exact Or.inr (hkeep hshort i hi hm)
    · exact Or.inl hfree
  · rintro i g ⟨-, ht, -⟩ name' - htmpfs
    exact absurd (ht.symm.trans htmpfs) (by decide)
  · rintro i g ⟨hfill, -⟩ j - name' - hne
    exact update_other (hfill.key hn) hne

theorem session_delete {s : Session} (h : SessionInv s) (name : CString) :
    SessionInv (sessionStep s (.op (.delete name))) := by
  have hn := h.table.names
  apply (fsDelete_outcome s.sys.fs name).session h
    ((fsDelete_names s.sys.fs name fun _ => True).names hn fun _ _ => trivial)
    (fun _ _ hg => hg.elim)
  · rintro i g ⟨-, rfl⟩ hne
    exact Or.inr hne
  · rintro i g ⟨-, rfl⟩ name' hname
    cases (FSFile.key_of_free rfl).symm.trans hname
  · rintro i g ⟨hi, rfl⟩ j hj name' hother -
    apply Function.update_of_ne
    rintro rfl
    exact hj (hn.distinct hother hi)

theorem session_rename {s : Session} (h : SessionInv s) {oldName newName : CString}
    (hfound : findsStored s.sys.fs (.rename oldName newName tick)) :
    SessionInv (sessionStep s (.op (.rename oldName newName tick))) := by
  have hn := h.table.names
  have hkey : ∀ i g, (s.sys.fs.files i).key = some oldName →
      g = { (s.sys.fs.files i).setName newName with dirty := true, mtime := tick } →
      g.key = some (storedName newName) := by
    intro i g hi hg
    have hu : g.used ≠ 0 := by
      rw [hg]
      exact (FSFile.key_eq_some.mp hi).1
    have hname : g.name = ((s.sys.fs.files i).setName newName).name := by rw [hg]
    exact key_of_filled hu hname
  apply (fsRename_outcome s.sys.fs oldName newName tick).session h
    ((fsRename_names s.sys.fs oldName newName tick).names hn hfound) (fun _ _ hg => hg.elim)
  · rintro i g ⟨-, rfl⟩ hne
    exact Or.inr hne
  · rintro i g ⟨hi, hg⟩ name' hname htmpfs
    rw [update_stored (hkey i g hi hg) hname]
    subst hg
    exact h.fated i oldName hi htmpfs
  · rintro i g ⟨hi, hg⟩ j hj name' hother hne
    rw [update_other (hkey i g hi hg) hne]
    apply Function.update_of_ne
    rintro rfl
    exact hj (hn.distinct hother hi)

theorem session_flush {s : Session} (h : SessionInv s)
    (hclear : (s.sys.mfs.inodes 10).target 60 = 0) :
    SessionInv (sessionStep s (.op .flush)) := by
  have hfiles : ∀ j, ∃ d, (fsFlush s.sys).1.fs.files j = { s.sys.fs.files j with dirty := d } := by
    intro j
    rw [fsFlush_files]
    exact flushFiles_files s.sys.fs j
  have hmagic : hasMagic (flushFiles s.sys.fs).1.disk = true := by
    apply flushFiles_keeps (P := fun t => hasMagic t.disk = true) h.table.magic
    intro t i ht _
    rw [hasMagic_congr (diskSave_outside (Or.inl (by simp only [hdrSector]; omega)))]
    exact ht
  constructor
  case table =>
    constructor
    case magic =>
      change hasMagic (fsFlush s.sys).1.fs.disk = true
      rw [fsFlush_disk, hasMagic_congr (mfs4Flush_outside (Or.inl (by decide)))]
      exact hmagic
    case current => exact current_flush h.table.current hclear
    case names =>
      apply h.table.names.same
      intro j
      obtain ⟨d, hd⟩ := hfiles j
      change ((fsFlush s.sys).1.fs.files j).used = _ ∧ ((fsFlush s.sys).1.fs.files j).name = _
      rw [hd]
      exact ⟨rfl, rfl⟩
  case fated =>
    intro j name hkey htmpfs
    obtain ⟨d, hd⟩ := hfiles j
    have hk : ((fsFlush s.sys).1.fs.files j).key = (s.sys.fs.files j).key :=
      FSFile.key_congr (h.table.names.terminated j) (by rw [hd]) (by rw [hd])
    have ht : ((fsFlush s.sys).1.fs.files j).tmpfs = (s.sys.fs.files j).tmpfs := by rw [hd]
    exact h.fated j name (hk.symm.trans hkey) (ht.symm.trans htmpfs)

theorem sessionStep_inv {s : Session} {e : Event} (h : SessionInv s) (hg : sessionGuard s e) :
    SessionInv (sessionStep s e) := by
  obtain ⟨hcall, hkeep⟩ := hg
  cases e with
  | reload raw m => exact h.reload hkeep
  | op o =>
      obtain ⟨hfound, hheader, hclear⟩ := hkeep
      cases o with
      | write name text tick m => exact session_write h hfound
      | writeBin name bytes tick m => exact session_writeBin h hfound
      | writeTmp name bytes tick m => exact session_writeTmp h hfound hheader
      | delete name => exact session_delete h name
      | rename oldName newName tick => exact session_rename h hfound
      | flush => exact session_flush h hclear
      | _ => exact hcall.elim

theorem SessionStart.inv {s : Session} (h : SessionStart s) : SessionInv s := by
  obtain ⟨s₀, raw, m, hmagic, hempty, -, hs⟩ := h.1
  have hfs : s.sys.fs = { s₀ with files := fun i => loadSlot s₀.disk i (initSlot (raw i)) (m i) } := by
    rw [hs]
    simp only [boot, fsInit_magic hmagic]
  have hfree : ∀ i, (s.sys.fs.files i).used = 0 := by
    intro i
    rw [hfs]
    exact loadSlot_unused (hempty i)
  have hdisk : s.sys.fs.disk = s₀.disk := by rw [hfs]
  refine ⟨⟨?_, ?_, noFiles_names hfree⟩, ?_⟩
  · rw [hdisk]
    exact hmagic
  · intro i hne
    rw [hdisk] at hne
    exact absurd (hempty i) hne
  · intro i name hkey
    cases (FSFile.key_of_free (hfree i)).symm.trans hkey

/-- In every run that meets the condition a reboot finds only files that were last
written to be kept. -/
theorem no_resurrection {s : Session} (r : Reach SessionStart sessionGuard sessionStep s) :
    NoResurrection s :=
  (r.invariant (fun _ h => h.inv) fun _ _ h hg => sessionStep_inv h hg).noResurrection

def firstSession : Session := ⟨emptyFs, fun _ => .never⟩

theorem firstSession_start : SessionStart firstSession := ⟨emptyFs_formatted, rfl⟩

/-- The file `a` is stored. -/
def storedA : Session := sessionStep firstSession (.op (writeByte nameA))

theorem storedA_reach {guard : Session → Event → Prop}
    (h : guard firstSession (.op (writeByte nameA))) :
    Reach SessionStart guard sessionStep storedA :=
  Reach.next _ (Reach.start firstSession_start) h

theorem no_resurrection_one_file : NoResurrection storedA := by
  have hnew : ∀ j, (emptyFs.fs.files j).key ≠ some (storedName nameA) := by decide +kernel
  apply no_resurrection
  apply storedA_reach
  exact ⟨trivial, fun j hj => absurd hj (hnew j), trivial, trivial⟩

/-- The stored file `a` is written again, to tmpfs. -/
def hiddenA : Session := sessionStep storedA (.op (.writeTmp nameA [2] 0 (some 3)))

/-- The old file comes back: its header is still on the disk. -/
theorem hidden_file_comes_back :
    ¬ ∀ s, Reach SessionStart (fun _ e => sessionCall e) sessionStep s → NoResurrection s := by
  intro h
  have r : Reach SessionStart (fun _ e => sessionCall e) sessionStep hiddenA :=
    Reach.next (.op (.writeTmp nameA [2] 0 (some 3))) (storedA_reach trivial) trivial
  have hback : ((boot hiddenA.sys.fs (fun _ => blankFile) (fun _ => some 0)).fs.files 0).used ≠ 0 ∧
      hiddenA.fate ((boot hiddenA.sys.fs (fun _ => blankFile)
        (fun _ => some 0)).fs.files 0).nameStr = .temporary := by
    decide +kernel
  have hfate := h _ r _ _ 0 hback.1
  rw [hback.2] at hfate
  cases hfate

end OriaOS.Fs
