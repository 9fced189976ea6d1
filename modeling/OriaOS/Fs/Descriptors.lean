import OriaOS.Fs.Vfs

/-!
# Reads and writes at an offset

A file is a byte string, a descriptor is a name and an offset. A read delivers the
part behind the offset; a write overwrites it. This holds as long as the offset does
not lie behind the end of the file: the signed arithmetic of both functions and the
block that a write copies the file to are right for no other.
-/

namespace OriaOS.Fs

open OriaOS.Lib OriaOS.Sched
open OriaOS.Ipc (vfsMaxFd Fd)

variable {b : Buf} {name name' : CString} {j : Fd} {buf bytes : List UInt8} {m m' : Malloc}
  {s : Mfs3} {len n : Nat} {raw : Nat → UInt8} {i : Slot} {t : Tid} {size tick : UInt32}
  {f : VfsFd}

/-- The bytes of a file. -/
def content (s : Mfs3) (name : CString) : List UInt8 :=
  match fsReadBin s name with
  | some (some b, size) => (List.range size.toNat).map b.byte
  | _ => []

theorem content_congr {t : Mfs3} (h : fsReadBin t name = fsReadBin s name) :
    content t name = content s name := by
  rw [content, content, h]

theorem content_some (h : fsReadBin s name = some (some b, size)) :
    content s name = (List.range size.toNat).map b.byte := by
  rw [content, h]

/-! ## The files behind a write -/

/-- What a slot gives to a lookup of the name. -/
def FSFile.view (name : CString) (f : FSFile) : Option (Option Buf × UInt32) :=
  if f.isFile name then some (f.data, f.size) else none

theorem fsReadBin_view (s : Mfs3) (name : CString) :
    fsReadBin s name = (List.finRange maxFiles).findSome? fun i => (s.files i).view name := by
  unfold fsReadBin firstSlot
  induction List.finRange maxFiles with
  | nil => rfl
  | cons i l ih =>
      cases h : (s.files i).isFile name with
      | true => simp [FSFile.view, h]
      | false => simpa [FSFile.view, h] using ih

/-- The lookup depends on the views of the slots only. -/
theorem fsReadBin_congr {t : Mfs3} (h : ∀ k, (t.files k).view name = (s.files k).view name) :
    fsReadBin t name = fsReadBin s name := by
  rw [fsReadBin_view, fsReadBin_view]
  congr 1
  funext k
  exact h k

/-- The slot that a lookup comes to stays the first one. -/
theorem fsReadBin_of_first {t : Mfs3} (hi : firstSlot s.files (·.isFile name) = some i)
    (h : ∀ k, (t.files k).isFile name = (s.files k).isFile name) :
    fsReadBin t name = some ((t.files i).data, (t.files i).size) := by
  have hfirst : firstSlot t.files (·.isFile name) = some i := by
    rw [← hi, firstSlot, firstSlot]
    congr 1
    funext k
    exact h k
  rw [fsReadBin, hfirst]
  rfl

/-- The only slot of the name. -/
theorem fsReadBin_of_only {t : Mfs3} (hi : (t.files i).isFile name = true)
    (h : ∀ k, k ≠ i → (t.files k).isFile name = false) :
    fsReadBin t name = some ((t.files i).data, (t.files i).size) := by
  unfold fsReadBin
  cases hf : firstSlot t.files (·.isFile name) with
  | none =>
      rw [firstSlot_none hf i] at hi
      cases hi
  | some k =>
      by_cases hk : k = i
      · rw [hk]
        rfl
      · have hfile := firstSlot_some hf
        rw [h k hk] at hfile
        cases hfile

/-- Used names are terminated. -/
abbrev NamesEnd (s : Mfs3) : Prop := ∀ i, (s.files i).used ≠ 0 → (s.files i).Terminated

theorem view_of_unused {f : FSFile} (h : f.used = 0) (name : CString) : f.view name = none := by
  rw [FSFile.view, if_neg]
  intro hf
  exact (FSFile.key_eq_some.mp (FSFile.isFile_iff.mp hf).1).1 h

theorem view_of_key {f : FSFile} (h : f.key = some name) (hne : name' ≠ name) :
    f.view name' = none := by
  rw [FSFile.view, if_neg]
  intro hf
  exact hne (Option.some.inj ((FSFile.isFile_iff.mp hf).1.symm.trans h))

theorem key_of_first (hi : firstSlot s.files (·.isFile name) = some i) :
    (s.files i).key = some name :=
  (FSFile.isFile_iff.mp (firstSlot_some hi)).1

/-- One slot changes, and no lookup of the name comes to it before or after. -/
theorem fsReadBin_change {t : Mfs3} (hother : ∀ k, k ≠ i → t.files k = s.files k)
    (hs : (s.files i).view name = none) (ht : (t.files i).view name = none) :
    fsReadBin t name = fsReadBin s name := by
  apply fsReadBin_congr
  intro k
  by_cases hk : k = i
  · subst hk
    rw [hs, ht]
  · rw [hother k hk]

theorem save_other {k : Slot} (hk : k ≠ i) (g : FSFile) (o : Bool) :
    (diskSave (put { s with overflow := o } i g) i).files k = s.files k := by
  rw [diskSave_other hk, put_other hk]

theorem save_self (s : Mfs3) (i : Slot) (g : FSFile) (o : Bool) :
    ∃ d, (diskSave (put { s with overflow := o } i g) i).files i = { g with dirty := d } := by
  obtain ⟨d, hd⟩ := diskSave_files (put { s with overflow := o } i g) i i
  rw [put_self] at hd
  exact ⟨d, hd⟩

/-- The name a placed entry has. -/
theorem Placed.key {g : FSFile} (p : Placed s name i g) (h : NamesEnd s)
    (hlen : name.length ≤ maxName - 1) :
    g.Terminated ∧ g.isFile name = true ∧
      ((s.files i).key = some name ∨ (s.files i).used = 0) := by
  cases p with
  | found hi same =>
      have hends := h i (used_of_isFile hi)
      exact ⟨same.terminated hends, (same.isFile (fun _ => hends) name).trans (firstSlot_some hi),
        Or.inl (key_of_first hi)⟩
  | fresh hnone hfree hu hname hkind =>
      have hends : g.Terminated := terminated_of_filled hname
      have hkey := key_of_filled hu hname
      rw [storedName_of_le hlen] at hkey
      exact ⟨hends, FSFile.isFile_iff.mpr ⟨hkey, hkind⟩, Or.inr hfree⟩

theorem view_none {f : FSFile} (h : f.key = some name ∨ f.used = 0) (hne : name' ≠ name) :
    f.view name' = none :=
  h.elim (fun hk => view_of_key hk hne) fun hu => view_of_unused hu name'

/-- A placed entry leaves the files of other names. -/
theorem Placed.other {g : FSFile} {o : Bool} (p : Placed s name i g) (h : NamesEnd s)
    (hlen : name.length ≤ maxName - 1) (hne : name' ≠ name) :
    fsReadBin (diskSave (put { s with overflow := o } i g) i) name' = fsReadBin s name' := by
  obtain ⟨hends, hfile, hold⟩ := p.key h hlen
  apply fsReadBin_change (i := i) fun k hk => save_other hk g o
  · exact view_none hold hne
  · have hsame := diskSave_header_same (put { s with overflow := o } i g) i i
    rw [put_self] at hsame
    exact view_of_key ((hsame.key fun _ => hends).trans (FSFile.isFile_iff.mp hfile).1) hne

/-- A lookup finds the placed entry. -/
theorem Placed.read {g : FSFile} {o : Bool} (p : Placed s name i g) (h : NamesEnd s)
    (hlen : name.length ≤ maxName - 1) :
    fsReadBin (diskSave (put { s with overflow := o } i g) i) name = some (g.data, g.size) := by
  obtain ⟨hends, hfile, -⟩ := p.key h hlen
  obtain ⟨d, hd⟩ := save_self s i g o
  have hsame := diskSave_header_same (put { s with overflow := o } i g) i i
  rw [put_self] at hsame
  have hself := (hsame.isFile (fun _ => hends) name).trans hfile
  cases p with
  | found hi _ =>
      rw [fsReadBin_of_first hi, hd]
      intro k
      by_cases hk : k = i
      · subst hk
        rw [hself, firstSlot_some hi]
      · rw [save_other hk]
  | fresh hnone _ _ _ _ =>
      rw [fsReadBin_of_only hself, hd]
      intro k hk
      rw [save_other hk]
      exact firstSlot_none hnone k

/-- A binary write leaves the files of other names. -/
theorem fsWriteBin_other (h : NamesEnd s) (hlen : name.length ≤ maxName - 1) (hne : name' ≠ name) :
    fsReadBin (fsWriteBin s name bytes tick m).1 name' = fsReadBin s name' := by
  have hplaced := fsWriteBinInternal_placed s name bytes 0 tick m
  unfold fsWriteBin
  generalize fsWriteBinInternal s name bytes 0 tick m = r at hplaced ⊢
  cases hplaced with
  | same => rfl
  | held i g _ _ hg =>
      apply fsReadBin_change (i := i) fun k hk => put_other hk g
      · rcases hg.2 with ⟨hi, -⟩ | ⟨hfree, -⟩
        · exact view_of_key (key_of_first hi) hne
        · exact view_of_unused hfree name'
      · rw [put_self]
        rcases hg.2 with ⟨hi, hsame⟩ | ⟨-, hg⟩
        · exact view_of_key ((hsame.key fun _ => h i (used_of_isFile hi)).trans (key_of_first hi)) hne
        · exact view_of_unused hg name'
  | saved i g o hg => exact hg.1.other h hlen hne

theorem fsWriteBin_ok (tick : UInt32) (hlen : bytes.length ≤ maxBinData)
    (hb : binBuf bytes m = some b) (hslot : FileNamed s name ∨ ∃ i, (s.files i).used = 0) :
    (fsWriteBin s name bytes tick m).2 = 1 := by
  unfold fsWriteBin fsWriteBinInternal
  rw [if_neg (Nat.not_lt.mpr hlen), hb]
  split
  · rfl
  · next hnone =>
    split
    · rfl
    · next hfull =>
      rcases hslot with ⟨i, hi⟩ | ⟨i, hi⟩
      · rw [firstSlot_none hnone i] at hi
        cases hi
      · have hused := firstSlot_none hfull i
        simp [FSFile.isFree, hi] at hused

theorem binBuf_some (hpos : 0 < bytes.length) (hm : m ≠ none) : ∃ b, binBuf bytes m = some b := by
  obtain ⟨extra, rfl⟩ := Option.ne_none_iff_exists'.mp hm
  have hgrant : Malloc.grant (some extra) bytes.length = some (bytes.length + extra) := by
    rw [Malloc.grant, if_neg hpos.ne']
    rfl
  exact ⟨_, by rw [binBuf, hgrant]; rfl⟩

/-- A binary write that goes through. -/
theorem fsWriteBin_content (h : NamesEnd s) (hname : name.length ≤ maxName - 1)
    (hlen : bytes.length ≤ maxBinData) (hpos : 0 < bytes.length) (hm : m ≠ none)
    (hslot : FileNamed s name ∨ ∃ i, (s.files i).used = 0) :
    content (fsWriteBin s name bytes tick m).1 name = bytes := by
  obtain ⟨b, hb⟩ := binBuf_some hpos hm
  have hread : fsReadBin (fsWriteBin s name bytes tick m).1 name =
      some (some b, UInt32.ofNat bytes.length) := by
    have hplaced := fsWriteBinInternal_placed s name bytes 0 tick m
    have hok := fsWriteBin_ok tick hlen hb hslot
    unfold fsWriteBin at hok ⊢
    generalize fsWriteBinInternal s name bytes 0 tick m = r at hplaced hok ⊢
    cases hplaced with
    | same r hr => exact absurd hok hr
    | held i g r hr => exact absurd hok hr
    | saved i g o hg =>
        obtain ⟨hp, b', hslot'⟩ := hg
        cases hb.symm.trans hslot'.buffer
        rw [hp.read h hname, hslot'.data, hslot'.size]
  rw [content_some hread]
  obtain ⟨cap, -, rfl⟩ := Option.map_eq_some_iff.mp hb
  have hsize : (UInt32.ofNat bytes.length).toNat = bytes.length := by
    have hmax : maxBinData = 524288 := rfl
    rw [UInt32.toNat_ofNat']
    omega
  rw [hsize]
  apply List.ext_getElem
  · simp
  · intro k hk hk'
    simp [Buf.store, hk']

/-! ## Indices and offsets -/

theorem int32_of_lt {x : Int} (h0 : -2147483648 ≤ x) (h : x < 2147483648) : int32 x = x := by
  apply Int.bmod_eq_of_le
  · omega
  · omega

theorem index_eq {k : Nat} (h : f.offset.toNat + k < 4294967296) :
    f.index k = f.offset.toNat + k := by
  rw [VfsFd.index, UInt32.toNat_add, UInt32.toNat_ofNat']
  omega

theorem offset_add {a : UInt32} (h : a.toNat + n < 4294967296) :
    (a + UInt32.ofNat n).toNat = a.toNat + n := by
  rw [UInt32.toNat_add, UInt32.toNat_ofNat']
  omega

theorem pos_eq (h : f.offset.toNat < 2147483648) : f.pos = f.offset.toNat :=
  int32_of_lt (by omega) (by omega)

/-- The store loop puts the bytes behind the offset and changes nothing else. -/
theorem storeLoop_eq (f : VfsFd) (buf : List UInt8) (k : Nat) (tmp : Nat → UInt8)
    (h : f.offset.toNat + (k + buf.length) < 4294967296) :
    (∀ i, ∀ hi : i < buf.length, storeLoop f buf k tmp (f.offset.toNat + (k + i)) = buf[i]) ∧
      ∀ a, a < f.offset.toNat + k ∨ f.offset.toNat + (k + buf.length) ≤ a →
        storeLoop f buf k tmp a = tmp a := by
  induction buf generalizing k tmp with
  | nil => exact ⟨fun i hi => absurd hi (Nat.not_lt_zero i), fun _ _ => rfl⟩
  | cons c rest ih =>
      simp only [List.length_cons] at h ⊢
      have hidx : f.index k = f.offset.toNat + k := index_eq (by omega)
      obtain ⟨hin, hout⟩ := ih (k + 1) (Function.update tmp (f.index k) c) (by omega)
      constructor
      · intro i hi
        cases i with
        | zero =>
            rw [storeLoop, hout _ (Or.inl (by omega)), Nat.add_zero, hidx, Function.update_self]
            rfl
        | succ i =>
            have hstep := hin i (Nat.lt_of_succ_lt_succ hi)
            rw [show f.offset.toNat + (k + (i + 1)) = f.offset.toNat + (k + 1 + i) by omega]
            exact hstep
      · intro a ha
        rw [storeLoop, hout a (by omega), Function.update_of_ne]
        omega

/-! ## Reading -/

namespace Vfs

/-- The bytes of the file of a descriptor. -/
def fileOf (s : Vfs) (t : Tid) (j : Fd) : List UInt8 := content s.fs (s.fds t j).name

end Vfs

/-- What a read of a descriptor does: the part of the file behind the offset is
delivered, and the offset moves behind it. -/
structure ReadOk (s : Vfs) (t : Tid) (j : Fd) (len : Nat) (r : Vfs × Int × List UInt8) :
    Prop where
  inside : r.1.outside = s.outside
  refused : (s.fds t j).flags &&& oRdwr = 0 → r = (s, -1, [])
  bytes : (s.fds t j).flags &&& oRdwr ≠ 0 →
    r.2.2 = ((s.fileOf t j).drop (s.fds t j).offset.toNat).take len
  count : (s.fds t j).flags &&& oRdwr ≠ 0 → r.2.1 = r.2.2.length
  moved : (r.1.fds t j).offset.toNat = (s.fds t j).offset.toNat + r.2.2.length
  kept : r.1.fs = s.fs ∧ ∀ u k, (u, k) ≠ (t, j) → r.1.fds u k = s.fds u k

/-- The table between the calls: names are terminated, the buffers hold the files, and
no file is larger than a file can be. -/
structure FilesInv (s : Mfs3) : Prop where
  names : NamesEnd s
  heap : HeapOk s
  small : ∀ i b, (s.files i).data = some b → (s.files i).size.toNat ≤ maxBinData

/-- The buffer that a lookup finds. -/
theorem FilesInv.found (h : FilesInv s) (hread : fsReadBin s name = some (some b, size)) :
    size.toNat ≤ b.cap ∧ size.toNat ≤ maxBinData := by
  obtain ⟨i, -, heq⟩ := Option.map_eq_some_iff.mp hread
  rw [Prod.mk.injEq] at heq
  obtain ⟨hdata, rfl⟩ := heq
  exact ⟨(h.heap.slots i).fits b hdata, h.small i b hdata⟩

theorem setFd_fd (s : Vfs) (t : Tid) (j : Fd) (f : VfsFd) : (s.setFd t j f).fds t j = f := by
  simp [Vfs.setFd]

theorem setFd_fd_other {s : Vfs} {u : Tid} {k : Fd} (h : (u, k) ≠ (t, j)) (f : VfsFd) :
    (s.setFd t j f).fds u k = s.fds u k := by
  by_cases hut : u = t
  · subst hut
    have hkj : k ≠ j := fun he => h (congrArg _ he)
    simp [Vfs.setFd, hkj]
  · simp [Vfs.setFd, hut]

/-- A read that delivers nothing. -/
theorem readOk_empty {s : Vfs} (hmode : (s.fds t j).flags &&& oRdwr ≠ 0)
    (h : ((s.fileOf t j).drop (s.fds t j).offset.toNat).take len = []) :
    ReadOk s t j len (s, 0, []) where
  inside := rfl
  refused := fun h0 => absurd h0 hmode
  bytes := fun _ => h.symm
  count := fun _ => rfl
  moved := rfl
  kept := ⟨rfl, fun _ _ _ => rfl⟩

/-- The condition of a read: the offset is not negative as an `int`, unless there is
nothing to read. -/
def readFits (s : Vfs) (t : Tid) (j : Fd) (len : Nat) : Prop :=
  (s.fds t j).offset.toNat < 2147483648 ∨ s.fileOf t j = [] ∨ len = 0

/-- A read of `n` bytes that lie in the file. -/
theorem readOk_some {s : Vfs} (h : FilesInv s.fs) (hmode : (s.fds t j).flags &&& oRdwr ≠ 0)
    (hread : fsReadBin s.fs (s.fds t j).name = some (some b, size))
    (hlen : n = min (size.toNat - (s.fds t j).offset.toNat) len) :
    ReadOk s t j len
      ({ s with outside := s.outside ||
          (List.range n).any fun k => decide (b.cap ≤ (s.fds t j).index k) }.setFd t j
          { s.fds t j with offset := (s.fds t j).offset + UInt32.ofNat n },
        n, (List.range n).map fun k => b.byte ((s.fds t j).index k)) := by
  obtain ⟨hcap, hmax⟩ := h.found hread
  have hmaxBin : maxBinData = 524288 := rfl
  have hfile : s.fileOf t j = (List.range size.toNat).map b.byte := content_some hread
  have hoff := (s.fds t j).offset.toNat_lt
  have hindex : ∀ k, k < n → (s.fds t j).index k = (s.fds t j).offset.toNat + k :=
    fun k hk => index_eq (by omega)
  constructor
  case inside =>
    have hout : ((List.range n).any fun k => decide (b.cap ≤ (s.fds t j).index k)) = false := by
      rw [List.any_eq_false]
      intro k hk
      have hkn := List.mem_range.mp hk
      rw [hindex k hkn, decide_eq_true_eq]
      omega
    change (s.outside || _) = s.outside
    rw [hout, Bool.or_false]
  case refused => exact fun h0 => absurd h0 hmode
  case bytes =>
    intro _
    apply List.ext_getElem
    · simp [hfile, hlen, Nat.min_comm]
    · intro k hk _
      have hkn : k < n := by simpa using hk
      simp [hfile, hindex k hkn]
  case count => simp
  case moved =>
    rw [setFd_fd]
    dsimp only
    rw [List.length_map, List.length_range, offset_add]
    omega
  case kept => exact ⟨rfl, fun u k hne => setFd_fd_other hne _⟩

theorem vfsReadFile_ok {s : Vfs} (h : FilesInv s.fs)
    (hmay : (s.fds t j).flags &&& oRdwr ≠ 0 → readFits s t j len) :
    ReadOk s t j len (vfsReadFile s t j len) := by
  have hmask : oRdonly ||| oRdwr = oRdwr := by decide
  unfold vfsReadFile
  dsimp only
  rw [hmask]
  split
  · next hmode =>
    exact ⟨rfl, fun _ => rfl, fun h => absurd hmode h, fun h => absurd hmode h, rfl, rfl,
      fun _ _ _ => rfl⟩
  · next hmode =>
    have hfits := hmay hmode
    split
    · next b size hread =>
      obtain ⟨hcap, hmax⟩ := h.found hread
      have hfile : s.fileOf t j = (List.range size.toNat).map b.byte := content_some hread
      have hmaxBin : maxBinData = 524288 := rfl
      have hsize : int32 size.toNat = size.toNat := int32_of_lt (by omega) (by omega)
      have hrem : (s.fds t j).offset.toNat < 2147483648 →
          int32 (int32 size.toNat - (s.fds t j).pos) =
            (size.toNat : Int) - (s.fds t j).offset.toNat := by
        intro hoff
        rw [hsize, pos_eq hoff]
        exact int32_of_lt (by omega) (by omega)
      split
      · next hnothing =>
        apply readOk_empty hmode
        rcases hfits with hoff | hempty | hlen
        · rw [hrem hoff] at hnothing
          rw [hfile, List.drop_eq_nil_of_le, List.take_nil]
          simp only [List.length_map, List.length_range]
          rcases hnothing with h0 | hle
          · simp [h0]
          · omega
        · simp [hempty]
        · simp [hlen]
      · next hsome =>
        rw [not_or, not_le] at hsome
        apply readOk_some h hmode hread
        rcases hfits with hoff | hempty | hlen
        · rw [hrem hoff] at hsome ⊢
          split <;> omega
        · rw [hfile, List.map_eq_nil_iff, List.range_eq_nil] at hempty
          exact absurd (UInt32.toNat_inj.mp hempty) hsome.1
        · rw [if_neg (by omega), hlen, Nat.min_zero]
    · next hnone =>
      apply readOk_empty hmode
      have hfile : s.fileOf t j = [] := by
        unfold Vfs.fileOf content
        split
        · next b size hread => exact absurd hread (hnone b size)
        · rfl
      simp [hfile]

/-! ## Writing -/

/-- What a write does: it fails and changes nothing, or it overwrites the part of the
file behind the offset with the bytes it counts, and the offset moves behind them. -/
structure WriteOk (s : Vfs) (t : Tid) (j : Fd) (buf : List UInt8) (r : Vfs × Int) : Prop where
  inside : r.1.outside = s.outside
  range : -1 ≤ r.2 ∧ r.2 ≤ buf.length
  failed : r.2 = -1 → r.1 = s
  bytes : ∀ n : Nat, r.2 = n →
    r.1.fileOf t j = overwrite (s.fileOf t j) (s.fds t j).offset.toNat (buf.take n)
  moved : ∀ n : Nat, r.2 = n →
    (r.1.fds t j).offset.toNat = (s.fds t j).offset.toNat + n
  files : ∀ name, name ≠ (s.fds t j).name → content r.1.fs name = content s.fs name
  kept : ∀ u k, (u, k) ≠ (t, j) → r.1.fds u k = s.fds u k

/-- Files without a buffer are empty. -/
def NoneEmpty (s : Mfs3) : Prop :=
  ∀ i, (s.files i).used ≠ 0 → (s.files i).isDir = false → (s.files i).data = none →
    (s.files i).size = 0

/-- A file of that name without a buffer is empty. -/
def BytesHeld (s : Mfs3) (name : CString) : Prop :=
  ∀ size, fsReadBin s name = some (none, size) → size = 0

theorem NoneEmpty.held (h : NoneEmpty s) (name : CString) : BytesHeld s name := by
  intro size hread
  obtain ⟨i, hi, heq⟩ := Option.map_eq_some_iff.mp hread
  rw [Prod.mk.injEq] at heq
  rw [← heq.2]
  exact h i (used_of_isFile hi) (FSFile.isFile_iff.mp (firstSlot_some hi)).2 heq.1

/-- The condition of a write that gets the block for its copy: the block holds zeros
between the end of the file and the offset, the offset does not lie at the end of the
largest file or behind it, the sum with the length is an `int`, and what is written back
finds a block and a slot. -/
def writeFitsAt (s : Vfs) (t : Tid) (j : Fd) (buf : List UInt8) (raw : Nat → UInt8)
    (m' : Malloc) : Prop :=
  (∀ a, (s.fileOf t j).length ≤ a → a < (s.fds t j).offset.toNat → raw a = 0) ∧
    (s.fds t j).offset.toNat < maxBinData ∧
    (s.fds t j).offset.toNat + buf.length < 2147483648 ∧
    (0 < (s.fileOf t j).length + (s.fds t j).offset.toNat + buf.length →
      m' ≠ none ∧ (FileNamed s.fs (s.fds t j).name ∨ ∃ i, (s.fs.files i).used = 0))

/-- The buffer and the size that a write finds. -/
theorem FilesInv.existing (h : FilesInv s) (he : BytesHeld s name) :
    ∃ (existing : Option Buf) (size : Nat),
      (fsReadBin s name).bind Prod.fst = existing ∧
      (((fsReadBin s name).map Prod.snd).getD 0).toNat = size ∧
      size ≤ (existing.map Buf.cap).getD 0 ∧ size ≤ maxBinData ∧
      (content s name).length = size ∧
      (∀ raw a, ∀ ha : a < (content s name).length,
        copyFile existing size raw a = (content s name)[a]) ∧
      ∀ raw a, (content s name).length ≤ a → copyFile existing size raw a = raw a := by
  cases hread : fsReadBin s name with
  | none =>
      have hc : content s name = [] := by rw [content, hread]
      refine ⟨none, 0, rfl, rfl, Nat.zero_le _, Nat.zero_le _, by simp [hc], ?_, fun _ _ _ => rfl⟩
      intro raw a ha
      simp [hc] at ha
  | some found =>
      obtain ⟨data, size⟩ := found
      cases data with
      | none =>
          have hsize : size = 0 := he size hread
          have hc : content s name = [] := by rw [content, hread]
          refine ⟨none, 0, rfl, by simp [hsize], Nat.zero_le _, Nat.zero_le _, by simp [hc], ?_,
            fun _ _ _ => rfl⟩
          intro raw a ha
          simp [hc] at ha
      | some b =>
          obtain ⟨hcap, hmax⟩ := h.found hread
          have hc := content_some hread
          refine ⟨some b, size.toNat, rfl, rfl, hcap, hmax, by simp [hc], ?_, ?_⟩
          · intro raw a ha
            have hlt : a < size.toNat := by simpa [hc] using ha
            simp [copyFile, hlt, hc]
          · intro raw a ha
            have hle : size.toNat ≤ a := by simpa [hc] using ha
            simp [copyFile, hle]

theorem toNat_ofInt (h : n < 4294967296) : (UInt32.ofInt n).toNat = n := by
  rw [UInt32.ofInt, UInt32.toNat_ofNat']
  omega

/-- Writing nothing to an empty file leaves it empty. -/
theorem fsWriteBin_nothing (h : NamesEnd s) (hempty : content s name = []) :
    content (fsWriteBin s name [] tick m).1 name = [] := by
  have hplaced := fsWriteBinInternal_placed s name [] 0 tick m
  have hnone : binBuf [] m = none := rfl
  unfold fsWriteBin
  have hfound : ∀ i, firstSlot s.files (·.isFile name) = some i →
      (fsWriteBinInternal s name [] 0 tick m).1 = put s i { s.files i with data := none } := by
    intro i hi
    simp only [fsWriteBinInternal, hi, hnone]
    rfl
  cases hi : firstSlot s.files (·.isFile name) with
  | some i =>
      rw [hfound i hi, content, fsReadBin_of_first (i := i) hi]
      · simp [put_self]
      · intro k
        by_cases hk : k = i
        · subst hk
          rw [put_self]
          exact SameHeader.isFile ⟨rfl, rfl, rfl⟩ (h k) name
        · rw [put_other hk]
  | none =>
      generalize fsWriteBinInternal s name [] 0 tick m = r at hplaced ⊢
      cases hplaced with
      | same => exact hempty
      | held i g _ _ hg =>
          rcases hg.2 with ⟨hfirst, -⟩ | ⟨hfree, hgfree⟩
          · rw [hi] at hfirst
            cases hfirst
          · rw [content_congr, hempty]
            apply fsReadBin_change (i := i) fun k hk => put_other hk g
            · exact view_of_unused hfree name
            · rw [put_self]
              exact view_of_unused hgfree name
      | saved i g o hg =>
          obtain ⟨b, hb⟩ := hg.2
          cases hnone.symm.trans hb.buffer

/-- What is written back is the content of the file. -/
theorem fsWriteBin_back (h : NamesEnd s) (hname : name.length ≤ maxName - 1)
    (hlen : bytes.length ≤ maxBinData) (hmore : (content s name).length ≤ bytes.length)
    (hroom : 0 < bytes.length → m ≠ none ∧ (FileNamed s name ∨ ∃ i, (s.files i).used = 0)) :
    content (fsWriteBin s name bytes tick m).1 name = bytes := by
  rcases Nat.eq_zero_or_pos bytes.length with hzero | hpos
  · have hnil := List.length_eq_zero_iff.mp hzero
    rw [hzero, Nat.le_zero, List.length_eq_zero_iff] at hmore
    rw [hnil]
    exact fsWriteBin_nothing h hmore
  · obtain ⟨hm, hslot⟩ := hroom hpos
    exact fsWriteBin_content h hname hlen hpos hm hslot

/-- The part of a write that fits. -/
theorem writeLen_eq (hmax : f.offset.toNat < maxBinData)
    (hsum : f.offset.toNat + len < 2147483648) :
    writeLen f len = (min len (maxBinData - 1 - f.offset.toNat) : Nat) ∧
      writeEnd f len = (f.offset.toNat + min len (maxBinData - 1 - f.offset.toNat) : Nat) := by
  have hmaxBin : maxBinData = 524288 := rfl
  have hpos : f.pos = f.offset.toNat := pos_eq (by omega)
  have hstop : int32 (f.pos + len) = f.offset.toNat + len := by
    rw [hpos]
    exact int32_of_lt (by omega) (by omega)
  have hrest : int32 (lastByte - f.pos) = lastByte - f.offset.toNat := by
    rw [hpos, lastByte]
    exact int32_of_lt (by omega) (by omega)
  unfold writeLen writeEnd
  dsimp only
  rw [hstop, hrest, lastByte]
  constructor
  · split <;> omega
  · split <;> omega

/-- Where a write ends. -/
theorem writeEnd_le {off size : Nat} (len : Nat) (hmax : off < maxBinData) (hsize : size ≤ maxBinData) :
    off + min len (maxBinData - 1 - off) < maxBinData ∧
      max size (off + min len (maxBinData - 1 - off)) ≤ maxBinData := by
  omega

/-- A write that ends behind 0 has something to write back. -/
theorem write_pos {off size : Nat} (hn : n ≤ len) (h : 0 < max size (off + n)) :
    0 < size + off + len := by
  omega

/-- The bytes that a write stores back. -/
theorem storeLoop_overwrite (f : VfsFd) (buf old : List UInt8) (mem : Nat → UInt8)
    (h : f.offset.toNat + buf.length < 4294967296)
    (hcopy : ∀ a, ∀ ha : a < old.length, mem a = old[a])
    (hgap : ∀ a, old.length ≤ a → a < f.offset.toNat → mem a = 0) :
    (List.range (max old.length (f.offset.toNat + buf.length))).map (storeLoop f buf 0 mem) =
      overwrite old f.offset.toNat buf := by
  obtain ⟨hin, hout⟩ := storeLoop_eq f buf 0 mem (by omega)
  rw [Nat.zero_add] at hout
  apply map_range_eq_overwrite
  · intro a hold hlow
    rw [hout a (Or.inl hlow)]
    exact hgap a hold hlow
  · intro k hk
    have hstored := hin k hk
    rw [Nat.zero_add] at hstored
    exact hstored
  · intro a ha hside
    rw [hout a hside]
    exact hcopy a ha

theorem writeOk_refused (s : Vfs) (t : Tid) (j : Fd) (buf : List UInt8) :
    WriteOk s t j buf (s, -1) where
  inside := rfl
  range := ⟨le_refl _, by simp only; omega⟩
  failed := fun _ => rfl
  bytes := fun n hn => by simp at hn
  moved := fun n hn => by simp at hn
  files := fun _ _ => rfl
  kept := fun _ _ _ => rfl

/-- The state behind a write of `n` bytes. -/
def Vfs.written (s : Vfs) (t : Tid) (j : Fd) (buf : List UInt8) (n : Nat) (m' : Malloc)
    (tick : UInt32) : Vfs :=
  let bytes := overwrite (s.fileOf t j) (s.fds t j).offset.toNat (buf.take n)
  { s with fs := (fsWriteBin s.fs (s.fds t j).name bytes tick m').1 }.setFd t j
    { s.fds t j with offset := (s.fds t j).offset + UInt32.ofInt n }

/-- A write fails, or it writes back the file with the bytes that fit. -/
theorem vfsWriteFile_eq {s : Vfs} (tick : UInt32) (h : FilesInv s.fs)
    (he : BytesHeld s.fs (s.fds t j).name)
    (hfits : (s.fds t j).flags &&& oRdwr ≠ 0 → m ≠ none → writeFitsAt s t j buf raw m') :
    vfsWriteFile s t j buf m raw m' tick = (s, -1) ∨
      writeFitsAt s t j buf raw m' ∧ ∃ n : Nat, n ≤ buf.length ∧
        (s.fds t j).offset.toNat + n < maxBinData ∧
        (overwrite (s.fileOf t j) (s.fds t j).offset.toNat (buf.take n)).length ≤ maxBinData ∧
        vfsWriteFile s t j buf m raw m' tick = (s.written t j buf n m' tick, (n : Int)) := by
  have hmask : oWronly ||| oRdwr = oRdwr := by decide
  unfold vfsWriteFile
  dsimp only
  rw [hmask]
  split
  · exact Or.inl rfl
  · next hmode =>
    split
    · exact Or.inl rfl
    · next cap hgrant =>
      have hm : m ≠ none := by
        rintro rfl
        simp [Malloc.grant] at hgrant
      have hfit := hfits hmode hm
      obtain ⟨hgap, hmax, hsum, -⟩ := id hfit
      have hblock := Malloc.le_of_grant hgrant
      obtain ⟨existing, size, hex, hsz, hcap, hsmall, hlen, hcopy, hraw⟩ :=
        h.existing he
      have hold : (s.fileOf t j).length = size := hlen
      obtain ⟨hcount, hend⟩ := writeLen_eq hmax hsum
      have hmaxBin : maxBinData = 524288 := rfl
      obtain ⟨hreach, hback⟩ := writeEnd_le buf.length hmax hsmall
      have hword : maxBinData < 4294967296 := by decide
      rw [hex, hsz, hcount, hend]
      have hnlen := Nat.min_le_left buf.length (maxBinData - 1 - (s.fds t j).offset.toNat)
      generalize min buf.length (maxBinData - 1 - (s.fds t j).offset.toNat) = n at *
      have htake : (buf.take n).length = n := List.length_take_of_le hnlen
      have hsizeInt : int32 (size : Int) = size := int32_of_lt (by omega) (by omega)
      have htotal : max (int32 (size : Int)) ((s.fds t j).offset.toNat + n : Nat) =
          (max size ((s.fds t j).offset.toNat + n) : Nat) := by
        rw [hsizeInt, Nat.cast_max]
      have hcopyLen : min (int32 (size : Int)).toNat maxBinData = size := by
        rw [hsizeInt, Int.toNat_natCast]
        exact Nat.min_eq_left hsmall
      have htotalNat : (UInt32.ofInt (max size ((s.fds t j).offset.toNat + n) : Nat)).toNat =
          max size ((s.fds t j).offset.toNat + n) := toNat_ofInt (hback.trans_lt hword)
      have hbytes : (List.range (max size ((s.fds t j).offset.toNat + n))).map
          (storeLoop (s.fds t j) (buf.take n) 0 (copyFile existing size raw)) =
            overwrite (s.fileOf t j) (s.fds t j).offset.toNat (buf.take n) := by
        have hstore := storeLoop_overwrite (s.fds t j) (buf.take n) (s.fileOf t j)
          (copyFile existing size raw)
          (by rw [htake]; exact hreach.trans hword) (hcopy raw)
          fun a hbehind hlow => (hraw raw a hbehind).trans (hgap a hbehind hlow)
        rw [htake, hold] at hstore
        exact hstore
      have hindex : ∀ k, k < n → (s.fds t j).index k = (s.fds t j).offset.toNat + k := by
        intro k hk
        exact index_eq ((Nat.add_lt_add_left hk _).trans (hreach.trans hword))
      have hout : (decide ((existing.map Buf.cap).getD 0 < size) ||
          (List.range n).any (fun k => decide (cap ≤ (s.fds t j).index k)) ||
          decide (buf.length < n)) = false := by
        rw [Bool.or_eq_false_iff, Bool.or_eq_false_iff, decide_eq_false_iff_not,
          decide_eq_false_iff_not, List.any_eq_false]
        refine ⟨⟨Nat.not_lt.mpr hcap, ?_⟩, Nat.not_lt.mpr hnlen⟩
        intro k hk
        have hkn := List.mem_range.mp hk
        rw [hindex k hkn, decide_eq_true_eq, Nat.not_le]
        exact ((Nat.add_lt_add_left hkn _).trans hreach).trans_le hblock
      refine Or.inr ⟨hfit, n, hnlen, hreach, ?_, ?_⟩
      · rw [length_overwrite, htake, hold]
        exact hback
      · rw [htotal, hcopyLen, Int.toNat_natCast, htotalNat, hbytes, hout, Bool.or_false]
        rfl

/-- What a write back finds. -/
theorem writeFitsAt.back {s : Vfs} (h : writeFitsAt s t j buf raw m')
    (hpos : 0 < (overwrite (s.fileOf t j) (s.fds t j).offset.toNat (buf.take n)).length) :
    m' ≠ none ∧ (FileNamed s.fs (s.fds t j).name ∨ ∃ i, (s.fs.files i).used = 0) := by
  apply h.2.2.2
  rw [length_overwrite] at hpos
  exact write_pos (List.length_take_le' n buf) hpos

theorem vfsWriteFile_ok {s : Vfs} (tick : UInt32) (h : FilesInv s.fs)
    (he : BytesHeld s.fs (s.fds t j).name) (hname : (s.fds t j).name.length ≤ maxName - 1)
    (hfits : (s.fds t j).flags &&& oRdwr ≠ 0 → m ≠ none → writeFitsAt s t j buf raw m') :
    WriteOk s t j buf (vfsWriteFile s t j buf m raw m' tick) := by
  rcases vfsWriteFile_eq tick h he hfits with hr | ⟨hfit, n, hlen, hreach, hmax, hr⟩
  · rw [hr]
    exact writeOk_refused s t j buf
  · have hword : maxBinData < 4294967296 := by decide
    rw [hr]
    constructor
    case inside => rfl
    case range => exact ⟨by simp only; omega, by simp only; omega⟩
    case failed =>
      intro hn
      simp only at hn
      omega
    case bytes =>
      intro k hk
      obtain rfl : n = k := Int.ofNat.inj hk
      unfold Vfs.written
      rw [Vfs.fileOf, setFd_fd]
      apply fsWriteBin_back h.names hname hmax
      · rw [length_overwrite]
        exact Nat.le_max_left _ _
      · exact hfit.back
    case moved =>
      intro k hk
      obtain rfl : n = k := Int.ofNat.inj hk
      have hn : (UInt32.ofInt (n : Int)).toNat = n :=
        toNat_ofInt ((Nat.le_add_left n _).trans_lt (hreach.trans hword))
      unfold Vfs.written
      rw [setFd_fd]
      dsimp only
      rw [UInt32.toNat_add, hn]
      exact Nat.mod_eq_of_lt (hreach.trans hword)
    case files => exact fun name hne => content_congr (fsWriteBin_other h.names hname hne)
    case kept => exact fun u k hne => setFd_fd_other hne _

/-! ## Runs -/

/-- A slot with a buffer is not larger than a file can be. -/
def SlotSmall (f : FSFile) : Prop := ∀ b, f.data = some b → f.size.toNat ≤ maxBinData

/-- A file without a buffer is empty. -/
def SlotEmpty (f : FSFile) : Prop := f.used ≠ 0 → f.isDir = false → f.data = none → f.size = 0

theorem createFor_files (h : FilesInv s) (path : CString) (tick : UInt32) (m : Malloc) :
    FilesInv (createFor s path tick m) := by
  unfold createFor
  split
  · exact h
  · next hnone =>
    constructor
    case names =>
      exact Edit.terminated
        ((fsWrite_fills s path emptyText tick m).weaken (fun _ _ hg => hg.1)
          fun _ _ _ hg => hg.1) h.names
    case heap =>
      apply fsWrite_heapOk h.heap
      intro _ i b hi hb
      rw [fsRead, fsReadBin, hi, Option.map_some, Option.bind_some, hb] at hnone
      cases hnone
    case small =>
      apply (fsWrite_edit s path emptyText tick m).slots (P := SlotSmall)
      · exact fun _ _ hf => hf
      · exact h.small
      · rintro i g ⟨-, -, hdata, hsize⟩ b hb
        rw [hsize]
        exact h.small i b (hdata ▸ hb)
      · rintro i g o ⟨b, ht, -⟩ _ _
        rw [ht.size]
        decide

theorem createFor_noneEmpty (h : NoneEmpty s) (path : CString) (tick : UInt32) (m : Malloc) :
    NoneEmpty (createFor s path tick m) := by
  unfold createFor
  split
  · exact h
  · apply (fsWrite_edit s path emptyText tick m).slots (P := SlotEmpty)
    · exact fun _ _ hf => hf
    · exact h
    · rintro i g ⟨-, hg, -⟩ hu
      exact absurd hg hu
    · rintro i g o ⟨b, ht, -⟩ - - hdata
      rw [ht.data] at hdata
      cases hdata

theorem fsWriteBin_files (h : FilesInv s) (name : CString) (bytes : List UInt8) (tick : UInt32)
    (m : Malloc) : FilesInv (fsWriteBin s name bytes tick m).1 where
  names := Edit.terminated
    ((fsWriteBinInternal_fills s name bytes 0 tick m).weaken (fun _ _ hg => hg.1)
      fun _ _ _ hg => hg.1) h.names
  heap := fsWriteBinInternal_heapOk h.heap
  small := by
    apply (fsWriteBinInternal_edit s name bytes 0 tick m).slots (P := SlotSmall)
    · exact fun _ _ hf => hf
    · exact h.small
    · rintro i g ⟨hdata, -⟩ b hb
      rw [hdata] at hb
      cases hb
    · rintro i g o ⟨b, hb, -⟩ _ _
      rw [hb.size]
      exact (Nat.mod_le _ _).trans hb.short

/-- A write back that finds a block leaves no file without one. -/
theorem fsWriteBin_noneEmpty (h : NoneEmpty s) (hmore : (content s name).length ≤ bytes.length)
    (hm : 0 < bytes.length → m ≠ none) : NoneEmpty (fsWriteBin s name bytes tick m).1 := by
  apply (fsWriteBinInternal_edit s name bytes 0 tick m).slots (P := SlotEmpty)
  · exact fun _ _ hf => hf
  · exact h
  · rintro i g ⟨-, ⟨-, hg⟩ | ⟨hi, -, hnone, rfl⟩⟩ hu hdir -
    · exact absurd hg hu
    · have hnil : bytes.length = 0 := by
        by_contra hne
        obtain ⟨b, hb⟩ := binBuf_some (show 0 < bytes.length from Nat.pos_of_ne_zero hne)
          (hm (Nat.pos_of_ne_zero hne))
        rw [hb] at hnone
        cases hnone
      rw [hnil, Nat.le_zero, List.length_eq_zero_iff] at hmore
      cases hdata : (s.files i).data with
      | none => exact h i hu hdir hdata
      | some b =>
          have hread : fsReadBin s name = some (some b, (s.files i).size) := by
            rw [fsReadBin, hi, ← hdata]
            rfl
          rw [content_some hread, List.map_eq_nil_iff, List.range_eq_nil] at hmore
          exact UInt32.toNat_inj.mp hmore
  · rintro i g o ⟨b, hb, -⟩ - - hdata
    rw [hb.data] at hdata
    cases hdata

/-- What holds of the descriptors and the table between any calls. -/
structure FdsInv (s : Vfs) : Prop where
  files : FilesInv s.fs
  names : ∀ t j, (s.fds t j).IsFile → (s.fds t j).name.length ≤ maxName - 1

theorem FdsInv.setFd {s : Vfs} (h : FdsInv s) (hf : f.IsFile → f.name.length ≤ maxName - 1) :
    FdsInv (s.setFd t j f) where
  files := h.files
  names := by
    intro u k
    by_cases hk : (u, k) = (t, j)
    · obtain ⟨rfl, rfl⟩ := Prod.mk.inj hk
      rw [setFd_fd]
      exact hf
    · rw [setFd_fd_other hk]
      exact h.names u k

/-- A descriptor that keeps its file. -/
theorem FdsInv.moveFd {s : Vfs} (h : FdsInv s) (hf : f.IsFile → (s.fds t j).IsFile)
    (hname : f.name = (s.fds t j).name) : FdsInv (s.setFd t j f) :=
  h.setFd fun hfile => hname ▸ h.names t j (hf hfile)

/-- An open fails, or it sets one descriptor; only an open that may create a file goes
to the table. -/
theorem vfsOpen_cases (s : Vfs) (t : Tid) (path : CString) (flags tick : UInt32) (m : Malloc) :
    vfsOpen s t path flags tick m = (s, -1) ∨
      ∃ fs f, ∃ j : Fd, vfsOpen s t path flags tick m =
          ({ s with fs := fs }.setFd t j f, (j.val : Int)) ∧
        (fs = s.fs ∨ flags &&& oCreate ≠ 0 ∧ fs = createFor s.fs path tick m) ∧
        (f.IsFile → f.name = storedName path) := by
  unfold vfsOpen
  split
  · split
    · exact Or.inl rfl
    · exact Or.inr ⟨s.fs, _, _, rfl, Or.inl rfl, fun hf => by cases hf.2⟩
  · split
    · split
      · exact Or.inr ⟨s.fs, _, _, rfl, Or.inl rfl, fun hf => by cases hf.2⟩
      · exact Or.inl rfl
    · split
      · exact Or.inl rfl
      · dsimp only
        split
        · next hcreate => exact Or.inr ⟨_, _, _, rfl, Or.inr ⟨hcreate, rfl⟩, fun _ => rfl⟩
        · split
          · exact Or.inl rfl
          · exact Or.inr ⟨s.fs, _, _, rfl, Or.inl rfl, fun _ => rfl⟩

/-- A read moves the offset and notes an access behind the end. -/
theorem vfsReadFile_step (s : Vfs) (t : Tid) (j : Fd) (len : Nat) :
    (vfsReadFile s t j len).1 = s ∨ ∃ out offset, (vfsReadFile s t j len).1 =
      { s with outside := out }.setFd t j { s.fds t j with offset := offset } := by
  unfold vfsReadFile
  dsimp only
  split
  · exact Or.inl rfl
  · split
    · split
      · exact Or.inl rfl
      · exact Or.inr ⟨_, _, rfl⟩
    · exact Or.inl rfl

/-- A write moves the offset and writes some bytes back. -/
theorem vfsWriteFile_step (s : Vfs) (t : Tid) (j : Fd) (buf : List UInt8) (m : Malloc)
    (raw : Nat → UInt8) (m' : Malloc) (tick : UInt32) :
    (vfsWriteFile s t j buf m raw m' tick).1 = s ∨ m ≠ none ∧
      ∃ out offset bytes, (vfsWriteFile s t j buf m raw m' tick).1 =
        { s with
            fs := (fsWriteBin s.fs (s.fds t j).name bytes tick m').1
            outside := out }.setFd t j { s.fds t j with offset := offset } := by
  unfold vfsWriteFile
  dsimp only
  split
  · exact Or.inl rfl
  · split
    · exact Or.inl rfl
    · next cap hgrant =>
      have hm : m ≠ none := by
        rintro rfl
        simp [Malloc.grant] at hgrant
      exact Or.inr ⟨hm, _, _, _, rfl⟩

theorem vfsStep_fds {s : Vfs} (h : FdsInv s) (op : VfsOp) : FdsInv (vfsStep s op) := by
  cases op with
  | «open» t path flags tick m =>
      simp only [vfsStep]
      rcases vfsOpen_cases s t path flags tick m with hr | ⟨fs, f, j, hr, hfs, hf⟩
      · rw [hr]
        exact h
      · have hfiles : FilesInv fs := by
          rcases hfs with rfl | ⟨-, rfl⟩
          · exact h.files
          · exact createFor_files h.files path tick m
        have hopened : FdsInv { s with fs := fs } := ⟨hfiles, h.names⟩
        rw [hr]
        exact hopened.setFd fun hfile => hf hfile ▸ length_storedName path
  | read t j len =>
      simp only [vfsStep]
      split
      · rcases vfsReadFile_step s t j len with hr | ⟨out, offset, hr⟩
        · rw [hr]
          exact h
        · have hread : FdsInv { s with outside := out } := ⟨h.files, h.names⟩
          rw [hr]
          exact hread.moveFd id rfl
      · exact h
  | write t j buf m raw m' tick =>
      simp only [vfsStep]
      split
      · rcases vfsWriteFile_step s t j buf m raw m' tick with
          hr | ⟨-, out, offset, bytes, hr⟩
        · rw [hr]
          exact h
        · have hwritten : FdsInv { s with
              fs := (fsWriteBin s.fs (s.fds t j).name bytes tick m').1
              outside := out } := ⟨fsWriteBin_files h.files _ _ _ _, h.names⟩
          rw [hr]
          exact hwritten.moveFd id rfl
      · exact h
  | seek t j offset =>
      simp only [vfsStep, vfsSeek]
      split
      · exact h.moveFd id rfl
      · exact h
  | close t j =>
      simp only [vfsStep]
      split
      · exact h.setFd fun hf => by cases hf.1
      · exact h
  | copy src dst =>
      refine ⟨h.files, ?_⟩
      intro u k
      by_cases hu : u = dst
      · subst hu
        simpa [vfsStep, vfsCopyFds] using h.names src k
      · simpa [vfsStep, vfsCopyFds, hu] using h.names u k

/-- What holds between the calls that meet their condition. -/
structure VfsInv (s : Vfs) : Prop extends FdsInv s where
  empty : NoneEmpty s.fs
  inside : s.outside = false

/-- The start of a run: no file is open. -/
structure VfsStart (s : Vfs) : Prop where
  files : FilesInv s.fs
  empty : NoneEmpty s.fs
  closed : ∀ t j, ¬ (s.fds t j).IsFile
  inside : s.outside = false

/-- The calls that are meant: a length is an `int` that is not negative. -/
def vfsCall (_ : Vfs) : VfsOp → Prop
  | .read _ _ len => len < 2147483648
  | .write _ _ buf _ _ _ _ => buf.length < 2147483648
  | _ => True

/-- The condition of a call on an open file. -/
def vfsFits (s : Vfs) : VfsOp → Prop
  | .read t j len =>
      (s.fds t j).IsFile → (s.fds t j).flags &&& oRdwr ≠ 0 → readFits s t j len
  | .write t j buf m raw m' _ =>
      (s.fds t j).IsFile → (s.fds t j).flags &&& oRdwr ≠ 0 → m ≠ none →
        writeFitsAt s t j buf raw m'
  | _ => True

def vfsGuard (s : Vfs) (op : VfsOp) : Prop := vfsCall s op ∧ vfsFits s op

/-- No access has left its buffer, and the next read or write of a descriptor is the one
of a byte string at an offset. -/
structure DescriptorsOk (guard : Vfs → VfsOp → Prop) (s : Vfs) : Prop where
  inside : s.outside = false
  reads : ∀ t j len, (s.fds t j).IsFile → guard s (.read t j len) →
    ReadOk s t j len (vfsReadFile s t j len)
  writes : ∀ t j buf m raw m' tick, (s.fds t j).IsFile →
    guard s (.write t j buf m raw m' tick) →
      WriteOk s t j buf (vfsWriteFile s t j buf m raw m' tick)

theorem VfsInv.ok {s : Vfs} (h : VfsInv s) : DescriptorsOk vfsGuard s where
  inside := h.inside
  reads := fun _ _ _ hfile hg => vfsReadFile_ok h.files (hg.2 hfile)
  writes := fun t j _ _ _ _ _ hfile hg =>
    vfsWriteFile_ok _ h.files (h.empty.held _) (h.names t j hfile) (hg.2 hfile)

theorem VfsStart.inv {s : Vfs} (h : VfsStart s) : VfsInv s where
  files := h.files
  empty := h.empty
  names := fun t j hfile => absurd hfile (h.closed t j)
  inside := h.inside

theorem vfsStep_inv {s : Vfs} {op : VfsOp} (h : VfsInv s) (hg : vfsGuard s op) :
    VfsInv (vfsStep s op) := by
  suffices hrest : NoneEmpty (vfsStep s op).fs ∧ (vfsStep s op).outside = false from
    ⟨vfsStep_fds h.toFdsInv op, hrest.1, hrest.2⟩
  cases op with
  | «open» t path flags tick m =>
      simp only [vfsStep]
      rcases vfsOpen_cases s t path flags tick m with hr | ⟨fs, f, j, hr, hfs, -⟩
      · rw [hr]
        exact ⟨h.empty, h.inside⟩
      · rw [hr]
        refine ⟨?_, h.inside⟩
        rcases hfs with rfl | ⟨-, rfl⟩
        · exact h.empty
        · exact createFor_noneEmpty h.empty path tick m
  | read t j len =>
      simp only [vfsStep]
      split
      · next hfile =>
        have hinside := (vfsReadFile_ok h.files (hg.2 hfile)).inside
        refine ⟨?_, hinside.trans h.inside⟩
        rcases vfsReadFile_step s t j len with hr | ⟨out, offset, hr⟩
        · rw [hr]
          exact h.empty
        · rw [hr]
          exact h.empty
      · exact ⟨h.empty, h.inside⟩
  | write t j buf m raw m' tick =>
      simp only [vfsStep]
      split
      · next hfile =>
        rcases vfsWriteFile_eq tick h.files (h.empty.held _) (hg.2 hfile) with
          hr | ⟨hfit, n, -, -, -, hr⟩
        · rw [hr]
          exact ⟨h.empty, h.inside⟩
        · rw [hr]
          refine ⟨?_, h.inside⟩
          apply fsWriteBin_noneEmpty h.empty
          · rw [length_overwrite]
            exact Nat.le_max_left _ _
          · exact fun hpos => (hfit.back hpos).1
      · exact ⟨h.empty, h.inside⟩
  | seek t j offset =>
      simp only [vfsStep, vfsSeek]
      split <;> exact ⟨h.empty, h.inside⟩
  | close t j =>
      simp only [vfsStep]
      split <;> exact ⟨h.empty, h.inside⟩
  | copy src dst => exact ⟨h.empty, h.inside⟩

theorem descriptors_ok {s : Vfs} (r : Reach VfsStart vfsGuard vfsStep s) :
    DescriptorsOk vfsGuard s :=
  (r.invariant (fun _ => VfsStart.inv) fun _ _ => vfsStep_inv).ok

def closedFd : VfsFd := ⟨false, .std, 0, 0, emptyText⟩

/-- An empty table, and no open descriptor. -/
def noFiles : Vfs := ⟨emptyFs.fs, fun _ _ => closedFd, false⟩

theorem noFiles_unused : ∀ i, (noFiles.fs.files i).used = 0 := by decide +kernel

theorem noFiles_data (i : Slot) : (noFiles.fs.files i).data = none := by
  have hall : ∀ i, (noFiles.fs.files i).data.isNone = true := by decide +kernel
  exact Option.isNone_iff_eq_none.mp (hall i)

theorem noFiles_start : VfsStart noFiles where
  files :=
    { names := fun i hu => absurd (noFiles_unused i) hu
      heap := ⟨fun i => SlotHeap.of_data_none (noFiles_data i), rfl⟩
      small := fun i b hb => by
        rw [noFiles_data] at hb
        cases hb }
  empty := fun i hu => absurd (noFiles_unused i) hu
  closed := fun _ _ hfile => by cases hfile.1
  inside := rfl

/-- Create a file. -/
def createA : VfsOp := .open 0 nameA 7 0 (some 0)

/-- Store two bytes in it. -/
def storeTwo : VfsOp := .write 0 3 [5, 6] (some 0) (fun _ => 0) (some 0) 0

theorem descriptors_ok_two_bytes :
    DescriptorsOk vfsGuard ([createA, storeTwo].foldl vfsStep noFiles) := by
  apply descriptors_ok
  apply Reach.guarded (Reach.start noFiles_start)
  have hlen : ([5, 6] : List UInt8).length < 2147483648 := by decide
  have hoff : ((vfsStep noFiles createA).fds 0 3).offset.toNat = 0 := by decide +kernel
  refine ⟨⟨trivial, trivial⟩, ⟨hlen, ?_⟩, trivial⟩
  intro _ _ _
  constructor
  · exact fun _ _ _ => rfl
  · rw [hoff]
    exact ⟨by decide, by decide, fun _ => ⟨nofun, Or.inr ⟨1, by decide +kernel⟩⟩⟩

/-- A read behind a seek to an offset that is negative as an `int`. -/
theorem negative_offset_leaves_buffer :
    ¬ ∀ s, Reach VfsStart vfsCall vfsStep s → DescriptorsOk vfsCall s := by
  intro h
  have hcalls : Guarded vfsCall vfsStep noFiles
      [createA, .seek 0 3 0xFFFFFFFF, .read 0 3 1] :=
    ⟨trivial, trivial, (by decide : 1 < 2147483648), trivial⟩
  have hr := (Reach.start noFiles_start).guarded hcalls
  have hin := (h _ hr).inside
  revert hin
  decide +kernel

end OriaOS.Fs
