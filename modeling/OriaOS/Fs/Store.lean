import OriaOS.Fs.Entries
import OriaOS.Fs.Unlink

/-!
# The table as a finite map

Names stand for byte strings: a write inserts or replaces, a delete removes, a rename
moves. The buffers of the files are live blocks of the heap, one for each file.
-/

namespace OriaOS.Fs

open OriaOS.Lib OriaOS.Heap

variable {name : CString} {bytes : List UInt8} {i : Slot}

/-! ## The finite map -/

/-- A finite map from names to byte strings. -/
abbrev Contents := CString → Option (List UInt8)

inductive StoreOp where
  | writeBin (name : CString) (bytes : List UInt8) (v : Noise)
  | writeTmp (name : CString) (bytes : List UInt8) (v : Noise)
  | delete (name : CString) (v : Noise)
  | rename (oldName newName : CString) (v : Noise)

/-- The call on the table. `none` is a call that does not return. -/
def StoreOp.run (s : Store) : StoreOp → Option (Store × Int)
  | .writeBin name bytes v => s.writeBin name bytes v
  | .writeTmp name bytes v => s.writeTmp name bytes v
  | .delete name v => s.delete name v
  | .rename oldName newName v => some (s.rename oldName newName v)

/-- The call on the map: a write inserts or replaces, a delete removes, and a rename
moves unless the target exists. -/
def StoreOp.apply (map : Contents) : StoreOp → Contents
  | .writeBin name bytes _ => Function.update map name (some bytes)
  | .writeTmp name bytes _ => Function.update map name (some bytes)
  | .delete name _ => Function.update map name none
  | .rename oldName newName _ =>
      match map newName, map oldName with
      | none, some bytes => Function.update (Function.update map oldName none) newName (some bytes)
      | _, _ => map

/-- The table and the map that the same calls have made. -/
structure Mapped where
  store : Store
  map : Contents

def mappedStep (s : Mapped) (op : StoreOp) : Mapped :=
  match op.run s.store with
  | some r => ⟨r.1, op.apply s.map⟩
  | none => s

/-- A directory has that name. -/
def DirNamed (s : Store) (name : CString) : Prop :=
  ∃ i, (s.heads i).named name = true ∧ (s.heads i).isDir = true

/-- A name that a call may use: short enough, and not that of a directory. -/
structure FileName (s : Store) (name : CString) : Prop where
  short : name.length ≤ maxName - 1
  file : ¬ DirNamed s name

/-- The calls that are meant. -/
def storeCall (s : Store) : StoreOp → Prop
  | .writeBin name bytes _ => FileName s name ∧ 1 ≤ bytes.length ∧ bytes.length ≤ maxBinData
  | .writeTmp name bytes _ => FileName s name ∧ 1 ≤ bytes.length ∧ bytes.length ≤ maxBinData
  | .delete name _ => FileName s name
  | .rename oldName newName _ => FileName s oldName ∧ FileName s newName

/-- No write reports failure. -/
def storeGoes (s : Store) : StoreOp → Prop
  | .writeBin name bytes v => ∀ r, s.writeBin name bytes v = some r → r.2 = 1
  | .writeTmp name bytes v => ∀ r, s.writeTmp name bytes v = some r → r.2 = 1
  | _ => True

def mappedGuard (s : Mapped) (op : StoreOp) : Prop := storeCall s.store op ∧ storeGoes s.store op

/-- The start of a run: a heap as the allocator has left it, a table that holds no file,
and the empty map. -/
structure MappedStart (s : Mapped) : Prop where
  heap : ∃ live, Reach Started Callable heapStep (some ⟨s.store.mem.heap, live⟩)
  names : NamesInv s.store.heads
  empty : ∀ i, (s.store.heads i).fileKey = none
  unheld : ∀ i, (s.store.files i).data = 0
  map : s.map = fun _ => none

/-- The table is the map: reads find what the map holds, and the calls return and report
what the map says. -/
structure MapOk (s : Mapped) : Prop where
  reads : ∀ name, s.store.readBytes name = s.map name
  returns : ∀ op, storeCall s.store op → ∃ r, op.run s.store = some r
  deletes : ∀ name v r, storeCall s.store (.delete name v) → s.store.delete name v = some r →
    (r.2 = 1 ↔ s.map name ≠ none)
  renames : ∀ oldName newName v, storeCall s.store (.rename oldName newName v) →
    ((s.store.rename oldName newName v).2 = 0 ↔ s.map oldName ≠ none ∧ s.map newName = none)

/-! ## The invariant -/

/-- The bytes of a slot. -/
def Store.fileBytes (s : Store) (i : Slot) : List UInt8 :=
  s.mem.bytesAt (s.files i).data (s.files i).size.toNat

/-- The buffers are live blocks of the heap, one for each file, and hold the contents
of the map. -/
structure StoreInv (s : Store) (map : Contents) : Prop where
  heap : ∃ live bs, HeapInv ⟨s.mem.heap, live⟩ bs ∧
    ∀ i, (s.files i).data ≠ 0 → ((s.files i).data, (s.files i).size.toNat) ∈ live
  names : NamesInv s.heads
  free : ∀ i, (s.files i).used = 0 → (s.files i).data = 0
  held : ∀ i, (s.heads i).fileKey ≠ none → (s.files i).data ≠ 0
  apart : ∀ i j, (s.files i).data ≠ 0 → (s.files j).data = (s.files i).data → j = i
  map : mapOf (fun i => (s.heads i).fileKey) s.fileBytes = map

/-- One entry changes, and the memory. -/
structure Changed (s t : Store) (i : Slot) (e : Entry) (mem : HeapMem) : Prop where
  mem : t.mem = mem
  others : ∀ j, j ≠ i → ∃ d, t.files j = { s.files j with dirty := d }
  self : ∃ d, t.files i = { e with dirty := d }

theorem save_changed {s u : Store} (hothers : ∀ j, j ≠ i → u.files j = s.files j) :
    Changed s (u.save i) i (u.files i) u.mem where
  mem := rfl
  others := fun j hj => ⟨_, by rw [← hothers j hj]; rfl⟩
  self := ⟨_, rfl⟩

theorem head_dirty (e : Entry) (d : Bool) : SameHeader e.head { e with dirty := d }.head :=
  ⟨rfl, rfl, rfl⟩

theorem SameHeader.fileKey {f g : FSFile} (h : SameHeader f g) (hf : f.used ≠ 0 → f.Terminated) :
    g.fileKey = f.fileKey := by
  rw [FSFile.fileKey, FSFile.fileKey, h.isDir, h.key hf]

/-- What an entry has to bring along when it takes the place of another. -/
structure Fits (s : Store) (live : List (Nat × Nat)) (i : Slot) (e : Entry) : Prop where
  terminated : e.used ≠ 0 → e.head.Terminated
  fresh : ∀ name, e.head.key = some name → ∀ j, j ≠ i → (s.heads j).key ≠ some name
  free : e.used = 0 → e.data = 0
  held : e.head.fileKey ≠ none → e.data ≠ 0
  live : e.data ≠ 0 → (e.data, e.size.toNat) ∈ live
  apart : e.data ≠ 0 → ∀ j, j ≠ i → (s.files j).data ≠ e.data

/-- One entry changes, and the buffers of the others are kept. -/
theorem StoreInv.change {s t : Store} {map : Contents} {e : Entry} {mem : HeapMem}
    {live : List (Nat × Nat)} (h : StoreInv s map) (c : Changed s t i e mem)
    (hheap : ∃ bs, HeapInv ⟨mem.heap, live⟩ bs) (hfits : Fits s live i e)
    (hkept : ∀ j, j ≠ i → (s.files j).data ≠ 0 →
      ((s.files j).data, (s.files j).size.toNat) ∈ live ∧
      mem.bytesAt (s.files j).data (s.files j).size.toNat = s.fileBytes j) :
    StoreInv t fun name =>
      if e.head.fileKey = some name then some (mem.bytesAt e.data e.size.toNat)
      else if (s.heads i).fileKey = some name then none else map name := by
  obtain ⟨d, hself⟩ := c.self
  have hdata : ∀ j, j ≠ i → (t.files j).data = (s.files j).data ∧
      (t.files j).size = (s.files j).size ∧ SameHeader (s.heads j) (t.heads j) := by
    intro j hj
    obtain ⟨d, hd⟩ := c.others j hj
    rw [Store.heads, Store.heads, hd]
    exact ⟨rfl, rfl, head_dirty _ _⟩
  have hsame : SameHeader e.head (t.heads i) := by
    rw [Store.heads, hself]
    exact head_dirty e d
  have hkey : ∀ j, j ≠ i → (t.heads j).fileKey = (s.heads j).fileKey := fun j hj =>
    (hdata j hj).2.2.fileKey (h.names.terminated j)
  have hkeySelf : (t.heads i).fileKey = e.head.fileKey := hsame.fileKey hfits.terminated
  have hnames : NamesInv t.heads := by
    apply h.names.change (i := i)
    · intro j hj
      exact ⟨(hdata j hj).2.2.used, (hdata j hj).2.2.name⟩
    · intro hu
      rw [hsame.used] at hu
      exact hsame.terminated (hfits.terminated hu)
    · intro name hname
      rw [hsame.key hfits.terminated] at hname
      exact hfits.fresh name hname
  have hentry : (t.files i).data = e.data ∧ (t.files i).size = e.size ∧
      (t.files i).used = e.used := by
    rw [hself]
    exact ⟨rfl, rfl, rfl⟩
  constructor
  case heap =>
    obtain ⟨bs, hbs⟩ := hheap
    refine ⟨live, bs, c.mem ▸ hbs, ?_⟩
    intro j hj
    by_cases hji : j = i
    · subst hji
      rw [hentry.1] at hj
      rw [hentry.1, hentry.2.1]
      exact hfits.live hj
    · obtain ⟨hd, hs, -⟩ := hdata j hji
      rw [hd] at hj
      rw [hd, hs]
      exact (hkept j hji hj).1
  case names => exact hnames
  case free =>
    intro j hj
    by_cases hji : j = i
    · subst hji
      rw [hentry.2.2] at hj
      rw [hentry.1]
      exact hfits.free hj
    · obtain ⟨hd, -, hsame⟩ := hdata j hji
      rw [hd]
      exact h.free j (hsame.used.symm.trans hj)
  case held =>
    intro j hj
    by_cases hji : j = i
    · subst hji
      rw [hkeySelf] at hj
      rw [hentry.1]
      exact hfits.held hj
    · rw [hkey j hji] at hj
      rw [(hdata j hji).1]
      exact h.held j hj
  case apart =>
    intro a b ha hab
    by_cases hai : a = i
    · subst hai
      by_contra hba
      rw [hentry.1] at ha hab
      rw [(hdata b hba).1] at hab
      exact hfits.apart ha b hba hab
    · rw [(hdata a hai).1] at ha hab
      by_cases hbi : b = i
      · subst hbi
        rw [hentry.1] at hab
        exact absurd hab.symm (hfits.apart (hab ▸ ha) a hai)
      · rw [(hdata b hbi).1] at hab
        exact h.apart a b ha hab
  case map =>
    have hval : ∀ j, j ≠ i → (s.heads j).fileKey ≠ none → t.fileBytes j = s.fileBytes j := by
      intro j hji hj
      rw [Store.fileBytes, c.mem, (hdata j hji).1, (hdata j hji).2.1]
      exact (hkept j hji (h.held j hj)).2
    have hbytes : t.fileBytes i = mem.bytesAt e.data e.size.toNat := by
      rw [Store.fileBytes, c.mem, hentry.1, hentry.2.1]
    rw [h.names.fileKeys.mapOf_change hnames.fileKeys hkey hval, hkeySelf, hbytes, h.map]
    funext name
    split_ifs <;> rfl

/-! ## The calls -/

/-- Without a directory of that name, an entry of that name is a file. -/
theorem FileName.isFile {s : Store} (h : FileName s name) (hi : (s.heads i).key = some name) :
    (s.heads i).fileKey = some name := by
  rw [FSFile.fileKey_iff, FSFile.isFile_iff]
  refine ⟨hi, Bool.eq_false_iff.mpr fun hdir => ?_⟩
  exact h.file ⟨i, FSFile.named_iff.mpr hi, hdir⟩

/-- What the map says of a name, and what stands in the table. -/
theorem StoreInv.map_of_key {s : Store} {map : Contents} (h : StoreInv s map)
    (hi : (s.heads i).fileKey = some name) : map name = some (s.fileBytes i) := by
  rw [← h.map]
  exact h.names.fileKeys.mapOf_eq hi

theorem StoreInv.map_none {s : Store} {map : Contents} (h : StoreInv s map)
    (hnone : ∀ i, (s.heads i).fileKey ≠ some name) : map name = none := by
  rw [← h.map]
  exact mapOf_eq_none hnone

theorem StoreInv.read {s : Store} {map : Contents} (h : StoreInv s map) (name : CString) :
    s.readBytes name = map name := by
  unfold Store.readBytes Store.readBin
  cases hi : firstSlot s.heads (·.isFile name) with
  | none =>
      refine (h.map_none fun i hk => ?_).symm
      have hn := firstSlot_none hi i
      rw [FSFile.fileKey_iff.mp hk] at hn
      cases hn
  | some i =>
      have hkey := FSFile.fileKey_iff.mpr (firstSlot_some hi)
      have hheld : (s.files i).data ≠ 0 := h.held i (by rw [hkey]; exact Option.some_ne_none _)
      rw [h.map_of_key hkey, Option.map_some]
      exact if_neg hheld

/-- A buffer that is taken and filled for a slot, in a heap where the buffers of the
others are live. -/
theorem fill_spec (finish : Entry → Entry) {s u : Store} {v : Noise} {live : List (Nat × Nat)}
    (hothers : ∀ j, j ≠ i → u.files j = s.files j) (hheap : ∃ bs, HeapInv ⟨u.mem.heap, live⟩ bs)
    (hkept : ∀ j, j ≠ i → (s.files j).data ≠ 0 →
      ((s.files j).data, (s.files j).size.toNat) ∈ live ∧
      u.mem.bytesAt (s.files j).data (s.files j).size.toNat = s.fileBytes j)
    (hpos : 1 ≤ bytes.length) (hmax : bytes.length ≤ maxBinData) :
    ∃ r, u.fill i bytes v finish = some r ∧ (r.2 = 1 → ∃ p mem, p ≠ 0 ∧
      Changed s r.1 i
        (finish { u.files i with data := p, size := UInt32.ofNat bytes.length }) mem ∧
      (∃ bs, HeapInv ⟨mem.heap, (p, bytes.length) :: live⟩ bs) ∧
      mem.bytesAt p bytes.length = bytes ∧
      ∀ j, j ≠ i → (s.files j).data ≠ 0 → (s.files j).data ≠ p ∧
        ((s.files j).data, (s.files j).size.toNat) ∈ (p, bytes.length) :: live ∧
        mem.bytesAt (s.files j).data (s.files j).size.toNat = s.fileBytes j) := by
  obtain ⟨bs, hbs⟩ := hheap
  have hword : bytes.length ≤ 2 ^ 32 - 4 := hmax.trans (by decide)
  obtain ⟨mem, p, hm, hgot⟩ :=
    HeapMem.malloc_store_live v.taken v.scrap hbs hpos hword
  rw [Store.fill, hm, Option.map_some]
  refine ⟨_, rfl, ?_⟩
  by_cases hp : p = 0
  · rw [if_pos hp]
    intro hone
    cases hone
  · rw [if_neg hp]
    intro _
    obtain ⟨hinv, hbytes, hlive⟩ := hgot hp
    refine ⟨p, mem.store p bytes v.scrap, hp, ?_, hinv, hbytes, ?_⟩
    · have hsaved := save_changed (s := s) (i := i)
        (u := { u with mem := mem.store p bytes v.scrap }.put i
          (finish { u.files i with data := p, size := UInt32.ofNat bytes.length }))
        fun j hj => (Function.update_of_ne hj _ _).trans (hothers j hj)
      have hself : ({ u with mem := mem.store p bytes v.scrap }.put i
          (finish { u.files i with data := p, size := UInt32.ofNat bytes.length })).files i =
            finish { u.files i with data := p, size := UInt32.ofNat bytes.length } :=
        Function.update_self _ _ _
      rw [hself] at hsaved
      exact hsaved
    · intro j hj hdata
      obtain ⟨hmem, heq⟩ := hkept j hj hdata
      obtain ⟨hne, hsame⟩ := hlive _ hmem
      exact ⟨hne, List.mem_cons_of_mem _ hmem, hsame.trans heq⟩

theorem Contents.update_eq (map : Contents) (name : CString) (o : Option (List UInt8)) :
    Function.update map name o = fun k => if some name = some k then o else map k := by
  funext k
  by_cases hk : k = name
  · subst hk
    simp
  · rw [Function.update_of_ne hk, if_neg fun heq => hk (Option.some.inj heq).symm]

theorem size_toNat (h : bytes.length ≤ maxBinData) :
    (UInt32.ofNat bytes.length).toNat = bytes.length :=
  UInt32.toNat_ofNat_of_lt' (h.trans_lt (by decide))

/-- A write of a file that is there. -/
theorem write_found {s : Store} {map : Contents} {tmpfs : UInt8} {v : Noise} (h : StoreInv s map)
    (hi : firstSlot s.heads (·.isFile name) = some i) (hpos : 1 ≤ bytes.length)
    (hmax : bytes.length ≤ maxBinData) :
    ∃ r, s.writeBinInternal name bytes tmpfs v = some r ∧
      (r.2 = 1 → StoreInv r.1 (Function.update map name (some bytes))) := by
  have hkey := FSFile.fileKey_iff.mpr (firstSlot_some hi)
  have hheld : (s.files i).data ≠ 0 := h.held i (by rw [hkey]; exact Option.some_ne_none _)
  obtain ⟨live, bs, hbs, hlive⟩ := h.heap
  obtain ⟨mem, hfree, hinv, hsame⟩ :=
    HeapMem.free_live v.freed hbs (hlive i hheld)
  have hrelease : s.release i v.freed =
      some ({ s with mem := mem }.put i { s.files i with data := 0 }) := by
    rw [Store.release, if_neg hheld, hfree]
    rfl
  have hkept : ∀ j, j ≠ i → (s.files j).data ≠ 0 →
      ((s.files j).data, (s.files j).size.toNat) ∈
          live.filter (fun e => e.1 ≠ (s.files i).data) ∧
        mem.bytesAt (s.files j).data (s.files j).size.toNat = s.fileBytes j := by
    intro j hj hdata
    refine ⟨List.mem_filter.mpr ⟨hlive j hdata, ?_⟩, hsame _ (hlive j hdata)⟩
    rw [decide_eq_true_eq]
    exact fun heq => hj (h.apart i j hheld heq)
  obtain ⟨r, hr, hdone⟩ := fill_spec
    (fun e => { e with mtime := v.tick, dirty := true, tmpfs := tmpfs }) (s := s) (v := v)
    (u := { s with mem := mem }.put i { s.files i with data := 0 })
    (fun j hj => Function.update_of_ne hj _ _) hinv hkept hpos hmax
  refine ⟨r, ?_, fun hone => ?_⟩
  · rw [Store.writeBinInternal, if_neg (Nat.not_lt.mpr hmax), hi]
    dsimp only
    rw [hrelease]
    exact hr
  · obtain ⟨p, mem', hp, hchanged, hheap, hbytes, hothers⟩ := hdone hone
    simp only [Store.put, Function.update_self] at hchanged
    have hsize : (UInt32.ofNat bytes.length).toNat = bytes.length := size_toNat hmax
    have hused := used_of_isFile hi
    have hsame : SameHeader (s.heads i) { s.files i with
        data := p, size := UInt32.ofNat bytes.length, mtime := v.tick, dirty := true
        tmpfs := tmpfs }.head := ⟨rfl, rfl, rfl⟩
    have hinv' := h.change hchanged hheap
      { terminated := fun _ => hsame.terminated (h.names.terminated i hused)
        fresh := by
          intro k hk j hj hjk
          rw [hsame.key (h.names.terminated i)] at hk
          exact hj (h.names.distinct hjk hk)
        free := fun hu => absurd hu hused
        held := fun _ => hp
        live := fun _ => by
          rw [hsize]
          exact List.mem_cons_self
        apart := fun _ j hj heq => (hothers j hj (heq ▸ hp)).1 heq }
      fun j hj hdata => (hothers j hj hdata).2
    rw [hsame.fileKey (h.names.terminated i), hkey, hsize, hbytes] at hinv'
    rw [Contents.update_eq]
    refine cast (congrArg (StoreInv r.1) (funext fun k => ?_)) hinv'
    split_ifs <;> rfl

theorem FSFile.fileKey_of_free {f : FSFile} (h : f.used = 0) : f.fileKey = none := by
  rw [fileKey, key_of_free h]
  exact ite_self none

/-- The key of a slot that has been given a name. -/
theorem key_setName {e g : Entry} (hu : g.used ≠ 0) (hname : g.name = name.copyTo e.name)
    (hshort : name.length ≤ maxName - 1) : g.head.Terminated ∧ g.head.key = some name := by
  have hstored : g.head.name = (e.head.setName name).name := hname
  refine ⟨terminated_of_filled hstored, ?_⟩
  rw [key_of_filled hu hstored, storedName_of_le hshort]

/-- A write of a new file. -/
theorem write_fresh {s : Store} {map : Contents} {tmpfs : UInt8} {v : Noise} (h : StoreInv s map)
    (hname : FileName s name) (hnone : firstSlot s.heads (·.isFile name) = none)
    (hpos : 1 ≤ bytes.length) (hmax : bytes.length ≤ maxBinData) :
    ∃ r, s.writeBinInternal name bytes tmpfs v = some r ∧
      (r.2 = 1 → StoreInv r.1 (Function.update map name (some bytes))) := by
  have hdir : ((permRead ||| permWrite ||| permExec) &&& permDir != 0) = false := by decide
  rw [Store.writeBinInternal, if_neg (Nat.not_lt.mpr hmax), hnone]
  dsimp only
  cases hi : firstSlot s.heads FSFile.isFree with
  | none =>
      refine ⟨_, rfl, fun hone => ?_⟩
      cases hone
  | some i =>
      have hfree : (s.files i).used = 0 := free_of_firstSlot hi
      obtain ⟨live, bs, hbs, hlive⟩ := h.heap
      obtain ⟨r, hr, hdone⟩ := fill_spec
        (fun e =>
          { e with
            used := 1, tmpfs := tmpfs, dirty := true
            perms := permRead ||| permWrite ||| permExec
            ctime := v.tick, mtime := v.tick }) (s := s) (v := v)
        (u := s.put i ((s.files i).setName name))
        (fun j hj => Function.update_of_ne hj _ _) ⟨bs, hbs⟩
        (fun j _ hdata => ⟨hlive j hdata, rfl⟩) hpos hmax
      refine ⟨r, hr, fun hone => ?_⟩
      obtain ⟨p, mem', hp, hchanged, hheap, hbytes, hothers⟩ := hdone hone
      simp only [Store.put, Function.update_self] at hchanged
      have hsize := size_toNat hmax
      generalize he : ({ (s.files i).setName name with
        data := p, size := UInt32.ofNat bytes.length, used := 1, tmpfs := tmpfs, dirty := true
        perms := permRead ||| permWrite ||| permExec
        ctime := v.tick, mtime := v.tick } : Entry) = e at hchanged
      have hused : e.used ≠ 0 := by
        rw [← he]
        exact (by decide : (1 : UInt8) ≠ 0)
      obtain ⟨hterm, hkey⟩ := key_setName (g := e) hused (by rw [← he]; rfl) hname.short
      have hfile : e.head.fileKey = some name := by
        rw [FSFile.fileKey_iff, FSFile.isFile_iff]
        exact ⟨hkey, by rw [← he]; exact hdir⟩
      have hdata : e.data = p := by rw [← he]
      have hlen : e.size.toNat = bytes.length := by
        rw [← he]
        exact hsize
      have hinv' := h.change hchanged hheap
        { terminated := fun _ => hterm
          fresh := by
            intro k hk j _ hjk
            rw [hkey] at hk
            rw [← hk] at hjk
            have hisFile := FSFile.fileKey_iff.mp (hname.isFile hjk)
            rw [firstSlot_none hnone j] at hisFile
            cases hisFile
          free := fun hu => absurd hu hused
          held := fun _ => hdata ▸ hp
          live := fun _ => by
            rw [hdata, hlen]
            exact List.mem_cons_self
          apart := fun _ j hj heq => by
            rw [hdata] at heq
            exact (hothers j hj (heq ▸ hp)).1 heq }
        fun j hj hdata => (hothers j hj hdata).2
      have hold : (s.heads i).fileKey = none := FSFile.fileKey_of_free hfree
      rw [hfile, hold, hdata, hlen, hbytes] at hinv'
      rw [Contents.update_eq]
      refine cast (congrArg (StoreInv r.1) (funext fun k => ?_)) hinv'
      rw [if_neg (c := none = some k) (Option.some_ne_none k ∘ Eq.symm)]

theorem write_spec {s : Store} {map : Contents} (tmpfs : UInt8) (v : Noise) (h : StoreInv s map)
    (hname : FileName s name) (hpos : 1 ≤ bytes.length) (hmax : bytes.length ≤ maxBinData) :
    ∃ r, s.writeBinInternal name bytes tmpfs v = some r ∧
      (r.2 = 1 → StoreInv r.1 (Function.update map name (some bytes))) := by
  cases hi : firstSlot s.heads (·.isFile name) with
  | none => exact write_fresh h hname hi hpos hmax
  | some i => exact write_found h hi hpos hmax

/-- Where no entry has the name, no file has it. -/
theorem map_of_not_named {s : Store} {map : Contents} (h : StoreInv s map)
    (hnone : firstSlot s.heads (·.named name) = none) : map name = none := by
  apply h.map_none
  intro i hk
  have hkey := (FSFile.isFile_iff.mp (FSFile.fileKey_iff.mp hk)).1
  have hn := firstSlot_none hnone i
  rw [FSFile.named_iff.mpr hkey] at hn
  cases hn

/-- The entry that a search for the name comes to. -/
theorem FileName.found {s : Store} (hname : FileName s name)
    (hi : firstSlot s.heads (·.named name) = some i) :
    (s.files i).used ≠ 0 ∧ (s.heads i).key = some name ∧ (s.heads i).fileKey = some name := by
  have hkey := FSFile.named_iff.mp (firstSlot_some hi)
  exact ⟨(FSFile.key_eq_some.mp hkey).1, hkey, hname.isFile hkey⟩

theorem delete_spec {s : Store} {map : Contents} {v : Noise} (h : StoreInv s map)
    (hname : FileName s name) :
    ∃ r, s.delete name v = some r ∧ StoreInv r.1 (Function.update map name none) ∧
      (r.2 = 1 ↔ map name ≠ none) := by
  unfold Store.delete
  cases hi : firstSlot s.heads (·.named name) with
  | none =>
      have hmap := map_of_not_named h hi
      refine ⟨_, rfl, ?_, ?_⟩
      · rw [← hmap, Function.update_eq_self]
        exact h
      · simp [hmap]
  | some i =>
      obtain ⟨hused, hkey, hfile⟩ := hname.found hi
      have hheld : (s.files i).data ≠ 0 := h.held i (by rw [hfile]; exact Option.some_ne_none _)
      obtain ⟨live, bs, hbs, hlive⟩ := h.heap
      obtain ⟨mem, hfree, hinv, hsame⟩ :=
        HeapMem.free_live v.freed hbs (hlive i hheld)
      have hrelease : (s.put i { s.files i with used := 0 }).release i v.freed =
          some ({ s with mem := mem }.put i { s.files i with used := 0, data := 0 }) := by
        have hself : (s.put i { s.files i with used := 0 }).files i =
            { s.files i with used := 0 } := Function.update_self _ _ _
        have hmem : (s.put i { s.files i with used := 0 }).mem = s.mem := rfl
        rw [Store.release, hself, if_neg hheld, hmem, hfree]
        simp [Store.put]
      have hchanged := save_changed (s := s) (i := i)
        (u := { s with mem := mem }.put i { s.files i with used := 0, data := 0 })
        fun j hj => Function.update_of_ne hj _ _
      simp only [Store.put, Function.update_self] at hchanged
      have hgone : ({ s.files i with used := 0, data := 0 } : Entry).head.fileKey = none :=
        FSFile.fileKey_of_free rfl
      have hinv' := h.change hchanged hinv
        { terminated := fun hu => absurd rfl hu
          fresh := by
            intro k hk
            rw [FSFile.key_of_free rfl] at hk
            cases hk
          free := fun _ => rfl
          held := fun hk => absurd hgone hk
          live := fun hd => absurd rfl hd
          apart := fun hd => absurd rfl hd }
        fun j hj hdata => ⟨List.mem_filter.mpr ⟨hlive j hdata,
          decide_eq_true fun heq => hj (h.apart i j hheld heq)⟩, hsame _ (hlive j hdata)⟩
      dsimp only at hrelease ⊢
      rw [hrelease, Option.map_some]
      refine ⟨_, rfl, ?_, ?_⟩
      · rw [hgone, hfile] at hinv'
        rw [Contents.update_eq]
        refine cast (congrArg (StoreInv _) (funext fun k => ?_)) hinv'
        rw [if_neg (c := none = some k) (Option.some_ne_none k ∘ Eq.symm)]
      · simp [h.map_of_key hfile]

theorem rename_spec {s : Store} {map : Contents} {oldName newName : CString} {v : Noise}
    (h : StoreInv s map) (hold : FileName s oldName) (hnew : FileName s newName) :
    StoreInv (s.rename oldName newName v).1 ((StoreOp.rename oldName newName v).apply map) ∧
      ((s.rename oldName newName v).2 = 0 ↔ map oldName ≠ none ∧ map newName = none) := by
  unfold Store.rename StoreOp.apply
  cases hn : firstSlot s.heads (·.named newName) with
  | some j =>
      have hmap := h.map_of_key (hnew.found hn).2.2
      simp [hmap, h]
  | none =>
      have hmap := map_of_not_named h hn
      cases hi : firstSlot s.heads (·.named oldName) with
      | none => simp [hmap, map_of_not_named h hi, h]
      | some i =>
          obtain ⟨hused, hkey, hfile⟩ := hold.found hi
          have hbytes := h.map_of_key hfile
          have hheld : (s.files i).data ≠ 0 :=
            h.held i (by rw [hfile]; exact Option.some_ne_none _)
          obtain ⟨live, bs, hbs, hlive⟩ := h.heap
          have hchanged := save_changed (s := s) (i := i)
            (u := s.put i
              { (s.files i).setName newName with dirty := true, mtime := v.tick })
            fun j hj => Function.update_of_ne hj _ _
          simp only [Store.put, Function.update_self] at hchanged
          generalize he : ({ (s.files i).setName newName with
            dirty := true, mtime := v.tick } : Entry) = e at hchanged
          have hu : e.used ≠ 0 := by
            rw [← he]
            exact hused
          obtain ⟨hterm, hkey'⟩ := key_setName (g := e) hu (by rw [← he]; rfl) hnew.short
          have hkind : e.head.isDir = false := by
            rw [← he]
            exact (FSFile.isFile_iff.mp (FSFile.fileKey_iff.mp hfile)).2
          have hfile' : e.head.fileKey = some newName :=
            FSFile.fileKey_iff.mpr (FSFile.isFile_iff.mpr ⟨hkey', hkind⟩)
          have hdata : e.data = (s.files i).data ∧ e.size = (s.files i).size := by
            rw [← he]
            exact ⟨rfl, rfl⟩
          have hinv' := h.change hchanged ⟨bs, hbs⟩
            { terminated := fun _ => hterm
              fresh := by
                intro k hk j _ hjk
                rw [hkey'] at hk
                rw [← hk, ← FSFile.named_iff, firstSlot_none hn j] at hjk
                cases hjk
              free := fun hz => absurd hz hu
              held := fun _ => hdata.1 ▸ hheld
              live := fun _ => by
                rw [hdata.1, hdata.2]
                exact hlive i hheld
              apart := fun _ j hj heq => hj (h.apart i j hheld (heq.trans hdata.1)) }
            fun j _ hj => ⟨hlive j hj, rfl⟩
          rw [hfile', hfile, hdata.1, hdata.2] at hinv'
          dsimp only
          rw [he, hmap, hbytes]
          refine ⟨?_, by simp⟩
          dsimp only
          rw [Contents.update_eq, Contents.update_eq]
          exact hinv'

/-! ## Runs -/

theorem MappedStart.inv {s : Mapped} (h : MappedStart s) : StoreInv s.store s.map where
  heap := by
    obtain ⟨live, r⟩ := h.heap
    obtain ⟨t, bs, ht, inv⟩ := heapInv_reach r
    cases ht
    exact ⟨live, bs, inv, fun i hi => absurd (h.unheld i) hi⟩
  names := h.names
  free := fun i _ => h.unheld i
  held := fun i hi => absurd (h.empty i) hi
  apart := fun i _ hi => absurd (h.unheld i) hi
  map := by
    rw [h.map]
    funext name
    apply mapOf_eq_none
    intro i hi
    rw [h.empty i] at hi
    cases hi

theorem mappedStep_inv {s : Mapped} {op : StoreOp} (h : StoreInv s.store s.map)
    (hg : mappedGuard s op) : StoreInv (mappedStep s op).store (mappedStep s op).map := by
  obtain ⟨hcall, hgoes⟩ := hg
  cases op with
  | writeBin name bytes v =>
      obtain ⟨r, hr, hinv⟩ := write_spec 0 v h hcall.1 hcall.2.1 hcall.2.2
      have hrun : (StoreOp.writeBin name bytes v).run s.store = some r := hr
      rw [mappedStep, hrun]
      exact hinv (hgoes r hr)
  | writeTmp name bytes v =>
      obtain ⟨r, hr, hinv⟩ := write_spec 1 v h hcall.1 hcall.2.1 hcall.2.2
      have hrun : (StoreOp.writeTmp name bytes v).run s.store = some r := hr
      rw [mappedStep, hrun]
      exact hinv (hgoes r hr)
  | delete name v =>
      obtain ⟨r, hr, hinv, -⟩ := delete_spec (v := v) h hcall
      have hrun : (StoreOp.delete name v).run s.store = some r := hr
      rw [mappedStep, hrun]
      exact hinv
  | rename oldName newName v => exact (rename_spec h hcall.1 hcall.2).1

theorem StoreInv.ok {s : Mapped} (h : StoreInv s.store s.map) : MapOk s where
  reads := h.read
  returns := by
    intro op hcall
    cases op with
    | writeBin name bytes v =>
        obtain ⟨r, hr, -⟩ := write_spec 0 v h hcall.1 hcall.2.1 hcall.2.2
        exact ⟨r, hr⟩
    | writeTmp name bytes v =>
        obtain ⟨r, hr, -⟩ := write_spec 1 v h hcall.1 hcall.2.1 hcall.2.2
        exact ⟨r, hr⟩
    | delete name v =>
        obtain ⟨r, hr, -⟩ := delete_spec (v := v) h hcall
        exact ⟨r, hr⟩
    | rename oldName newName v => exact ⟨_, rfl⟩
  deletes := by
    intro name v r hcall hr
    obtain ⟨r', hr', -, hone⟩ := delete_spec (v := v) h hcall
    rw [hr'] at hr
    exact Option.some.inj hr ▸ hone
  renames := fun _ _ _ hcall => (rename_spec h hcall.1 hcall.2).2

theorem store_is_map {s : Mapped} (r : Reach MappedStart mappedGuard mappedStep s) : MapOk s := by
  have hinv : StoreInv s.store s.map := r.invariant (P := fun u : Mapped => StoreInv u.store u.map)
    (fun _ => MappedStart.inv) fun _ _ => mappedStep_inv
  exact hinv.ok

def blankEntry : Entry := ⟨fun _ => 0, 0, 0, 0, false, 0, 0, 0, 0⟩

/-- A table without entries over a heap that has just been set up. -/
def blankStore : Store :=
  ⟨fun _ => blankEntry, fun _ _ => 0, memInit fun _ => ⟨0, false, 0⟩, fun _ => 0⟩

def firstMapped : Mapped := ⟨blankStore, fun _ => none⟩

theorem firstMapped_start : MappedStart firstMapped where
  heap := ⟨[], Reach.start ⟨_, rfl⟩⟩
  names := ⟨fun _ hu => absurd rfl hu, DistinctKeys.of_empty fun _ => rfl⟩
  empty := fun _ => FSFile.fileKey_of_free rfl
  unheld := fun _ => rfl
  map := rfl

theorem store_is_map_one_file :
    MapOk (mappedStep firstMapped (.writeBin nameA [1, 2] quiet)) := by
  have hdone : (firstMapped.store.writeBin nameA [1, 2] quiet).map Prod.snd = some 1 := by
    decide +kernel
  apply store_is_map
  apply Reach.next _ (Reach.start firstMapped_start)
  refine ⟨⟨⟨by decide, ?_⟩, by decide, by decide⟩, ?_⟩
  · rintro ⟨i, hi, -⟩
    cases hi
  · intro r hr
    rw [hr] at hdone
    exact Option.some.inj hdone

end OriaOS.Fs
