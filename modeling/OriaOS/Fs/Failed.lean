import OriaOS.Fs.Edit
import OriaOS.Fs.Entries

/-!
# Writes that fail

The writing functions of `fs.c` over the heap that holds the buffers. Whether a write fails
depends on the blocks of the heap, and by then the old buffer may be gone.
-/

namespace OriaOS.Fs

open OriaOS.Lib OriaOS.Heap
open OriaOS.Lib.BlockList (Blk Cell merge markFree firstFit firstFit_eq_none_iff)

/-- The three functions that write. -/
inductive WriteCall where
  | text (name str : CString)
  | bin (name : CString) (bytes : List UInt8)
  | tmp (name : CString) (bytes : List UInt8)

/-- The call as the source makes it. -/
def WriteCall.run (s : Store) (v : Noise) : WriteCall → Option (Store × Int)
  | .text name str => s.write name str v
  | .bin name bytes => s.writeBin name bytes v
  | .tmp name bytes => s.writeTmp name bytes v

/-- Every file reads back alike. -/
def SameReads (s t : Store) : Prop :=
  ∀ name, t.readBytes name = s.readBytes name ∧ t.readText name = s.readText name

/-- When the call fails, every file reads back as before. -/
def FailKeeps (s : Store) (call : WriteCall) : Prop :=
  ∀ v t, call.run s v = some (t, 0) → SameReads s t

/-- The heap without the block `p` can serve a request. -/
def ServedWithout (h : KHeap) (p size : Nat) : Prop :=
  ∀ h' h'', Heap.free h p = some h' → Heap.malloc h' size ≠ some (h'', 0)

/-- A binary write that replaces a buffer gets a new one once the old one is free. -/
def ReplacementServed (s : Store) : WriteCall → Prop
  | .text _ _ => True
  | .bin name bytes | .tmp name bytes =>
      bytes.length ≤ maxBinData → ∀ i, firstSlot s.heads (·.isFile name) = some i →
        (s.files i).data ≠ 0 → ServedWithout s.mem.heap (s.files i).data bytes.length

/-! ## What a refused request leaves -/

section Refused
variable {s : Store}

/-- The heap refuses a request without writing a header. -/
theorem mallocLoop_refused {size fuel curr : Nat} {m m' : Nat → Cell}
    (h : mallocLoop size fuel curr m = some (m', 0)) : m' = m := by
  induction fuel generalizing curr with
  | zero => cases h
  | succ fuel ih =>
      rw [mallocLoop] at h
      split at h
      · cases h
        rfl
      · split at h
        · cases h
        · exact ih h

theorem malloc_refused {h h' : KHeap} {n : Nat} (hm : Heap.malloc h n = some (h', 0)) :
    h' = h := by
  rw [Heap.malloc] at hm
  split at hm
  · cases hm
    rfl
  · obtain ⟨r, hr, heq⟩ := Option.map_eq_some_iff.mp hm
    obtain ⟨rfl, hr2⟩ := Prod.mk.inj heq
    have hloop : mallocLoop (roundUp n) heapSize h.head h.mem = some (r.1, 0) := by
      rw [hr, ← hr2]
    rw [mallocLoop_refused hloop]

theorem stamp_self (m : Nat → Cell) (junk byte : Nat → UInt8) : stamp m m junk byte = byte := by
  funext a
  have hnone : written m m a = false := by simp [written]
  rw [stamp, hnone]
  rfl

theorem heapMem_malloc_refused {h h' : HeapMem} {n : Nat} {junk : Nat → UInt8}
    (hm : h.malloc n junk = some (h', 0)) : h' = h := by
  obtain ⟨⟨k, p⟩, hk, heq⟩ := Option.map_eq_some_iff.mp hm
  obtain ⟨rfl, rfl⟩ := Prod.mk.inj heq
  obtain rfl := malloc_refused hk
  cases h
  simp only [stamp_self]

theorem Store.put_put (s : Store) (i : Slot) (e g : Entry) : (s.put i e).put i g = s.put i g := by
  simp [Store.put]

@[simp] theorem Store.put_files_self (s : Store) (i : Slot) (e : Entry) :
    (s.put i e).files i = e := by
  simp [Store.put]

/-- Setting the null pointer where it stands changes nothing. -/
theorem Store.put_null {i : Slot} (h : (s.files i).data = 0) :
    s.put i { s.files i with data := 0 } = s := by
  have hsame : ({ s.files i with data := 0 } : Entry) = s.files i := by rw [← h]
  rw [hsame, Store.put, Function.update_eq_self]

theorem ensureData_refused {i : Slot} {v : Noise} {t : Store}
    (h : s.ensureData i v = some (t, 0)) : t = s := by
  rw [Store.ensureData] at h
  split at h
  · next hdata => exact absurd (congrArg Prod.snd (Option.some.inj h)) hdata
  · next hdata =>
    obtain ⟨⟨mem, p⟩, hr, heq⟩ := Option.map_eq_some_iff.mp h
    by_cases hp : p = 0
    · subst hp
      obtain rfl := heapMem_malloc_refused hr
      rw [← (Prod.mk.inj heq).1]
      exact Store.put_null (not_not.mp hdata)
    · simp only [if_neg hp] at heq
      exact absurd (Prod.mk.inj heq).2 hp

/-- A text write that gets no buffer leaves the table. -/
theorem fillText_refused {i : Slot} {text : CString} {v : Noise} {finish : Entry → Entry}
    {t : Store} (h : s.fillText i text v finish = some (t, 0)) : t = s := by
  obtain ⟨⟨u, p⟩, hu, heq⟩ := Option.map_eq_some_iff.mp h
  by_cases hp : p = 0
  · subst hp
    rw [if_pos rfl] at heq
    cases heq
    exact ensureData_refused hu
  · rw [if_neg hp] at heq
    cases heq

/-- A binary write that gets no buffer leaves the null pointer. -/
theorem fill_refused {i : Slot} {bytes : List UInt8} {v : Noise} {finish : Entry → Entry}
    {t : Store} (h : s.fill i bytes v finish = some (t, 0)) :
    t = s.put i { s.files i with data := 0 } ∧
      Heap.malloc s.mem.heap bytes.length = some (s.mem.heap, 0) := by
  obtain ⟨⟨mem, p⟩, hr, heq⟩ := Option.map_eq_some_iff.mp h
  by_cases hp : p = 0
  · subst hp
    rw [if_pos rfl] at heq
    obtain rfl := heapMem_malloc_refused hr
    obtain ⟨⟨k, q⟩, hk, hkq⟩ := Option.map_eq_some_iff.mp hr
    obtain rfl : q = 0 := (Prod.mk.inj hkq).2
    refine ⟨(Prod.mk.inj heq).1.symm, ?_⟩
    rw [hk, malloc_refused hk]
  · rw [if_neg hp] at heq
    cases heq

end Refused

/-! ## Reads after a failed write -/

section Reads
variable {s t : Store} {bytes : List UInt8} {v : Noise} {i : Slot}

theorem SameReads.refl (s : Store) : SameReads s s := fun _ => ⟨rfl, rfl⟩

theorem isFile_of_unused {f : FSFile} (h : f.used = 0) (name : CString) :
    f.isFile name = false := by
  simp [FSFile.isFile, h]

/-- An entry that is not in use is not read. -/
theorem sameReads_put {e : Entry} (hs : (s.files i).used = 0) (he : e.used = 0) :
    SameReads s (s.put i e) := by
  intro name
  have hslot : firstSlot (s.put i e).heads (·.isFile name) =
      firstSlot s.heads (·.isFile name) := by
    refine congrArg (List.find? · (List.finRange maxFiles)) ?_
    funext j
    by_cases hj : j = i
    · subst hj
      have hnew : ((s.put j e).heads j).used = 0 := by
        simpa [Store.heads, Entry.head, Entry.file] using he
      have hold : (s.heads j).used = 0 := hs
      dsimp only
      rw [isFile_of_unused hnew, isFile_of_unused hold]
    · simp [Store.put, Store.heads, hj]
  have hread : (s.put i e).readBin name = s.readBin name := by
    rw [Store.readBin, Store.readBin, hslot]
    cases hfound : firstSlot s.heads (·.isFile name) with
    | none => rfl
    | some j =>
        have hj : j ≠ i := by
          rintro rfl
          exact used_of_isFile hfound hs
        simp [Store.put, hj]
  constructor
  · rw [Store.readBytes, Store.readBytes, hread]
    rfl
  · rw [Store.readText, Store.readText, hread]
    rfl

/-- A text write that fails has at most named a free entry. -/
theorem write_failed {name text : CString} (h : s.write name text v = some (t, 0)) :
    SameReads s t := by
  rw [Store.write] at h
  split at h
  · cases h
    exact .refl s
  · split at h
    · obtain rfl := fillText_refused h
      exact .refl t
    · split at h
      · next i hi =>
        obtain rfl := fillText_refused h
        have hunused : (s.files i).used = 0 := free_of_firstSlot hi
        exact sameReads_put hunused hunused
      · cases h
        exact .refl s

/-- A binary write that fails has at most named a free entry, or it has given up the buffer
of the file before the heap refused a new one. -/
theorem writeBinInternal_failed {name : CString} {tmpfs : UInt8}
    (h : s.writeBinInternal name bytes tmpfs v = some (t, 0)) :
    SameReads s t ∨ bytes.length ≤ maxBinData ∧ ∃ i,
      firstSlot s.heads (·.isFile name) = some i ∧ (s.files i).data ≠ 0 ∧
        ¬ ServedWithout s.mem.heap (s.files i).data bytes.length := by
  rw [Store.writeBinInternal] at h
  split at h
  · cases h
    exact Or.inl (.refl s)
  · next hsize =>
    split at h
    · next i hi =>
      obtain ⟨u, hu, hfill⟩ := Option.bind_eq_some_iff.mp h
      obtain ⟨rfl, hm⟩ := fill_refused hfill
      rw [Store.release] at hu
      split at hu
      · next hdata =>
        left
        cases hu
        rw [Store.put_null hdata]
        exact .refl s
      · next hdata =>
        right
        refine ⟨Nat.le_of_not_lt hsize, i, hi, hdata, ?_⟩
        intro hserved
        obtain ⟨mem, hfree, rfl⟩ := Option.map_eq_some_iff.mp hu
        obtain ⟨k, hk, rfl⟩ := Option.map_eq_some_iff.mp hfree
        exact hserved k k hk hm
    · split at h
      · next i hi =>
        obtain ⟨rfl, -⟩ := fill_refused h
        left
        have hunused : (s.files i).used = 0 := free_of_firstSlot hi
        rw [Store.put_put]
        exact sameReads_put hunused (by simpa [Entry.setName] using hunused)
      · cases h
        exact Or.inl (.refl s)

/-- The search does not look at the buffers. -/
theorem firstSlot_null (s : Store) (mem : HeapMem) (i : Slot) (name : CString) :
    firstSlot ({ s with mem := mem }.put i { s.files i with data := 0 }).heads
      (·.isFile name) = firstSlot s.heads (·.isFile name) := by
  refine congrArg (List.find? · (List.finRange maxFiles)) ?_
  funext j
  by_cases hj : j = i
  · subst hj
    simp only [Store.heads, Store.put, Function.update_self]
    rfl
  · simp only [Store.heads, Store.put, Function.update_of_ne hj]

/-- The buffer is given up and the heap refuses: the file cannot be read any more. -/
theorem writeBinInternal_loses {name : CString} (hsize : bytes.length ≤ maxBinData)
    (hi : firstSlot s.heads (·.isFile name) = some i) (hdata : (s.files i).data ≠ 0)
    (hserved : ¬ ServedWithout s.mem.heap (s.files i).data bytes.length) (tmpfs : UInt8)
    (v : Noise) :
    ∃ t, s.writeBinInternal name bytes tmpfs v = some (t, 0) ∧ ¬ SameReads s t := by
  simp only [ServedWithout, not_forall, not_not] at hserved
  obtain ⟨h', h'', hfree, hm⟩ := hserved
  let mem : HeapMem := ⟨h', stamp s.mem.heap.mem h'.mem v.freed s.mem.byte⟩
  let t : Store := { s with mem := mem }.put i { s.files i with data := 0 }
  have hrelease : s.release i v.freed = some t := by
    rw [Store.release, if_neg hdata, HeapMem.free, hfree]
    rfl
  obtain ⟨k, hk⟩ : ∃ k, mem.malloc bytes.length v.taken = some (k, 0) := by
    refine ⟨⟨h'', stamp h'.mem h''.mem v.taken mem.byte⟩, ?_⟩
    rw [HeapMem.malloc, hm]
    rfl
  have hfill (finish : Entry → Entry) : t.fill i bytes v finish = some (t, 0) := by
    have hmalloc : t.mem.malloc bytes.length v.taken = some (t.mem, 0) := by
      rw [heapMem_malloc_refused hk] at hk
      exact hk
    have hnull : (t.files i).data = 0 := by simp [t]
    rw [Store.fill, hmalloc, Option.map_some, if_pos rfl]
    exact congrArg (fun u => some (u, 0)) (Store.put_null hnull)
  refine ⟨t, ?_, ?_⟩
  · rw [Store.writeBinInternal, if_neg (Nat.not_lt_of_le hsize)]
    simp only [hi, hrelease, Option.bind_some, hfill]
  · intro hsame
    have hbin := (hsame name).1
    have hslot : firstSlot t.heads (·.isFile name) = some i :=
      (firstSlot_null s mem i name).trans hi
    simp [Store.readBytes, Store.readBin, hslot, hi, hdata, t] at hbin

end Reads

/-- A failed write keeps what every file reads back exactly when it did not replace a buffer
that the heap could not serve again. -/
theorem failed_write_keeps_iff (s : Store) (call : WriteCall) :
    FailKeeps s call ↔ ReplacementServed s call := by
  have hbin : ∀ name bytes tmpfs,
      (∀ v t, s.writeBinInternal name bytes tmpfs v = some (t, 0) → SameReads s t) ↔
      (bytes.length ≤ maxBinData → ∀ i, firstSlot s.heads (·.isFile name) = some i →
        (s.files i).data ≠ 0 → ServedWithout s.mem.heap (s.files i).data bytes.length) := by
    intro name bytes tmpfs
    constructor
    · intro h hsize i hi hdata
      by_contra hserved
      obtain ⟨t, ht, hlost⟩ := writeBinInternal_loses hsize hi hdata hserved tmpfs quiet
      exact hlost (h quiet t ht)
    · intro h v t ht
      rcases writeBinInternal_failed ht with hsame | ⟨hsize, i, hi, hdata, hserved⟩
      · exact hsame
      · exact absurd (h hsize i hi hdata) hserved
  cases call with
  | text name str => exact ⟨fun _ => trivial, fun _ v t ht => write_failed ht⟩
  | bin name bytes => exact hbin name bytes 0
  | tmp name bytes => exact hbin name bytes 1

/-- On a heap whose blocks tile its region: a block that is free once the old one is must be
large enough. -/
theorem servedWithout_iff {h : KHeap} {bs : List Blk} (ht : Tiles h bs) {p : Nat} (hp : p ≠ 0)
    (size : Nat) : ServedWithout h p size ↔ size ≠ 0 ∧
      ∃ b ∈ merge headerSize (markFree headerSize (p - headerSize) heapStart bs),
        b.free = true ∧ roundUp size ≤ b.size := by
  obtain ⟨h', hfree, ht', -⟩ := free_spec ht hp
  have hserved : ServedWithout h p size ↔ ∀ h'', Heap.malloc h' size ≠ some (h'', 0) := by
    constructor
    · exact fun hs h'' => hs h' h'' hfree
    · intro hs k h'' hk
      rw [hfree] at hk
      cases hk
      exact hs h''
  rw [hserved]
  by_cases hsize : size = 0
  · subst hsize
    simp [Heap.malloc]
  · have hspec := malloc_spec ht' hsize
    have hnone := @firstFit_eq_none_iff headerSize 4 (roundUp size)
      (merge headerSize (markFree headerSize (p - headerSize) heapStart bs))
    cases hfit : firstFit headerSize 4 (roundUp size)
        (merge headerSize (markFree headerSize (p - headerSize) heapStart bs)) with
    | none =>
        simp only [hfit] at hspec
        have hall := hnone.mp hfit
        refine iff_of_false (fun hs => hs h' hspec) ?_
        rintro ⟨-, b, hb, hbfree, hle⟩
        exact absurd (hall b hb hbfree) (Nat.not_lt_of_le hle)
    | some r =>
        obtain ⟨off, bs'⟩ := r
        simp only [hfit] at hspec
        obtain ⟨k, hm, -, -⟩ := hspec
        have hptr : heapStart + off + headerSize ≠ 0 := by simp [heapStart]
        refine iff_of_true ?_ ⟨hsize, ?_⟩
        · intro h'' hm'
          rw [hm] at hm'
          exact hptr (Prod.mk.inj (Option.some.inj hm')).2
        · by_contra hno
          push Not at hno
          rw [hnone.mpr fun b hb hbfree => hno b hb hbfree] at hfit
          cases hfit

/-! ## A file that is lost -/

/-- Entry 0 is the file `a` with the byte 1 in the first block of the heap. -/
def oneBlock : Store where
  files := fun i =>
    { name := fun k => if k.val = 0 then 97 else 0
      size := 1, used := if i.val = 0 then 1 else 0, tmpfs := 0, dirty := false
      perms := permRead ||| permWrite, ctime := 0, mtime := 0
      data := if i.val = 0 then heapStart + headerSize else 0 }
  disk := fun _ _ => 0
  mem :=
    { heap :=
        { head := heapStart
          mem := fun a =>
            if a = heapStart then ⟨4, false, heapStart + headerSize + 4⟩
            else ⟨heapSize - 2 * headerSize - 4, true, 0⟩ }
      byte := fun _ => 1 }

theorem oneBlock_tiles :
    Tiles oneBlock.mem.heap [⟨4, false⟩, ⟨heapSize - 2 * headerSize - 4, true⟩] := by
  refine ⟨rfl, ⟨rfl, ?_, trivial⟩, by decide⟩
  rfl

/-- Nothing is written over a file: the call fails, and the file is gone. -/
theorem empty_write_loses_file :
    ¬ FailKeeps oneBlock (.bin ⟨[97], by decide⟩ []) := by
  intro hkeep
  have hslot : firstSlot oneBlock.heads (·.isFile ⟨[97], by decide⟩) = some 0 := by
    decide +kernel
  have hdata : (oneBlock.files 0).data ≠ 0 := by decide
  have hserved : ¬ ServedWithout oneBlock.mem.heap (oneBlock.files 0).data 0 := by
    rw [servedWithout_iff oneBlock_tiles hdata]
    exact fun h => h.1 rfl
  obtain ⟨t, ht, hlost⟩ := @writeBinInternal_loses oneBlock [] 0 _ (Nat.zero_le _) hslot hdata
    hserved 0 quiet
  exact hlost (hkeep _ t ht)

end OriaOS.Fs
