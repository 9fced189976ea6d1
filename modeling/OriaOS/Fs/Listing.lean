import OriaOS.Fs.Inode
import OriaOS.Lib.Reading

/-!
# Listing a directory

`mfs4_listdir` into a buffer of any size. It writes the names of the entries in table order,
up to the first that might not fit with a slash, a newline and the terminator. An entry of a
named directory has a name of at least one byte; a path that ends with the slash of the
directory is not listed.
-/

namespace OriaOS.Fs

open OriaOS.Lib

/-- `/` -/
def slash : UInt8 := 0x2F

/-- The newline that ends an entry. -/
def newline : UInt8 := 0x0A

/-- `mfs4_listdir`, the test for a direct child. -/
def isChild (dir p : List UInt8) : Bool :=
  if dir.length = 0 then !p.any (· == slash)
  else if dir.length + 1 < p.length ∧ p[dir.length]? = some slash then
    (List.range dir.length).all (fun j => p[j]? == dir[j]?) &&
      !(p.drop (dir.length + 1)).any (· == slash)
  else false

/-- `mfs4_listdir`, the start of the name: behind the last slash. -/
def nameStart (p : List UInt8) : Nat :=
  (List.range p.length).foldl (fun start j => if p[j]? = some slash then j + 1 else start) 0

/-- The buffer, what is written of it and the number of entries. -/
structure ListState where
  buf : Nat → UInt8
  pos : Nat
  count : Nat

/-- One entry: the name, a slash for a directory, and a newline. -/
def ListState.write (st : ListState) (name : List UInt8) (isDir : Bool) : ListState :=
  let line := name ++ ((if isDir then [slash] else []) ++ [newline])
  { buf := stored st.buf st.pos line, pos := st.pos + line.length, count := st.count + 1 }

/-- `mfs4_listdir`, the loop over the inodes. -/
def listLoop (s : Mfs4) (dir : CString) (bufsz : Int) : List (Fin maxInodes) → ListState → ListState
  | [], st => st
  | i :: is, st =>
      if (s.inodes i).used = 0 then listLoop s dir bufsz is st
      else
        let p := (pathStr s i).bytes
        if isChild dir.bytes p then
          let name := p.drop (nameStart p)
          if bufsz ≤ st.pos + name.length + 2 then st
          else
            listLoop s dir bufsz is (st.write name ((s.inodes i).type == typeDir))
        else listLoop s dir bufsz is st

/-- `mfs4_listdir`: what it returns and the buffer. -/
def mfs4Listdir (s : Mfs4) (dir : CString) (buf : Nat → UInt8) (bufsz : Int) :
    Int × (Nat → UInt8) :=
  let st := listLoop s dir bufsz (List.finRange maxInodes) ⟨buf, 0, 0⟩
  (st.count, if st.pos < bufsz then Function.update st.buf st.pos 0 else st.buf)

/-! ## The entries of a directory -/

/-- An entry: its name, and whether it is a directory. -/
abbrev ListEntry := List UInt8 × Bool

/-- What stands in front of the names in a directory. -/
def dirPrefix (dir : List UInt8) : List UInt8 := if dir = [] then [] else dir ++ [slash]

/-- The name of a path in a directory: what is behind the prefix, if it has no slash. -/
def childName (dir path : List UInt8) : Option (List UInt8) :=
  let name := path.drop (dirPrefix dir).length
  if dirPrefix dir <+: path ∧ slash ∉ name then some name else none

/-- The name of a path in a directory, which is not empty in a named directory. -/
def namedChild (dir path : List UInt8) : Option (List UInt8) :=
  (childName dir path).filter fun name => dir = [] || name ≠ []

/-- The entries of a directory in table order, with what counts as a name in it. -/
def entries (nameIn : List UInt8 → List UInt8 → Option (List UInt8)) (s : Mfs4) (dir : CString) :
    List ListEntry :=
  (List.finRange maxInodes).filterMap fun i =>
    if (s.inodes i).used = 0 then none
    else (nameIn dir.bytes (pathStr s i).bytes).map fun name =>
      (name, (s.inodes i).type == typeDir)

/-- The text of an entry. -/
def ListEntry.line (e : ListEntry) : List UInt8 :=
  e.1 ++ ((if e.2 then [slash] else []) ++ [newline])

def listText (es : List ListEntry) : List UInt8 := es.flatMap ListEntry.line

/-- The entries in front of the first whose name and three more bytes exceed the buffer,
behind so many bytes of text. -/
def fitting (bufsz : Int) : Nat → List ListEntry → List ListEntry
  | _, [] => []
  | pos, e :: es =>
      if bufsz < pos + e.1.length + 3 then [] else e :: fitting bufsz (pos + e.line.length) es

/-- A listing: nothing outside the buffer is written, the number of the entries that fit is
returned, and their text stands in the buffer with its terminator. -/
structure Lists (nameIn : List UInt8 → List UInt8 → Option (List UInt8)) (s : Mfs4)
    (dir : CString) (buf : Nat → UInt8) (bufsz : Int) : Prop where
  inside : ∀ i : Nat, bufsz ≤ i → (mfs4Listdir s dir buf bufsz).2 i = buf i
  count : (mfs4Listdir s dir buf bufsz).1 = (fitting bufsz 0 (entries nameIn s dir)).length
  text : 0 < bufsz → StandAt (mfs4Listdir s dir buf bufsz).2 0
    (listText (fitting bufsz 0 (entries nameIn s dir)) ++ [0])

section Names
variable {dir path name : List UInt8}

/-- A path is a child if it is the prefix and a name without slashes. -/
theorem childName_eq_some :
    childName dir path = some name ↔ path = dirPrefix dir ++ name ∧ slash ∉ name := by
  rw [childName]
  constructor
  · intro h
    obtain ⟨⟨⟨rest, hrest⟩, hslash⟩, hname⟩ := Option.ite_none_right_eq_some.mp h
    rw [← hrest, List.drop_left] at hname hslash
    obtain rfl := Option.some.inj hname
    exact ⟨hrest.symm, hslash⟩
  · rintro ⟨rfl, hslash⟩
    rw [List.drop_left, if_pos ⟨List.prefix_append _ _, hslash⟩]

theorem namedChild_eq_some :
    namedChild dir path = some name ↔
      path = dirPrefix dir ++ name ∧ slash ∉ name ∧ (dir = [] ∨ name ≠ []) := by
  rw [namedChild, Option.filter_eq_some_iff, childName_eq_some, and_assoc]
  simp

/-- The scan for the name, by the last byte. -/
theorem nameStart_concat (p : List UInt8) (c : UInt8) :
    nameStart (p ++ [c]) = if c = slash then p.length + 1 else nameStart p := by
  have hfold : (List.range p.length).foldl
      (fun start j => if (p ++ [c])[j]? = some slash then j + 1 else start) 0 = nameStart p := by
    apply List.foldl_ext
    intro start j hj
    rw [List.getElem?_append_left (List.mem_range.mp hj)]
  rw [nameStart, List.length_append, List.length_singleton, List.range_succ, List.foldl_append,
    hfold, List.foldl_cons, List.foldl_nil, List.getElem?_concat_length]
  simp

/-- A name without slashes starts where the path in front of it ends. -/
theorem nameStart_append (pre : List UInt8) (hslash : slash ∉ name) :
    nameStart (pre ++ name) = nameStart pre := by
  induction name using List.reverseRecOn with
  | nil => rw [List.append_nil]
  | append_singleton name c ih =>
      rw [List.mem_append, not_or, List.mem_singleton] at hslash
      rw [← List.append_assoc, nameStart_concat, if_neg (Ne.symm hslash.2), ih hslash.1]

theorem nameStart_dirPrefix (dir : List UInt8) :
    nameStart (dirPrefix dir) = (dirPrefix dir).length := by
  rw [dirPrefix]
  split
  · rfl
  · rw [nameStart_concat, if_pos rfl, List.length_append, List.length_singleton]

theorem not_any_slash (p : List UInt8) : (!p.any (· == slash)) = true ↔ slash ∉ p := by
  rw [Bool.not_eq_true', List.any_eq_false]
  constructor
  · exact fun h hmem => h slash hmem (beq_self_eq_true slash)
  · intro h x hx heq
    exact h (eq_of_beq heq ▸ hx)

/-- The comparisons with a named directory. -/
theorem isChild_named (hdir : dir ≠ []) : isChild dir path = true ↔
    (dir.length + 1 < path.length ∧ path[dir.length]? = some slash) ∧
      (∀ j < dir.length, path[j]? = dir[j]?) ∧ slash ∉ path.drop (dir.length + 1) := by
  have hne : ¬ dir.length = 0 := fun h => hdir (List.length_eq_zero_iff.mp h)
  rw [isChild, if_neg hne, Bool.if_false_right, Bool.and_eq_true, Bool.and_eq_true, not_any_slash,
    decide_eq_true_iff, List.all_eq_true]
  simp only [List.mem_range, beq_iff_eq]

/-- The test for a child tells whether there is a name. -/
theorem isChild_iff (dir path : List UInt8) :
    isChild dir path = true ↔ ∃ name, namedChild dir path = some name := by
  simp only [namedChild_eq_some]
  by_cases hdir : dir = []
  · subst hdir
    rw [isChild, if_pos List.length_nil, not_any_slash]
    simp [dirPrefix]
  have hprefix : dirPrefix dir = dir ++ [slash] := if_neg hdir
  rw [isChild_named hdir, hprefix]
  constructor
  · rintro ⟨⟨hlong, hslash⟩, hsame, hname⟩
    refine ⟨path.drop (dir.length + 1), ?_, hname, Or.inr ?_⟩
    · have htake : path.take dir.length = dir := by
        apply List.ext_getElem?
        intro j
        rw [List.getElem?_take]
        split
        · exact hsame j ‹_›
        · rw [List.getElem?_eq_none (by omega)]
      calc
        path = path.take dir.length ++ path.drop dir.length := (List.take_append_drop ..).symm
        _ = dir ++ slash :: path.drop (dir.length + 1) := by
            rw [htake, List.drop_eq_getElem?_toList_append, hslash]
            rfl
        _ = dir ++ [slash] ++ path.drop (dir.length + 1) := by simp
    · rw [ne_eq, List.drop_eq_nil_iff]
      omega
  · rintro ⟨name, rfl, hslash, hne⟩
    have hpos := List.length_pos_of_ne_nil (hne.resolve_left hdir)
    refine ⟨⟨?_, ?_⟩, ?_, ?_⟩
    · simp only [List.length_append, List.length_singleton]
      omega
    · simp
    · intro j hj
      rw [List.append_assoc, List.getElem?_append_left hj]
    · rw [List.drop_left' (by simp)]
      exact hslash

/-- The test for a child and the name behind the last slash give the named entries. -/
theorem namedChild_eq (dir path : List UInt8) : namedChild dir path =
    if isChild dir path then some (path.drop (nameStart path)) else none := by
  cases hname : namedChild dir path with
  | none =>
      rw [if_neg]
      intro hchild
      obtain ⟨name, h⟩ := (isChild_iff dir path).mp hchild
      cases hname.symm.trans h
  | some name =>
      obtain ⟨hpath, hslash, -⟩ := namedChild_eq_some.mp hname
      rw [if_pos ((isChild_iff dir path).mpr ⟨name, hname⟩), hpath, nameStart_append _ hslash,
        nameStart_dirPrefix, List.drop_left]

end Names

section Loop
variable {s : Mfs4} {dir : CString} {bufsz : Int}

/-- The state behind some entries. -/
def ListState.writeAll (st : ListState) (es : List ListEntry) : ListState where
  buf := stored st.buf st.pos (listText es)
  pos := st.pos + (listText es).length
  count := st.count + es.length

theorem listText_cons (e : ListEntry) (es : List ListEntry) :
    listText (e :: es) = e.line ++ listText es := rfl

/-- One entry and then the others. -/
theorem ListState.writeAll_cons (st : ListState) (e : ListEntry) (es : List ListEntry) :
    st.writeAll (e :: es) = (st.write e.1 e.2).writeAll es := by
  have hpos : (st.write e.1 e.2).pos = st.pos + e.line.length := rfl
  have hbuf : (st.write e.1 e.2).buf = stored st.buf st.pos e.line := rfl
  have hcount : (st.write e.1 e.2).count = st.count + 1 := rfl
  rw [ListState.writeAll, ListState.writeAll, hpos, hbuf, hcount, listText_cons, stored_append,
    List.length_append, List.length_cons, Nat.add_assoc st.pos, Nat.add_assoc st.count,
    Nat.add_comm 1]

/-- The loop writes the entries that fit, of the inodes it runs through. -/
theorem listLoop_spec (is : List (Fin maxInodes)) (st : ListState) :
    listLoop s dir bufsz is st = st.writeAll (fitting bufsz st.pos (is.filterMap fun i =>
      if (s.inodes i).used = 0 then none
      else (namedChild dir.bytes (pathStr s i).bytes).map fun name =>
        (name, (s.inodes i).type == typeDir))) := by
  induction is generalizing st with
  | nil => rfl
  | cons i is ih =>
      rw [listLoop, List.filterMap_cons, namedChild_eq]
      by_cases hused : (s.inodes i).used = 0
      · rw [if_pos hused, if_pos hused]
        exact ih st
      rw [if_neg hused, if_neg hused]
      dsimp only
      split
      · rw [Option.map_some]
        dsimp only
        rw [fitting]
        by_cases hfull : bufsz ≤
            st.pos + ((pathStr s i).bytes.drop (nameStart (pathStr s i).bytes)).length + 2
        · rw [if_pos hfull, if_pos (by dsimp only; omega)]
          rfl
        · rw [if_neg hfull, if_neg (by dsimp only; omega), ListState.writeAll_cons]
          exact ih _
      · exact ih st

/-- What fits leaves room for the terminator. -/
theorem length_fitting (pos : Nat) (es : List ListEntry) (hpos : pos < bufsz) :
    pos + (listText (fitting bufsz pos es)).length < bufsz := by
  induction es generalizing pos with
  | nil => simpa [fitting, listText] using hpos
  | cons e es ih =>
      rw [fitting]
      split
      · simpa [listText] using hpos
      · have hline : e.line.length ≤ e.1.length + 2 := by
          rw [ListEntry.line, List.length_append]
          split <;> simp
        have := ih (pos + e.line.length) (by omega)
        rw [listText_cons, List.length_append]
        omega

/-- Nothing fits a buffer without a byte. -/
theorem fitting_nil (es : List ListEntry) (hbuf : bufsz ≤ 0) : fitting bufsz 0 es = [] := by
  cases es with
  | nil => rfl
  | cons e es =>
      rw [fitting, if_pos]
      omega

end Loop

/-- What `mfs4_listdir` does: the entries that fit, and behind them the terminator. -/
theorem mfs4Listdir_eq (s : Mfs4) (dir : CString) (buf : Nat → UInt8) (bufsz : Int) :
    mfs4Listdir s dir buf bufsz = (((fitting bufsz 0 (entries namedChild s dir)).length : Int),
      if 0 < bufsz then
        stored buf 0 (listText (fitting bufsz 0 (entries namedChild s dir)) ++ [0])
      else buf) := by
  have hloop : listLoop s dir bufsz (List.finRange maxInodes) ⟨buf, 0, 0⟩
      = (ListState.mk buf 0 0).writeAll (fitting bufsz 0 (entries namedChild s dir)) :=
    listLoop_spec _ _
  rw [mfs4Listdir, hloop]
  simp only [ListState.writeAll, Nat.zero_add]
  by_cases hbuf : 0 < bufsz
  · have hroom := length_fitting 0 (entries namedChild s dir) hbuf
    rw [if_pos hbuf, if_pos (by omega), stored_append, Nat.zero_add]
    rfl
  · rw [if_neg hbuf, if_neg (by omega), fitting_nil _ (by omega)]
    rfl

/-- `mfs4_listdir` lists the entries of a directory, where the name of an entry of a named
directory is not empty. -/
theorem mfs4Listdir_lists (s : Mfs4) (dir : CString) (buf : Nat → UInt8) (bufsz : Int) :
    Lists namedChild s dir buf bufsz := by
  have hrun := mfs4Listdir_eq s dir buf bufsz
  constructor
  · intro i hi
    rw [hrun]
    dsimp only
    split
    · have hroom := length_fitting 0 (entries namedChild s dir) ‹0 < bufsz›
      apply stored_of_outside
      rw [List.length_append, List.length_singleton]
      omega
    · rfl
  · rw [hrun]
  · intro hbuf
    rw [hrun, if_pos hbuf]
    exact standAt_stored _

/-- A table with one inode, whose path ends with a slash. -/
def slashTable : Mfs4 where
  inodes := fun i =>
    { type := typeFile, used := if i.val = 0 then 1 else 0, pad := 0, inodeId := 1
      path := fun k => if k.val = 0 then 97 else if k.val = 1 then slash else 0
      target := fun _ => 0, ctime := 0, mtime := 0 }
  nextInodeId := 2

/-- The path `a/` is not listed in the directory `a`. -/
theorem not_every_listing : ¬ ∀ s dir buf bufsz, Lists childName s dir buf bufsz := by
  intro h
  have hcount := (h slashTable ⟨[97], by decide⟩ (fun _ => 0) 100).count
  rw [mfs4Listdir_eq] at hcount
  exact absurd hcount (by decide +kernel)

end OriaOS.Fs
