import OriaOS.Lib.Partial
import OriaOS.Lib.Reach

/-!
# The text editor

`ed_load` and `ed_process_char` of `shell.c`, with the arrays of lines and of their
lengths as they are laid out there. An access outside of an array has no result. What is
drawn on the screen is left out, but not the bytes that drawing a row stores.

Typing is refused on a full line. Pasting looks at the cursor instead of the length of
the line.
-/

namespace OriaOS.Shell.Editor

open OriaOS.Lib

variable {col n r : Int} {pc : UInt8}

abbrev edViewRows : Int := 53

abbrev edMaxLines : Int := 200

abbrev edLineCap : Int := 160

structure EdState where
  lines : Int → Int → UInt8
  len : Int → Int
  nlines : Int
  curRow : Int
  curCol : Int
  scroll : Int
  active : Bool
  fname : List UInt8
  /-- 0 for none, 1 for changes, -1 behind the warning. -/
  modified : Int

/-! ## The arrays -/

/-- `ed_lines[r][k]`, to be read. -/
def getCell (s : EdState) (r k : Int) : Option UInt8 :=
  if 0 ≤ r ∧ r < edMaxLines ∧ 0 ≤ k ∧ k ≤ edLineCap then some (s.lines r k) else none

/-- `ed_lines[r][k] = c`. -/
def setCell (s : EdState) (r k : Int) (c : UInt8) : Option EdState :=
  if 0 ≤ r ∧ r < edMaxLines ∧ 0 ≤ k ∧ k ≤ edLineCap then
    some { s with lines := fun r' k' => if r' = r ∧ k' = k then c else s.lines r' k' }
  else none

/-- `ed_len[r]`, to be read. -/
def getLen (s : EdState) (r : Int) : Option Int :=
  if 0 ≤ r ∧ r < edMaxLines then some (s.len r) else none

/-- `ed_len[r] = n`. -/
def setLen (s : EdState) (r n : Int) : Option EdState :=
  if 0 ≤ r ∧ r < edMaxLines then some { s with len := fun r' => if r' = r then n else s.len r' }
  else none

/-- A loop that stores `ed_lines[r'][g j]` at `ed_lines[r][f j]`. -/
def moveCells (s : EdState) (js : List Int) (r : Int) (f : Int → Int) (r' : Int)
    (g : Int → Int) : Option EdState :=
  js.foldlM (fun s j => do setCell s r (f j) (← getCell s r' (g j))) s

/-- Row `r'` goes to row `r`, with its length and the zero byte behind it. -/
def moveRow (r r' : Int) (s : EdState) : Option EdState := do
  let n ← getLen s r'
  let s ← setLen s r n
  moveCells s (upTo 0 (n + 1)) r id r' id

/-- A line ends at column `n`. -/
def endLine (s : EdState) (r n : Int) : Option EdState := do setCell (← setLen s r n) r n 0

/-! ## Drawing -/

/-- `ed_draw_row` ends the row with a zero byte when it is on the screen. -/
def edDrawRow (r : Int) (s : EdState) : Option EdState :=
  let scrRow := r - s.scroll + 2
  if scrRow < 2 ∨ edViewRows + 1 < scrRow then some s
  else do setCell s r (← getLen s r) 0

/-- `ed_fix_cursor`. -/
def edFixCursor (s : EdState) : EdState :=
  let s := if s.curRow < s.scroll then { s with scroll := s.curRow } else s
  if s.scroll + edViewRows ≤ s.curRow then { s with scroll := s.curRow - edViewRows + 1 } else s

/-- `ed_render_all`. -/
def edRenderAll (s : EdState) : Option EdState := do
  let s ← (upTo 0 edViewRows).foldlM (fun s i =>
    if s.scroll + i < s.nlines then do setCell s (s.scroll + i) (← getLen s (s.scroll + i)) 0
    else some s) s
  some (edFixCursor s)

/-! ## Loading and saving -/

/-- The line that is being loaded ends at column `col`. -/
def loadLine (s : EdState) (col : Int) : Option EdState := do
  let s ← setCell s s.nlines col 0
  let s ← setLen s s.nlines col
  some { s with nlines := s.nlines + 1 }

/-- A byte of the file, with the column it goes to. -/
def loadByte (sc : EdState × Int) (ch : UInt8) : Option (EdState × Int) :=
  let (s, col) := sc
  if edMaxLines ≤ s.nlines ∨ ch = 0x0D then some (s, col)
  else if ch = 0x0A then do
    let s ← loadLine s col
    some (s, 0)
  else if col < edLineCap then do
    let s ← setCell s s.nlines col ch
    some (s, col + 1)
  else some (s, col)

/-- What the file has behind its last line end is a line too. -/
def endLoad (s : EdState) (col : Int) : Option EdState :=
  if 0 < col ∨ s.nlines = 0 then loadLine s col else some s

/-- All rows are empty. -/
def clearRows (s : EdState) : Option EdState :=
  (upTo 0 edMaxLines).foldlM (fun s i => do setCell (← setLen s i 0) i 0 0) s

/-- An editor without a line, on the file of the given name. -/
def blank (fname : List UInt8) (s : EdState) : EdState :=
  { s with
    nlines := 0
    curRow := 0
    curCol := 0
    scroll := 0
    modified := 0
    fname := fname.take 63 }

/-- The bytes of the file become lines, at least one. -/
def loadText (data : List UInt8) (s : EdState) : Option EdState :=
  if data = [] then some { s with nlines := 1 }
  else do
    let sc ← data.foldlM loadByte (s, 0)
    let s ← endLoad sc.1 sc.2
    some (if s.nlines = 0 then { s with nlines := 1 } else s)

/-- `ed_load`, on what `fs_read_bin` gives. -/
def edLoad (s : EdState) (fname : List UInt8) (data : Option (List UInt8)) : Option EdState := do
  let s ← clearRows s
  loadText (data.getD []) (blank fname s)

/-- `sizeof(ed_outbuf)`. -/
abbrev edOutbufSize : Int := edMaxLines * (edLineCap + 2)

/-- A byte is put behind `ed_outbuf`. -/
def putOut (out : List UInt8) (c : UInt8) : Option (List UInt8) :=
  if (out.length : Int) < edOutbufSize then some (out ++ [c]) else none

/-- The text `ed_save` writes, up to the zero byte behind it. -/
def edSaveText (s : EdState) : Option (List UInt8) := do
  let out ← (upTo 0 s.nlines).foldlM (fun out i => do
    let n ← getLen s i
    let out ← (upTo 0 n).foldlM (fun (out : List UInt8) j =>
      if (out.length : Int) < edOutbufSize - 2 then do putOut out (← getCell s i j)
      else some out) out
    if i < s.nlines - 1 then putOut out 0x0A else some out) []
  let _ ← putOut out 0
  some out

/-- `ed_save`. The flag says whether `fs_write` succeeds. -/
def edSave (written : Bool) (s : EdState) : Option EdState := do
  let _ ← edSaveText s
  some (if written then { s with modified := 0 } else s)

/-! ## Keys -/

/-- `clip_paste`. -/
def clipPaste (clip : List UInt8) (maxlen : Nat) : List UInt8 := clip.take (maxlen - 1)

/-- The rows from the one behind the cursor on move down by one. -/
def openRow (s : EdState) : Option EdState :=
  (downTo s.nlines (s.curRow + 1)).foldlM (fun s i => moveRow i (i - 1) s) s

/-- The rows from `r` on move up by one. -/
def closeRow (r : Int) (s : EdState) : Option EdState :=
  (upTo r (s.nlines - 1)).foldlM (fun s i => moveRow i (i + 1) s) s

/-- A character goes into a line of length `ln` at the cursor. -/
def insertChar (c : UInt8) (ln : Int) (s : EdState) : Option EdState := do
  let s ← moveCells s (downTo ln s.curCol) s.curRow id s.curRow (fun j => j - 1)
  let s ← setCell s s.curRow s.curCol c
  setLen s s.curRow (ln + 1)

/-- A byte that is pasted as a character when the cursor stands at column `col`. A `char`
is signed. -/
def Pasted (pc : UInt8) (col : Int) : Prop := 0x20 ≤ pc ∧ pc < 0x80 ∧ col < edLineCap - 1

instance (pc : UInt8) (col : Int) : Decidable (Pasted pc col) :=
  inferInstanceAs (Decidable (_ ∧ _))

/-- A character of the clipboard. -/
def pasteChar (s : EdState) (pc : UInt8) : Option EdState :=
  let row := s.curRow
  let col := s.curCol
  if pc = 0x0A then
    if s.nlines < edMaxLines then do
      let ln ← getLen s row
      let s ← openRow s
      let s := { s with nlines := s.nlines + 1 }
      let suf := ln - col
      let s ← moveCells s (upTo 0 suf) (row + 1) id row (fun k => col + k)
      let s ← endLine s (row + 1) suf
      let s ← endLine s row col
      some { s with curRow := s.curRow + 1, curCol := 0, modified := 1 }
    else some s
  else if Pasted pc col then do
    let ln ← getLen s row
    let s ← insertChar pc ln s
    let s ← setCell s row (ln + 1) 0
    some { s with curCol := s.curCol + 1, modified := 1 }
  else some s

/-- Ctrl+V. -/
def edPaste (clip : List UInt8) (s : EdState) : Option EdState := do
  let s ← (clipPaste clip 256).foldlM pasteChar s
  let s ← edRenderAll s
  some (edFixCursor s)

/-- The cursor is not behind the end of its line. -/
def clampCol (s : EdState) : Option EdState := do
  let n ← getLen s s.curRow
  some (if n < s.curCol then { s with curCol := n } else s)

/-- The cursor goes to the row above, if there is one. -/
def rowUp (s : EdState) : Option EdState :=
  if 0 < s.curRow then clampCol { s with curRow := s.curRow - 1 } else some s

/-- The cursor goes to the row below, if there is one. -/
def rowDown (s : EdState) : Option EdState :=
  if s.curRow < s.nlines - 1 then clampCol { s with curRow := s.curRow + 1 } else some s

/-- The arrow up. -/
def edUp (s : EdState) : Option EdState := do
  let s ← rowUp s
  if s.curRow < s.scroll then edRenderAll { s with scroll := s.curRow }
  else do
    let s ← edDrawRow s.curRow s
    let s ← edDrawRow (s.curRow + 1) s
    some (edFixCursor s)

/-- The arrow down. -/
def edDown (s : EdState) : Option EdState := do
  let s ← rowDown s
  if s.scroll + edViewRows ≤ s.curRow then
    edRenderAll { s with scroll := s.curRow - edViewRows + 1 }
  else do
    let s ← edDrawRow (s.curRow - 1) s
    let s ← edDrawRow s.curRow s
    some (edFixCursor s)

/-- The arrow to the left. -/
def edLeft (s : EdState) : Option EdState :=
  if 0 < s.curCol then some (edFixCursor { s with curCol := s.curCol - 1 })
  else if 0 < s.curRow then do
    let n ← getLen s (s.curRow - 1)
    let s := { s with curRow := s.curRow - 1, curCol := n }
    if s.curRow < s.scroll then edRenderAll { s with scroll := s.curRow }
    else some (edFixCursor s)
  else some (edFixCursor s)

/-- The arrow to the right. -/
def edRight (s : EdState) : Option EdState := do
  let n ← getLen s s.curRow
  if s.curCol < n then some (edFixCursor { s with curCol := s.curCol + 1 })
  else if s.curRow < s.nlines - 1 then
    let s := { s with curRow := s.curRow + 1, curCol := 0 }
    if s.scroll + edViewRows ≤ s.curRow then
      edRenderAll { s with scroll := s.curRow - edViewRows + 1 }
    else some (edFixCursor s)
  else some (edFixCursor s)

/-- The character at column `col` of the row of the cursor is taken out. -/
def dropChar (col : Int) (s : EdState) : Option EdState := do
  let ln ← getLen s s.curRow
  let s ← moveCells s (upTo col (ln - 1)) s.curRow id s.curRow (fun j => j + 1)
  let s ← setCell s s.curRow (ln - 1) 0
  setLen s s.curRow (ln - 1)

/-- Row `r + 1` is joined to row `r`, and the rows behind it move up. -/
def joinRow (r n n' : Int) (s : EdState) : Option EdState := do
  let s ← moveCells s (upTo 0 n') r (fun j => n + j) (r + 1) id
  let s ← endLine s r (n + n')
  let s ← closeRow (r + 1) s
  some { s with nlines := s.nlines - 1, modified := 1 }

/-- The end of a change in one row. -/
def redrawRow (s : EdState) : Option EdState := do
  let s ← edDrawRow s.curRow s
  some (edFixCursor s)

/-- `KEY_DELETE`. -/
def edDelete (s : EdState) : Option EdState := do
  let n ← getLen s s.curRow
  if s.curCol < n then
    let s ← dropChar s.curCol s
    redrawRow { s with modified := 1 }
  else if s.curRow < s.nlines - 1 then
    let n' ← getLen s (s.curRow + 1)
    if n + n' ≤ edLineCap then
      let s ← joinRow s.curRow n n' s
      edRenderAll s
    else redrawRow s
  else redrawRow s

/-- The backspace key. -/
def edBackspace (s : EdState) : Option EdState :=
  if 0 < s.curCol then do
    let s ← dropChar (s.curCol - 1) s
    redrawRow { s with curCol := s.curCol - 1, modified := 1 }
  else if 0 < s.curRow then do
    let n ← getLen s (s.curRow - 1)
    let n' ← getLen s s.curRow
    if n + n' ≤ edLineCap then
      let s ← joinRow (s.curRow - 1) n n' s
      let s := { s with curRow := s.curRow - 1, curCol := n }
      edRenderAll (if s.curRow < s.scroll then { s with scroll := s.curRow } else s)
    else redrawRow s
  else redrawRow s

/-- The bytes `rem[0..n)` of `ed_process_char`, read from the row of the cursor, where
`rem` has a place more than a line has characters. -/
def readRest (s : EdState) (n : Int) : Option (List UInt8) :=
  if n ≤ edLineCap then
    (upTo 0 n).foldlM (fun rem j => do some (rem ++ [← getCell s s.curRow (s.curCol + j)])) []
  else none

/-- The enter key. The rest of the line is kept in `rem` while the rows move. -/
def edEnter (s : EdState) : Option EdState :=
  if s.nlines < edMaxLines then do
    let ln ← getLen s s.curRow
    let rlen := ln - s.curCol
    let rem ← readRest s rlen
    let s ← setCell s s.curRow s.curCol 0
    let s ← setLen s s.curRow s.curCol
    let s ← openRow s
    let s := { s with curRow := s.curRow + 1 }
    let s ← (upTo 0 (rlen + 1)).foldlM
      (fun s j => setCell s s.curRow j ((rem ++ [0]).getD j.toNat 0)) s
    let s ← setLen s s.curRow rlen
    let s := { s with curCol := 0, nlines := s.nlines + 1, modified := 1 }
    edRenderAll (if s.scroll + edViewRows ≤ s.curRow then { s with scroll := s.scroll + 1 } else s)
  else some s

/-- A printable character. The zero byte behind the line is stored by drawing it. -/
def edType (c : UInt8) (s : EdState) : Option EdState := do
  let ln ← getLen s s.curRow
  if ln < edLineCap then
    let s ← insertChar c ln s
    redrawRow { s with curCol := s.curCol + 1, modified := 1 }
  else redrawRow s

/-- Ctrl+Q: a warning first when there are changes. -/
def edQuit (s : EdState) : EdState :=
  if 0 < s.modified then edFixCursor { s with modified := -1 } else { s with active := false }

/-- The keys behind Ctrl+Q and Ctrl+S. -/
def edKey (c : UInt8) (clip : List UInt8) (s : EdState) : Option EdState :=
  if c = 0x16 then edPaste clip s
  else if c = 0x01 then edUp s
  else if c = 0x02 then edDown s
  else if c = 0x04 then edLeft s
  else if c = 0x05 then edRight s
  else if c = 0x06 then edDelete s
  else if c = 0x08 then edBackspace s
  else if c = 0x0A then edEnter s
  else if 0x20 ≤ c ∧ c < 0x7F then edType c s
  else some s

/-- `ed_process_char`, with what is in the clipboard and whether a save would succeed. -/
def edProcessChar (c : UInt8) (clip : List UInt8) (written : Bool) (s : EdState) :
    Option EdState :=
  if c = 0x11 then some (edQuit s)
  else
    let s := if s.modified = -1 then { s with modified := 1 } else s
    if c = 0x13 then do some (edFixCursor (← edSave written s))
    else edKey c clip s

/-! ## What stays in bounds -/

/-- A line: its length, and the zero byte behind it. -/
structure RowOk (lines : Int → Int → UInt8) (len : Int → Int) (r : Int) : Prop where
  len_nonneg : 0 ≤ len r
  len_le : len r ≤ edLineCap
  ended : lines r (len r) = 0

/-- The rows of the array, those behind the text too. -/
def Rows (s : EdState) : Prop := ∀ r, 0 ≤ r → r < edMaxLines → RowOk s.lines s.len r

/-- The state in the middle of a key: the cursor may be off the screen. -/
structure Body (s : EdState) : Prop where
  rows : Rows s
  nlines_pos : 1 ≤ s.nlines
  nlines_le : s.nlines ≤ edMaxLines
  row_nonneg : 0 ≤ s.curRow
  row_lt : s.curRow < s.nlines
  col_nonneg : 0 ≤ s.curCol
  col_le : s.curCol ≤ s.len s.curRow
  scroll_nonneg : 0 ≤ s.scroll

/-- The state between keys. -/
structure Sound (s : EdState) : Prop extends Body s where
  scroll_le : s.scroll ≤ s.curRow
  visible : s.curRow < s.scroll + edViewRows

section Arrays
variable {s : EdState} {r k : Int}

theorem getCell_eq (hr : 0 ≤ r) (hr' : r < edMaxLines) (hk : 0 ≤ k) (hk' : k ≤ edLineCap) :
    getCell s r k = some (s.lines r k) := if_pos ⟨hr, hr', hk, hk'⟩

theorem setCell_eq (hr : 0 ≤ r) (hr' : r < edMaxLines) (hk : 0 ≤ k) (hk' : k ≤ edLineCap)
    (c : UInt8) : setCell s r k c =
      some { s with lines := fun r' k' => if r' = r ∧ k' = k then c else s.lines r' k' } :=
  if_pos ⟨hr, hr', hk, hk'⟩

theorem getLen_eq (hr : 0 ≤ r) (hr' : r < edMaxLines) : getLen s r = some (s.len r) :=
  if_pos ⟨hr, hr'⟩

theorem setLen_eq (hr : 0 ≤ r) (hr' : r < edMaxLines) (n : Int) : setLen s r n =
    some { s with len := fun r' => if r' = r then n else s.len r' } := if_pos ⟨hr, hr'⟩

/-- Only cells of row `r` that are in `K` have changed. -/
def CellsFrom (s t : EdState) (r : Int) (K : Int → Prop) : Prop :=
  t = { s with lines := t.lines } ∧ ∀ a k, (a = r → ¬ K k) → t.lines a k = s.lines a k

/-- A loop over cells of one row changes no others. -/
theorem moveCells_spec {js : List Int} {f : Int → Int} {r' : Int} {g : Int → Int}
    (hr : 0 ≤ r) (hr' : r < edMaxLines) (hsrc : 0 ≤ r') (hsrc' : r' < edMaxLines)
    (hf : ∀ j ∈ js, 0 ≤ f j ∧ f j ≤ edLineCap) (hg : ∀ j ∈ js, 0 ≤ g j ∧ g j ≤ edLineCap) :
    Returns (moveCells s js r f r' g) fun t => CellsFrom s t r fun k => ∃ j ∈ js, k = f j := by
  apply Returns.foldlM
  · rintro t ⟨ht, hsame⟩ j hj
    rw [getCell_eq hsrc hsrc' (hg j hj).1 (hg j hj).2]
    change Returns (setCell t r (f j) _) _
    rw [setCell_eq hr hr' (hf j hj).1 (hf j hj).2]
    apply Returns.some
    refine ⟨by rw [ht], ?_⟩
    intro a k hout
    dsimp only
    rw [if_neg]
    · exact hsame a k hout
    · rintro ⟨ha, hk⟩
      exact hout ha ⟨j, hj, hk⟩
  · exact ⟨rfl, fun _ _ _ => rfl⟩

/-- The rows are well formed, and only rows that satisfy `R` have another length. -/
def LensFrom (s t : EdState) (R : Int → Prop) : Prop :=
  t = { s with lines := t.lines, len := t.len } ∧ Rows t ∧ ∀ a, ¬ R a → t.len a = s.len a

/-- A row is copied with the zero byte behind it. -/
theorem moveRow_spec {r' : Int} (hs : Rows s) (hr : 0 ≤ r) (hr' : r < edMaxLines) (hsrc : 0 ≤ r')
    (hsrc' : r' < edMaxLines) (hne : r ≠ r') :
    Returns (moveRow r r' s) fun t => LensFrom s t (· = r) := by
  obtain ⟨hlow, hhigh, hended⟩ := hs r' hsrc hsrc'
  unfold moveRow
  rw [getLen_eq hsrc hsrc', some_then, setLen_eq hr hr', some_then]
  have hloop := Returns.upTo (I := fun k (t : EdState) =>
      t = { s with lines := t.lines, len := fun a => if a = r then s.len r' else s.len a } ∧
        (∀ a j, a ≠ r → t.lines a j = s.lines a j) ∧
        ∀ j, 0 ≤ j → j < k → t.lines r j = s.lines r' j)
    (f := fun t j => do setCell t r (id j) (← getCell t r' (id j)))
    (x := { s with len := fun a => if a = r then s.len r' else s.len a })
    (by omega : 0 ≤ s.len r' + 1) ?_ ⟨rfl, fun _ _ _ => rfl, fun j h h' => absurd h' (by omega)⟩
  · apply hloop.mono
    rintro t ⟨ht, hother, hcopied⟩
    have hlen : t.len = fun a => if a = r then s.len r' else s.len a := by rw [ht]
    refine ⟨by rw [ht], ?_, ?_⟩
    · intro a ha ha'
      by_cases har : a = r
      · subst har
        have hn : t.len a = s.len r' := by rw [hlen]; exact if_pos rfl
        refine ⟨hn ▸ hlow, hn ▸ hhigh, ?_⟩
        rw [hn, hcopied _ hlow (by omega)]
        exact hended
      · obtain ⟨h1, h2, h3⟩ := hs a ha ha'
        have hn : t.len a = s.len a := by rw [hlen]; exact if_neg har
        exact ⟨hn ▸ h1, hn ▸ h2, by rw [hn, hother a _ har]; exact h3⟩
    · intro a har
      rw [hlen]
      exact if_neg har
  · rintro j hj hj' t ⟨ht, hother, hcopied⟩
    rw [id, getCell_eq hsrc hsrc' hj (by omega)]
    change Returns (setCell t r j _) _
    rw [setCell_eq hr hr' hj (by omega)]
    apply Returns.some
    refine ⟨by rw [ht], ?_, ?_⟩
    · intro a k har
      exact (if_neg fun h => har h.1).trans (hother a k har)
    · intro k hk hk'
      by_cases hkj : k = j
      · subst hkj
        exact (if_pos ⟨rfl, rfl⟩).trans (hother r' k hne.symm)
      · exact (if_neg fun h => hkj h.2).trans (hcopied k hk (by omega))

theorem LensFrom.refl (hs : Rows s) (R : Int → Prop) : LensFrom s s R := ⟨rfl, hs, fun _ _ => rfl⟩

theorem LensFrom.trans {t u : EdState} {R R' : Int → Prop} (h : LensFrom s t R)
    (h' : LensFrom t u R') (hsub : ∀ a, R' a → R a) : LensFrom s u R := by
  obtain ⟨ht, -, hlen⟩ := h
  obtain ⟨hu, hrows, hlen'⟩ := h'
  refine ⟨by rw [hu, ht], hrows, ?_⟩
  intro a ha
  rw [hlen' a fun hr => ha (hsub a hr), hlen a ha]

/-- Rows move down to make room behind the cursor. -/
theorem openRow_spec (hs : Rows s) (hrow : 0 ≤ s.curRow) (hn : s.nlines < edMaxLines) :
    Returns (openRow s) fun t => LensFrom s t (s.curRow + 1 < ·) := by
  unfold openRow
  apply Returns.foldlM
  · intro t ht i hi
    obtain ⟨hlow, hhigh⟩ := mem_downTo.mp hi
    apply (moveRow_spec ht.2.1 (by omega) (by omega) (by omega) (by omega) (by omega)).mono
    intro u hu
    apply ht.trans hu
    rintro a rfl
    exact hlow
  · exact LensFrom.refl hs _

/-- Rows move up into row `r`. -/
theorem closeRow_spec (hs : Rows s) (hr : 0 ≤ r) (hn : s.nlines ≤ edMaxLines) :
    Returns (closeRow r s) fun t => LensFrom s t (r ≤ ·) := by
  unfold closeRow
  apply Returns.foldlM
  · intro t ht i hi
    obtain ⟨hlow, hhigh⟩ := mem_upTo.mp hi
    apply (moveRow_spec ht.2.1 (by omega) (by omega) (by omega) (by omega) (by omega)).mono
    intro u hu
    apply ht.trans hu
    rintro a rfl
    exact hlow
  · exact LensFrom.refl hs _

/-- Ending a row repairs it. -/
theorem endLine_spec (hr : 0 ≤ r) (hr' : r < edMaxLines) (hn : 0 ≤ n) (hn' : n ≤ edLineCap)
    (hs : ∀ a, a ≠ r → 0 ≤ a → a < edMaxLines → RowOk s.lines s.len a) :
    Returns (endLine s r n) fun t => LensFrom s t (· = r) ∧ t.len r = n := by
  unfold endLine
  rw [setLen_eq hr hr', some_then, setCell_eq hr hr' hn hn']
  apply Returns.some
  refine ⟨⟨rfl, ?_, fun a ha => if_neg ha⟩, if_pos rfl⟩
  intro a ha ha'
  by_cases har : a = r
  · subst har
    have hlen : (if a = a then n else s.len a) = n := if_pos rfl
    constructor <;> dsimp only <;> rw [hlen]
    · exact hn
    · exact hn'
    · exact if_pos ⟨rfl, rfl⟩
  · obtain ⟨h1, h2, h3⟩ := hs a har ha ha'
    have hlen : (if a = r then n else s.len a) = s.len a := if_neg har
    constructor <;> dsimp only <;> rw [hlen]
    · exact h1
    · exact h2
    · exact (if_neg fun h => har h.1).trans h3

end Arrays

/-! ## Drawing keeps the state -/

section Drawing
variable {s : EdState}

/-- No length has changed. -/
abbrev Redrawn (s t : EdState) : Prop := LensFrom s t fun _ => False

theorem Body.redrawn {t : EdState} (h : Body s) (ht : Redrawn s t) : Body t := by
  obtain ⟨heq, hrows, hlen⟩ := ht
  have hlen := fun a => hlen a not_false
  rw [heq] at hrows ⊢
  exact ⟨hrows, h.nlines_pos, h.nlines_le, h.row_nonneg, h.row_lt, h.col_nonneg,
    (hlen s.curRow).symm ▸ h.col_le, h.scroll_nonneg⟩

theorem fixCursor_sound (h : Body s) : Sound (edFixCursor s) := by
  obtain ⟨hrows, hn, hn', hrow, hrow', hcol, hcol', hscroll⟩ := h
  have hview : edViewRows = 53 := rfl
  unfold edFixCursor
  by_cases hup : s.curRow < s.scroll
  · simp only [if_pos hup]
    rw [if_neg (by omega)]
    exact ⟨⟨hrows, hn, hn', hrow, hrow', hcol, hcol', hrow⟩, le_refl _, by dsimp only; omega⟩
  · simp only [if_neg hup]
    by_cases hdown : s.scroll + edViewRows ≤ s.curRow
    · rw [if_pos hdown]
      exact ⟨⟨hrows, hn, hn', hrow, hrow', hcol, hcol', by dsimp only; omega⟩,
        by dsimp only; omega, by dsimp only; omega⟩
    · rw [if_neg hdown]
      exact ⟨⟨hrows, hn, hn', hrow, hrow', hcol, hcol', hscroll⟩, not_lt.mp hup, not_le.mp hdown⟩

/-- Drawing a row that is on the screen repairs it. -/
theorem drawRow_repairs (hs : ∀ a, a ≠ r → 0 ≤ a → a < edMaxLines → RowOk s.lines s.len a)
    (hr : 0 ≤ r) (hr' : r < edMaxLines) (hlen : 0 ≤ s.len r) (hlen' : s.len r ≤ edLineCap)
    (htop : s.scroll ≤ r) (hbottom : r < s.scroll + edViewRows) :
    Returns (edDrawRow r s) (Redrawn s) := by
  have hon : ¬ (r - s.scroll + 2 < 2 ∨ edViewRows + 1 < r - s.scroll + 2) := by omega
  unfold edDrawRow
  dsimp only
  rw [if_neg hon, getLen_eq hr hr', some_then, setCell_eq hr hr' hlen hlen']
  apply Returns.some
  refine ⟨rfl, ?_, fun _ _ => rfl⟩
  intro a ha ha'
  by_cases har : a = r
  · subst har
    exact ⟨hlen, hlen', if_pos ⟨rfl, rfl⟩⟩
  · obtain ⟨h1, h2, h3⟩ := hs a har ha ha'
    exact ⟨h1, h2, (if_neg fun h => har h.1).trans h3⟩

/-- Drawing a row changes nothing that matters. -/
theorem drawRow_spec (hs : Rows s) (hscroll : 0 ≤ s.scroll) (hr : r < edMaxLines) :
    Returns (edDrawRow r s) (Redrawn s) := by
  by_cases hoff : r - s.scroll + 2 < 2 ∨ edViewRows + 1 < r - s.scroll + 2
  · unfold edDrawRow
    dsimp only
    rw [if_pos hoff]
    exact Returns.some (LensFrom.refl hs _)
  · have hr0 : 0 ≤ r := by omega
    obtain ⟨hlen, hlen', -⟩ := hs r hr0 hr
    exact drawRow_repairs (fun a _ => hs a) hr0 hr hlen hlen' (by omega) (by omega)

theorem renderAll_sound (h : Body s) : Returns (edRenderAll s) Sound := by
  unfold edRenderAll
  have hloop : Returns ((upTo 0 edViewRows).foldlM (fun t i =>
      if t.scroll + i < t.nlines then do setCell t (t.scroll + i) (← getLen t (t.scroll + i)) 0
      else some t) s) (Redrawn s) := by
    apply Returns.foldlM
    · intro t ht i hi
      obtain ⟨hi0, hi1⟩ := mem_upTo.mp hi
      have hbody := h.redrawn ht
      by_cases hin : t.scroll + i < t.nlines
      · have hr0 : 0 ≤ t.scroll + i := by have := hbody.scroll_nonneg; omega
        have hr1 : t.scroll + i < edMaxLines := by have := hbody.nlines_le; omega
        obtain ⟨hlen, hlen', -⟩ := hbody.rows _ hr0 hr1
        have hdraw := drawRow_repairs (s := t) (r := t.scroll + i) (fun a _ => hbody.rows a) hr0 hr1
          hlen hlen' (by omega) (by omega)
        have hon : ¬ (t.scroll + i - t.scroll + 2 < 2 ∨
            edViewRows + 1 < t.scroll + i - t.scroll + 2) := by omega
        unfold edDrawRow at hdraw
        dsimp only at hdraw
        rw [if_neg hon] at hdraw
        rw [if_pos hin]
        exact hdraw.mono fun u hu => ht.trans hu fun _ => False.elim
      · rw [if_neg hin]
        exact Returns.some ht
    · exact LensFrom.refl h.rows _
  exact hloop.bind fun t ht => Returns.some (fixCursor_sound (h.redrawn ht))

theorem redrawRow_sound (h : Body s) : Returns (redrawRow s) Sound := by
  have hle := h.nlines_le
  have hlt := h.row_lt
  exact (drawRow_spec h.rows h.scroll_nonneg (by omega)).bind fun t ht =>
    Returns.some (fixCursor_sound (h.redrawn ht))

end Drawing

/-! ## Moving the cursor -/

section Moving
variable {s : EdState}

/-- The rows, and a cursor in one of them whose column may be off. -/
structure InText (s : EdState) : Prop where
  rows : Rows s
  nlines_pos : 1 ≤ s.nlines
  nlines_le : s.nlines ≤ edMaxLines
  row_nonneg : 0 ≤ s.curRow
  row_lt : s.curRow < s.nlines
  scroll_nonneg : 0 ≤ s.scroll

theorem Body.inText (h : Body s) : InText s :=
  ⟨h.rows, h.nlines_pos, h.nlines_le, h.row_nonneg, h.row_lt, h.scroll_nonneg⟩

theorem InText.body (h : InText s) (hcol : 0 ≤ s.curCol) (hcol' : s.curCol ≤ s.len s.curRow) :
    Body s :=
  ⟨h.rows, h.nlines_pos, h.nlines_le, h.row_nonneg, h.row_lt, hcol, hcol', h.scroll_nonneg⟩

theorem InText.row_lt_max (h : InText s) : s.curRow < edMaxLines := h.row_lt.trans_le h.nlines_le

theorem InText.len (h : InText s) : 0 ≤ s.len s.curRow ∧ s.len s.curRow ≤ edLineCap :=
  ⟨(h.rows _ h.row_nonneg h.row_lt_max).len_nonneg, (h.rows _ h.row_nonneg h.row_lt_max).len_le⟩

theorem clampCol_body (h : InText s) (hcol : 0 ≤ s.curCol) :
    Returns (clampCol s) fun t => Body t ∧ t.curRow = s.curRow ∧ t.nlines = s.nlines := by
  unfold clampCol
  rw [getLen_eq h.row_nonneg h.row_lt_max, some_then]
  apply Returns.some
  by_cases hlong : s.len s.curRow < s.curCol
  · rw [if_pos hlong]
    exact ⟨InText.body ⟨h.rows, h.nlines_pos, h.nlines_le, h.row_nonneg, h.row_lt, h.scroll_nonneg⟩
      h.len.1 (le_refl _), rfl, rfl⟩
  · rw [if_neg hlong]
    exact ⟨h.body hcol (not_lt.mp hlong), rfl, rfl⟩

theorem scrolled_body (h : Body s) (hn : 0 ≤ n) : Body { s with scroll := n } :=
  ⟨h.rows, h.nlines_pos, h.nlines_le, h.row_nonneg, h.row_lt, h.col_nonneg, h.col_le, hn⟩

/-- Two rows are drawn, and the cursor stays in its row meanwhile. -/
theorem drawTwo_sound (h : Body s) {f g : Int → Int} (hf : f s.curRow < edMaxLines)
    (hg : g s.curRow < edMaxLines) :
    Returns (do
      let t ← edDrawRow (f s.curRow) s
      let t ← edDrawRow (g t.curRow) t
      some (edFixCursor t)) Sound := by
  apply (drawRow_spec h.rows h.scroll_nonneg hf).bind
  intro t ht
  have hbody := h.redrawn ht
  have hrow : t.curRow = s.curRow := by rw [ht.1]
  apply (drawRow_spec hbody.rows hbody.scroll_nonneg (hrow ▸ hg)).bind
  intro u hu
  exact Returns.some (fixCursor_sound (hbody.redrawn hu))

/-- The row behind the new one is in the array. -/
theorem edUp_sound (h : Body s) : Returns (edUp s) Sound := by
  have hmoved : Returns (rowUp s) fun t => Body t ∧ t.curRow + 1 < edMaxLines := by
    unfold rowUp
    by_cases hrow : 0 < s.curRow
    · have htext : InText { s with curRow := s.curRow - 1 } :=
        ⟨h.rows, h.nlines_pos, h.nlines_le, by dsimp only; omega,
          by have := h.row_lt; dsimp only; omega, h.scroll_nonneg⟩
      rw [if_pos hrow]
      apply (clampCol_body htext h.col_nonneg).mono
      rintro t ⟨hbody, hrow', hn⟩
      have hle := hbody.nlines_le
      have hlt := h.row_lt
      refine ⟨hbody, ?_⟩
      rw [hrow']
      dsimp only at hn ⊢
      omega
    · rw [if_neg hrow]
      refine Returns.some ⟨h, ?_⟩
      have hmax : edMaxLines = 200 := rfl
      omega
  apply hmoved.bind
  rintro t ⟨hbody, hnext⟩
  by_cases hscroll : t.curRow < t.scroll
  · rw [if_pos hscroll]
    exact renderAll_sound (scrolled_body hbody hbody.row_nonneg)
  · rw [if_neg hscroll]
    exact drawTwo_sound (f := id) (g := fun r => r + 1) hbody hbody.inText.row_lt_max hnext

theorem edDown_sound (h : Body s) : Returns (edDown s) Sound := by
  have hmoved : Returns (rowDown s) Body := by
    unfold rowDown
    by_cases hrow : s.curRow < s.nlines - 1
    · have htext : InText { s with curRow := s.curRow + 1 } :=
        ⟨h.rows, h.nlines_pos, h.nlines_le, by have := h.row_nonneg; dsimp only; omega,
          by dsimp only; omega, h.scroll_nonneg⟩
      rw [if_pos hrow]
      exact (clampCol_body htext h.col_nonneg).mono fun t ht => ht.1
    · rw [if_neg hrow]
      exact Returns.some h
  apply hmoved.bind
  intro t hbody
  have hlt := hbody.inText.row_lt_max
  by_cases hscroll : t.scroll + edViewRows ≤ t.curRow
  · have hnonneg := hbody.scroll_nonneg
    rw [if_pos hscroll]
    exact renderAll_sound (scrolled_body hbody (by omega))
  · rw [if_neg hscroll]
    exact drawTwo_sound (f := fun r => r - 1) (g := id) hbody (by omega) hlt

theorem edLeft_sound (h : Body s) : Returns (edLeft s) Sound := by
  unfold edLeft
  by_cases hcol : 0 < s.curCol
  · rw [if_pos hcol]
    apply Returns.some
    apply fixCursor_sound
    have hle := h.col_le
    exact ⟨h.rows, h.nlines_pos, h.nlines_le, h.row_nonneg, h.row_lt, by dsimp only; omega,
      by dsimp only; omega, h.scroll_nonneg⟩
  rw [if_neg hcol]
  by_cases hrow : 0 < s.curRow
  · have hlt := h.row_lt
    have hmax := h.inText.row_lt_max
    have htext : InText { s with curRow := s.curRow - 1, curCol := s.len (s.curRow - 1) } :=
      ⟨h.rows, h.nlines_pos, h.nlines_le, by dsimp only; omega, by dsimp only; omega,
        h.scroll_nonneg⟩
    have hbody := htext.body htext.len.1 (le_refl _)
    rw [if_pos hrow, getLen_eq (by omega) (by omega), some_then]
    by_cases hscroll : s.curRow - 1 < s.scroll
    · rw [if_pos hscroll]
      exact renderAll_sound (scrolled_body hbody (by dsimp only; omega))
    · rw [if_neg hscroll]
      exact Returns.some (fixCursor_sound hbody)
  · rw [if_neg hrow]
    exact Returns.some (fixCursor_sound h)

theorem edRight_sound (h : Body s) : Returns (edRight s) Sound := by
  unfold edRight
  rw [getLen_eq h.row_nonneg h.inText.row_lt_max, some_then]
  by_cases hcol : s.curCol < s.len s.curRow
  · rw [if_pos hcol]
    apply Returns.some
    apply fixCursor_sound
    have hnonneg := h.col_nonneg
    exact ⟨h.rows, h.nlines_pos, h.nlines_le, h.row_nonneg, h.row_lt, by dsimp only; omega,
      by dsimp only; omega, h.scroll_nonneg⟩
  rw [if_neg hcol]
  by_cases hrow : s.curRow < s.nlines - 1
  · have hnonneg := h.row_nonneg
    have htext : InText { s with curRow := s.curRow + 1, curCol := 0 } :=
      ⟨h.rows, h.nlines_pos, h.nlines_le, by dsimp only; omega, by dsimp only; omega,
        h.scroll_nonneg⟩
    have hbody := htext.body (le_refl _) htext.len.1
    rw [if_pos hrow]
    by_cases hscroll : s.scroll + edViewRows ≤ s.curRow + 1
    · have hs0 := h.scroll_nonneg
      have hview : edViewRows = 53 := rfl
      simp only [if_pos hscroll]
      exact renderAll_sound (scrolled_body hbody (by omega))
    · simp only [if_neg hscroll]
      exact Returns.some (fixCursor_sound hbody)
  · rw [if_neg hrow]
    exact Returns.some (fixCursor_sound h)

end Moving

/-! ## Changing the text -/

section Changing
variable {s : EdState}

/-- The rows that a loop over cells of row `r` leaves alone. -/
theorem CellsFrom.rows {t : EdState} {K : Int → Prop} (h : CellsFrom s t r K) (hs : Rows s)
    (a : Int) (har : a ≠ r) (ha : 0 ≤ a) (ha' : a < edMaxLines) : RowOk t.lines t.len a := by
  obtain ⟨h1, h2, h3⟩ := hs a ha ha'
  obtain ⟨ht, hsame⟩ := h
  have hlen : t.len = s.len := by rw [ht]
  rw [hlen]
  exact ⟨h1, h2, (hsame a _ fun hr => absurd hr har).trans h3⟩

theorem dropChar_spec (h : InText s) (hcol : 0 ≤ col) (hcol' : col < s.len s.curRow) :
    Returns (dropChar col s) fun t =>
      LensFrom s t (· = s.curRow) ∧ t.len s.curRow = s.len s.curRow - 1 := by
  obtain ⟨hlen, hlen'⟩ := h.len
  have hr := h.row_nonneg
  have hr' := h.row_lt_max
  unfold dropChar
  rw [getLen_eq hr hr', some_then]
  apply (moveCells_spec hr hr' hr hr' ?_ ?_).bind
  · intro t ht
    have hrow : t.curRow = s.curRow := by rw [ht.1]
    have hother := ht.rows h.rows
    rw [hrow, setCell_eq hr hr' (by omega) (by omega), some_then]
    dsimp only
    rw [hrow, setLen_eq hr hr']
    apply Returns.some
    refine ⟨⟨by rw [ht.1], ?_, ?_⟩, if_pos rfl⟩
    · intro a ha ha'
      by_cases har : a = s.curRow
      · subst har
        have hn : (if s.curRow = s.curRow then s.len s.curRow - 1 else t.len s.curRow) =
            s.len s.curRow - 1 := if_pos rfl
        constructor <;> dsimp only <;> rw [hn]
        · omega
        · omega
        · exact if_pos ⟨rfl, rfl⟩
      · obtain ⟨h1, h2, h3⟩ := hother a har ha ha'
        have hn : (if a = s.curRow then s.len s.curRow - 1 else t.len a) = t.len a := if_neg har
        constructor <;> dsimp only <;> rw [hn]
        · exact h1
        · exact h2
        · exact (if_neg fun h => har h.1).trans h3
    · intro a har
      have hlen : t.len = s.len := by rw [ht.1]
      exact (if_neg har).trans (congrFun hlen a)
  · intro j hj
    obtain ⟨h1, h2⟩ := mem_upTo.mp hj
    exact ⟨by rw [id]; omega, by rw [id]; omega⟩
  · intro j hj
    obtain ⟨h1, h2⟩ := mem_upTo.mp hj
    omega

/-- Two rows become one. -/
theorem joinRow_spec (h : InText s) (hr : 0 ≤ r) (hr' : r + 1 < s.nlines)
    (hfit : s.len r + s.len (r + 1) ≤ edLineCap) :
    Returns (joinRow r (s.len r) (s.len (r + 1)) s) fun t =>
      t = { s with lines := t.lines, len := t.len, nlines := s.nlines - 1, modified := 1 } ∧
        Rows t ∧ t.len r = s.len r + s.len (r + 1) := by
  have hn := h.nlines_le
  obtain ⟨hlow, hhigh, -⟩ := h.rows r hr (by omega)
  obtain ⟨hlow', hhigh', -⟩ := h.rows (r + 1) (by omega) (by omega)
  unfold joinRow
  apply (moveCells_spec hr (by omega) (by omega) (by omega) ?_ ?_).bind
  · intro t ht
    apply (endLine_spec hr (by omega) (by omega) hfit (ht.rows h.rows)).bind
    rintro u ⟨hu, hlen⟩
    have hmax : u.nlines ≤ edMaxLines := by rw [hu.1, ht.1]; exact hn
    apply (closeRow_spec hu.2.1 (by omega) hmax).bind
    intro v hv
    apply Returns.some
    have hvr : v.len r = u.len r := hv.2.2 r (by omega)
    have hsame : v = { s with lines := v.lines, len := v.len } := by rw [hv.1, hu.1, ht.1]
    refine ⟨?_, hv.2.1, hvr.trans hlen⟩
    rw [hsame]
  · intro j hj
    obtain ⟨h1, h2⟩ := mem_upTo.mp hj
    omega
  · intro j hj
    obtain ⟨h1, h2⟩ := mem_upTo.mp hj
    exact ⟨by rw [id]; omega, by rw [id]; omega⟩

theorem edDelete_sound (h : Body s) : Returns (edDelete s) Sound := by
  have htext := h.inText
  unfold edDelete
  rw [getLen_eq h.row_nonneg htext.row_lt_max, some_then]
  by_cases hcol : s.curCol < s.len s.curRow
  · rw [if_pos hcol]
    apply (dropChar_spec htext h.col_nonneg hcol).bind
    rintro t ⟨ht, hlen⟩
    apply redrawRow_sound
    have hrows := ht.2.1
    rw [ht.1] at hrows ⊢
    exact ⟨hrows, h.nlines_pos, h.nlines_le, h.row_nonneg, h.row_lt, h.col_nonneg,
      by dsimp only; omega, h.scroll_nonneg⟩
  rw [if_neg hcol]
  by_cases hrow : s.curRow < s.nlines - 1
  · have hr := h.row_nonneg
    have hn := h.nlines_le
    rw [if_pos hrow, getLen_eq (by omega) (by omega), some_then]
    by_cases hfit : s.len s.curRow + s.len (s.curRow + 1) ≤ edLineCap
    · rw [if_pos hfit]
      apply (joinRow_spec htext hr (by omega) hfit).bind
      rintro t ⟨ht, hrows, hlen⟩
      obtain ⟨hlow, -, -⟩ := h.rows (s.curRow + 1) (by omega) (by omega)
      have hle := h.col_le
      apply renderAll_sound
      rw [ht] at hrows ⊢
      exact ⟨hrows, by dsimp only; omega, by dsimp only; omega, hr, by dsimp only; omega,
        h.col_nonneg, by dsimp only; omega, h.scroll_nonneg⟩
    · rw [if_neg hfit]
      exact redrawRow_sound h
  · rw [if_neg hrow]
    exact redrawRow_sound h

theorem edBackspace_sound (h : Body s) : Returns (edBackspace s) Sound := by
  have htext := h.inText
  unfold edBackspace
  by_cases hcol : 0 < s.curCol
  · have hle := h.col_le
    rw [if_pos hcol]
    apply (dropChar_spec htext (by omega) (by omega)).bind
    rintro t ⟨ht, hlen⟩
    apply redrawRow_sound
    have hrows := ht.2.1
    rw [ht.1] at hrows ⊢
    exact ⟨hrows, h.nlines_pos, h.nlines_le, h.row_nonneg, h.row_lt, by dsimp only; omega,
      by dsimp only; omega, h.scroll_nonneg⟩
  rw [if_neg hcol]
  by_cases hrow : 0 < s.curRow
  · have hr := h.row_lt
    have hn := h.nlines_le
    have hback : s.curRow - 1 + 1 = s.curRow := by omega
    rw [if_pos hrow, getLen_eq (by omega) (by omega), some_then, getLen_eq (by omega) (by omega),
      some_then]
    by_cases hfit : s.len (s.curRow - 1) + s.len s.curRow ≤ edLineCap
    · have hjoin := joinRow_spec htext (r := s.curRow - 1) (by omega) (by omega)
        (by rw [hback]; exact hfit)
      rw [hback] at hjoin
      rw [if_pos hfit]
      apply hjoin.bind
      rintro t ⟨ht, hrows, hlen⟩
      obtain ⟨hlow, -, -⟩ := h.rows (s.curRow - 1) (by omega) (by omega)
      obtain ⟨hlow', -, -⟩ := h.rows s.curRow (by omega) (by omega)
      have hbody : Body { t with curRow := t.curRow - 1, curCol := s.len (s.curRow - 1) } := by
        rw [ht] at hrows ⊢
        exact ⟨hrows, by dsimp only; omega, by dsimp only; omega, by dsimp only; omega,
          by dsimp only; omega, hlow, by dsimp only; omega, h.scroll_nonneg⟩
      apply renderAll_sound
      split
      · exact scrolled_body hbody hbody.row_nonneg
      · exact hbody
    · rw [if_neg hfit]
      exact redrawRow_sound h
  · rw [if_neg hrow]
    exact redrawRow_sound h

/-- A character goes in, and the row is left without its zero byte. -/
theorem insertChar_spec (h : Body s) (c : UInt8) :
    Returns (insertChar c (s.len s.curRow) s) fun t =>
      t = { s with lines := t.lines, len := t.len } ∧
        (∀ a, a ≠ s.curRow → 0 ≤ a → a < edMaxLines → RowOk t.lines t.len a) ∧
        t.len s.curRow = s.len s.curRow + 1 := by
  obtain ⟨hlen, hlen'⟩ := h.inText.len
  have hr := h.row_nonneg
  have hr' := h.inText.row_lt_max
  have hcol := h.col_nonneg
  have hcol' := h.col_le
  unfold insertChar
  apply (moveCells_spec hr hr' hr hr' ?_ ?_).bind
  · intro t ht
    have hrow : t.curRow = s.curRow := by rw [ht.1]
    have hcolumn : t.curCol = s.curCol := by rw [ht.1]
    have hother := ht.rows h.rows
    rw [hrow, hcolumn, setCell_eq hr hr' hcol (by omega), some_then]
    dsimp only
    rw [hrow, setLen_eq hr hr']
    apply Returns.some
    refine ⟨by rw [ht.1], ?_, if_pos rfl⟩
    intro a har ha ha'
    obtain ⟨h1, h2, h3⟩ := hother a har ha ha'
    have hn : (if a = s.curRow then s.len s.curRow + 1 else t.len a) = t.len a := if_neg har
    constructor <;> dsimp only <;> rw [hn]
    · exact h1
    · exact h2
    · exact (if_neg fun h => har h.1).trans h3
  · intro j hj
    obtain ⟨h1, h2⟩ := mem_downTo.mp hj
    exact ⟨by rw [id]; omega, by rw [id]; omega⟩
  · intro j hj
    obtain ⟨h1, h2⟩ := mem_downTo.mp hj
    omega

/-- The row of the cursor is on the screen, and drawing it ends the line. -/
theorem edType_sound (h : Sound s) (c : UInt8) : Returns (edType c s) Sound := by
  have hbody := h.toBody
  have hr := h.row_nonneg
  have hr' := hbody.inText.row_lt_max
  unfold edType
  rw [getLen_eq hr hr', some_then]
  by_cases hroom : s.len s.curRow < edLineCap
  · obtain ⟨hlow, -⟩ := hbody.inText.len
    have hcol := h.col_nonneg
    have hcol' := h.col_le
    rw [if_pos hroom]
    apply (insertChar_spec hbody c).bind
    rintro t ⟨ht, hother, hlen⟩
    have hrow : t.curRow = s.curRow := by rw [ht]
    have hscroll : t.scroll = s.scroll := by rw [ht]
    have htop := h.scroll_le
    have hbottom := h.visible
    unfold redrawRow
    apply (drawRow_repairs (s := { t with curCol := t.curCol + 1, modified := 1 })
      (r := t.curRow) (by rw [hrow]; exact hother) (by omega) (by omega)
      (by dsimp only; rw [hrow, hlen]; omega) (by dsimp only; rw [hrow, hlen]; omega)
      (by dsimp only; omega) (by dsimp only; omega)).bind
    intro u hu
    apply Returns.some
    apply fixCursor_sound
    have hlen' : u.len s.curRow = s.len s.curRow + 1 := (hu.2.2 s.curRow not_false).trans hlen
    have hrows := hu.2.1
    rw [hu.1, ht] at hrows ⊢
    exact ⟨hrows, h.nlines_pos, h.nlines_le, h.row_nonneg, h.row_lt, by dsimp only; omega,
      by dsimp only; omega, h.scroll_nonneg⟩
  · rw [if_neg hroom]
    exact redrawRow_sound hbody

/-- The rest of the line has the length that was asked for. -/
theorem readRest_spec (h : Body s) (hn : 0 ≤ n) (hn' : s.curCol + n ≤ s.len s.curRow) :
    Returns (readRest s n) fun rem => (rem.length : Int) = n := by
  obtain ⟨hlen, hlen'⟩ := h.inText.len
  have hcol := h.col_nonneg
  unfold readRest
  rw [if_pos (by omega)]
  apply Returns.upTo (I := fun j (rem : List UInt8) => (rem.length : Int) = j) hn
  · intro i hi hi' rem hrem
    rw [getCell_eq h.row_nonneg h.inText.row_lt_max (by omega) (by omega), some_then]
    apply Returns.some
    rw [List.length_append, List.length_singleton]
    omega
  · rfl

/-- The saved rest of a line, with its zero byte, becomes a row. -/
theorem storeRest_spec (hs : Rows s) (hr : 0 ≤ s.curRow) (hr' : s.curRow < edMaxLines)
    {rem : List UInt8} (hrem : (rem.length : Int) = n) (hn : n ≤ edLineCap) :
    Returns (do
      let t ← (upTo 0 (n + 1)).foldlM
        (fun t j => setCell t t.curRow j ((rem ++ [0]).getD j.toNat 0)) s
      setLen t t.curRow n) fun t => LensFrom s t (· = s.curRow) ∧ t.len s.curRow = n := by
  have hloop := Returns.upTo (I := fun j (t : EdState) => t = { s with lines := t.lines } ∧
      (∀ a k, a ≠ s.curRow → t.lines a k = s.lines a k) ∧
      (j = n + 1 → t.lines s.curRow n = 0))
    (f := fun t j => setCell t t.curRow j ((rem ++ [0]).getD j.toNat 0)) (x := s)
    (by omega : 0 ≤ n + 1) ?_ ⟨rfl, fun _ _ _ => rfl, fun h => by omega⟩
  · apply hloop.bind
    rintro t ⟨ht, hother, hend⟩
    have hrow : t.curRow = s.curRow := by rw [ht]
    have hlen : t.len = s.len := by rw [ht]
    rw [hrow, setLen_eq hr hr']
    apply Returns.some
    refine ⟨⟨by rw [ht], ?_, fun a har => (if_neg har).trans (congrFun hlen a)⟩, if_pos rfl⟩
    intro a ha ha'
    by_cases har : a = s.curRow
    · subst har
      have hcut : (if s.curRow = s.curRow then n else t.len s.curRow) = n := if_pos rfl
      constructor <;> dsimp only <;> rw [hcut]
      · omega
      · exact hn
      · exact hend rfl
    · obtain ⟨h1, h2, h3⟩ := hs a ha ha'
      have hcut : (if a = s.curRow then n else t.len a) = s.len a :=
        (if_neg har).trans (congrFun hlen a)
      constructor <;> dsimp only <;> rw [hcut]
      · exact h1
      · exact h2
      · exact (hother a _ har).trans h3
  · rintro j hj hj' t ⟨ht, hother, -⟩
    have hrow : t.curRow = s.curRow := by rw [ht]
    rw [hrow, setCell_eq hr hr' hj (by omega)]
    apply Returns.some
    refine ⟨by rw [ht], fun a k har => (if_neg fun h => har h.1).trans (hother a k har), ?_⟩
    intro hlast
    have hjn : j = n := by omega
    have hbyte : (rem ++ [0]).getD j.toNat 0 = 0 := by
      rw [show j.toNat = rem.length by omega, List.getD_append_right _ _ _ _ (le_refl _),
        Nat.sub_self]
      rfl
    rw [hbyte]
    exact if_pos ⟨rfl, hjn.symm⟩

theorem edEnter_sound (h : Sound s) : Returns (edEnter s) Sound := by
  have hbody := h.toBody
  obtain ⟨hlen, hlen'⟩ := hbody.inText.len
  have hr := h.row_nonneg
  have hr' := hbody.inText.row_lt_max
  have hcol := h.col_nonneg
  have hcol' := h.col_le
  have hlast := h.row_lt
  unfold edEnter
  by_cases hroom : s.nlines < edMaxLines
  · rw [if_pos hroom, getLen_eq hr hr', some_then]
    apply (readRest_spec hbody (by omega) (by omega)).bind
    intro rem hrem
    have hcut := endLine_spec (s := s) hr hr' hcol (by omega) fun a _ => hbody.rows a
    unfold endLine at hcut
    rw [setLen_eq hr hr', some_then, setCell_eq hr hr' hcol (by omega)] at hcut
    obtain ⟨t, heq, ⟨ht, htrows, -⟩, -⟩ := hcut
    have heq := Option.some.inj heq
    rw [setCell_eq hr hr' hcol (by omega), some_then]
    dsimp only
    rw [setLen_eq hr hr', some_then, heq]
    have htrow : t.curRow = s.curRow := by rw [ht]
    have htn : t.nlines = s.nlines := by rw [ht]
    apply (openRow_spec htrows (by omega) (by omega)).bind
    intro u hu
    have hurow : u.curRow = s.curRow := by rw [hu.1, htrow]
    have hstore := storeRest_spec (s := { u with curRow := u.curRow + 1 }) hu.2.1
      (by dsimp only; omega) (by dsimp only; omega) hrem (by omega)
    obtain ⟨w, hw, hlens, hnew⟩ := hstore
    obtain ⟨v, hv, hvw⟩ := Option.bind_eq_some_iff.mp hw
    rw [hv, some_then, hvw, some_then]
    have hsame : w = { s with lines := w.lines, len := w.len, curRow := s.curRow + 1 } := by
      rw [hlens.1, hu.1, ht]
    have hbodyw : Body { w with curCol := 0, nlines := w.nlines + 1, modified := 1 } := by
      have hrows := hlens.2.1
      have hn : w.len (s.curRow + 1) = s.len s.curRow - s.curCol := by
        rw [← hnew]
        dsimp only
        rw [hurow]
      have hone := h.nlines_pos
      rw [hsame] at hrows hn ⊢
      exact ⟨hrows, by dsimp only; omega, by dsimp only; omega, by dsimp only; omega,
        by dsimp only; omega, le_refl _, by dsimp only at hn ⊢; omega, h.scroll_nonneg⟩
    apply renderAll_sound
    split
    · exact scrolled_body hbodyw (by have := hbodyw.scroll_nonneg; dsimp only at this ⊢; omega)
    · exact hbodyw
  · rw [if_neg hroom]
    exact Returns.some h

/-! ## Pasting -/

/-- A line end of the clipboard splits the line of the cursor. -/
theorem pasteNewline_spec (h : Body s) (hroom : s.nlines < edMaxLines) :
    Returns (pasteChar s 0x0A) fun t => Body t ∧ t.nlines = s.nlines + 1 ∧
      t.len t.curRow = s.len s.curRow - s.curCol ∧ t.curCol = 0 := by
  obtain ⟨hlen, hlen'⟩ := h.inText.len
  have hr := h.row_nonneg
  have hr' := h.inText.row_lt_max
  have hcol := h.col_nonneg
  have hcol' := h.col_le
  have hlast := h.row_lt
  have hone := h.nlines_pos
  unfold pasteChar
  dsimp only
  rw [if_pos rfl, if_pos hroom, getLen_eq hr hr', some_then]
  apply (openRow_spec h.rows hr hroom).bind
  intro t ht
  have hmove : Returns (moveCells { t with nlines := t.nlines + 1 }
      (upTo 0 (s.len s.curRow - s.curCol)) (s.curRow + 1) id s.curRow fun k => s.curCol + k)
      fun u => CellsFrom { t with nlines := t.nlines + 1 } u (s.curRow + 1) fun k =>
        ∃ j ∈ upTo 0 (s.len s.curRow - s.curCol), k = id j := moveCells_spec (by omega) (by omega) hr hr'
    (fun j hj => by obtain ⟨h1, h2⟩ := mem_upTo.mp hj; exact ⟨h1, by rw [id]; omega⟩)
    (fun j hj => by obtain ⟨h1, h2⟩ := mem_upTo.mp hj; omega)
  apply hmove.bind
  intro u hu
  apply (endLine_spec (by omega) (by omega) (by omega) (by omega) (hu.rows ht.2.1)).bind
  rintro v ⟨hv, hvlen⟩
  apply (endLine_spec hr hr' hcol (by omega) fun a _ => hv.2.1 a).bind
  rintro w ⟨hw, hwlen⟩
  apply Returns.some
  have hsame : w = { s with lines := w.lines, len := w.len, nlines := s.nlines + 1 } := by
    rw [hw.1, hv.1, hu.1, ht.1]
  have hnew : w.len (s.curRow + 1) = s.len s.curRow - s.curCol :=
    (hw.2.2 _ (by omega)).trans hvlen
  have hrows := hw.2.1
  rw [hsame] at hrows hnew ⊢
  exact ⟨⟨hrows, by dsimp only; omega, by dsimp only; omega, by dsimp only; omega,
    by dsimp only; omega, le_refl _, by dsimp only at hnew ⊢; omega, h.scroll_nonneg⟩, rfl,
    hnew, rfl⟩

theorem Pasted.ne_newline (h : Pasted pc col) : pc ≠ 0x0A := by
  rintro rfl
  exact absurd h.1 (by decide)

/-- A character that is pasted into a line with room for it. -/
theorem pasteInsert_spec (h : Body s) (hpc : Pasted pc s.curCol)
    (hroom : s.len s.curRow < edLineCap) :
    Returns (pasteChar s pc) fun t => Body t ∧ t.nlines = s.nlines ∧
      t.len t.curRow = s.len s.curRow + 1 ∧ t.curCol = s.curCol + 1 := by
  obtain ⟨hlen, -⟩ := h.inText.len
  have hr := h.row_nonneg
  have hr' := h.inText.row_lt_max
  have hcol := h.col_nonneg
  have hcol' := h.col_le
  unfold pasteChar
  dsimp only
  rw [if_neg hpc.ne_newline, if_pos hpc, getLen_eq hr hr', some_then]
  apply (insertChar_spec h pc).bind
  rintro t ⟨ht, hother, hnew⟩
  have hend := endLine_spec (s := t) hr hr' (by omega : 0 ≤ s.len s.curRow + 1) (by omega) hother
  have hlens : (fun a => if a = s.curRow then s.len s.curRow + 1 else t.len a) = t.len := by
    funext a
    split
    · next har => rw [har, hnew]
    · rfl
  have hsame : { t with len := t.len } = t := rfl
  unfold endLine at hend
  rw [setLen_eq hr hr', some_then, hlens, hsame] at hend
  obtain ⟨u, heq, ⟨hu, hrows, -⟩, hulen⟩ := hend
  rw [heq, some_then]
  apply Returns.some
  have hstate : u = { s with lines := u.lines, len := u.len } := by rw [hu, ht]
  rw [hstate] at hrows hulen ⊢
  exact ⟨⟨hrows, h.nlines_pos, h.nlines_le, hr, h.row_lt, by dsimp only; omega,
    by dsimp only at hulen ⊢; omega, h.scroll_nonneg⟩, rfl, hulen, rfl⟩

/-- The zero byte of a line that was full goes behind the row. -/
theorem pasteInsert_full (h : Body s) (hpc : Pasted pc s.curCol)
    (hfull : ¬ s.len s.curRow < edLineCap) : pasteChar s pc = none := by
  have hr := h.row_nonneg
  have hr' := h.inText.row_lt_max
  unfold pasteChar
  dsimp only
  rw [if_neg hpc.ne_newline, if_pos hpc, getLen_eq hr hr', some_then]
  obtain ⟨t, ht, -⟩ := insertChar_spec h pc
  rw [ht, some_then]
  have hout : setCell t s.curRow (s.len s.curRow + 1) 0 = none := if_neg (by omega)
  rw [hout]
  rfl

/-- The rest of the clipboard fits, with the number of lines, the length of the line of
the cursor and its column as they are when its turn comes: a character in front of the
last column finds a line that is not full. -/
def pasteFits (nlines len col : Int) : List UInt8 → Prop
  | [] => True
  | pc :: rest =>
      if pc = 0x0A then
        if nlines < edMaxLines then pasteFits (nlines + 1) (len - col) 0 rest
        else pasteFits nlines len col rest
      else if Pasted pc col then len < edLineCap ∧ pasteFits nlines (len + 1) (col + 1) rest
      else pasteFits nlines len col rest

/-- The clipboard goes in exactly when it fits. -/
theorem paste_spec (text : List UInt8) (h : Body s) :
    (pasteFits s.nlines (s.len s.curRow) s.curCol text →
        Returns (text.foldlM pasteChar s) Body) ∧
      (¬ pasteFits s.nlines (s.len s.curRow) s.curCol text → text.foldlM pasteChar s = none) := by
  induction text generalizing s with
  | nil => exact ⟨fun _ => Returns.some h, fun hnot => absurd trivial hnot⟩
  | cons pc rest ih =>
      rw [List.foldlM_cons, pasteFits]
      by_cases hline : pc = 0x0A
      · subst hline
        rw [if_pos rfl]
        by_cases hroom : s.nlines < edMaxLines
        · obtain ⟨t, ht, hbody, hn, hlen, hcol⟩ := pasteNewline_spec h hroom
          rw [if_pos hroom, ht, some_then, ← hn, ← hlen, ← hcol]
          exact ih hbody
        · have hskip : pasteChar s 0x0A = some s := by
            unfold pasteChar
            dsimp only
            rw [if_pos rfl, if_neg hroom]
          rw [if_neg hroom, hskip, some_then]
          exact ih h
      · rw [if_neg hline]
        by_cases hpc : Pasted pc s.curCol
        · rw [if_pos hpc]
          by_cases hroom : s.len s.curRow < edLineCap
          · obtain ⟨t, ht, hbody, hn, hlen, hcol⟩ := pasteInsert_spec h hpc hroom
            have hiff : (s.len s.curRow < edLineCap ∧
                pasteFits s.nlines (s.len s.curRow + 1) (s.curCol + 1) rest) ↔
                  pasteFits t.nlines (t.len t.curRow) t.curCol rest := by
              rw [hn, hlen, hcol, and_iff_right hroom]
            rw [hiff, ht, some_then]
            exact ih hbody
          · rw [pasteInsert_full h hpc hroom]
            exact ⟨fun hfits => absurd hfits.1 hroom, fun _ => rfl⟩
        · have hskip : pasteChar s pc = some s := by
            unfold pasteChar
            dsimp only
            rw [if_neg hline, if_neg hpc]
          rw [if_neg hpc, hskip, some_then]
          exact ih h

end Changing

/-! ## Loading and saving -/

section Files
variable {s : EdState}

/-- The rows but the one that is being loaded, and that one too while it is empty. -/
structure Loading (s : EdState) (col : Int) : Prop where
  rows : ∀ r, 0 ≤ r → r < edMaxLines → (r ≠ s.nlines ∨ col = 0) → RowOk s.lines s.len r
  nlines_nonneg : 0 ≤ s.nlines
  nlines_le : s.nlines ≤ edMaxLines
  col_nonneg : 0 ≤ col
  col_le : col ≤ edLineCap
  col_full : s.nlines = edMaxLines → col = 0
  cursor : s.curRow = 0 ∧ s.curCol = 0 ∧ s.scroll = 0

theorem loadLine_spec (h : Loading s col) (hroom : s.nlines < edMaxLines) :
    Returns (loadLine s col) fun t => Loading t 0 ∧ t.nlines = s.nlines + 1 := by
  have hn := h.nlines_nonneg
  have hend := endLine_spec (s := s) hn hroom h.col_nonneg h.col_le
    fun a har ha ha' => h.rows a ha ha' (Or.inl har)
  unfold endLine at hend
  rw [setLen_eq hn hroom, some_then, setCell_eq hn hroom h.col_nonneg h.col_le] at hend
  obtain ⟨t, heq, ⟨ht, hrows, -⟩, -⟩ := hend
  have heq := Option.some.inj heq
  unfold loadLine
  rw [setCell_eq hn hroom h.col_nonneg h.col_le, some_then]
  dsimp only
  rw [setLen_eq hn hroom, some_then, heq]
  apply Returns.some
  have hsame : t.nlines = s.nlines := by rw [ht]
  refine ⟨⟨fun r hr hr' _ => hrows r hr hr', by dsimp only; omega, by dsimp only; omega,
    le_refl _, by decide, fun _ => rfl, ?_⟩, by dsimp only; omega⟩
  rw [ht]
  exact h.cursor

theorem loadByte_spec {sc : EdState × Int} (h : Loading sc.1 sc.2) (ch : UInt8) :
    Returns (loadByte sc ch) fun sc => Loading sc.1 sc.2 := by
  obtain ⟨s, col⟩ := sc
  have hn := h.nlines_nonneg
  have hcol := h.col_nonneg
  unfold loadByte
  dsimp only at h hn hcol ⊢
  by_cases hskip : edMaxLines ≤ s.nlines ∨ ch = 0x0D
  · rw [if_pos hskip]
    exact Returns.some h
  rw [if_neg hskip]
  have hroom : s.nlines < edMaxLines := not_le.mp fun hle => hskip (Or.inl hle)
  by_cases hline : ch = 0x0A
  · rw [if_pos hline]
    exact (loadLine_spec h hroom).bind fun t ht => Returns.some ht.1
  rw [if_neg hline]
  by_cases hfits : col < edLineCap
  · rw [if_pos hfits, setCell_eq hn hroom hcol h.col_le, some_then]
    apply Returns.some
    refine ⟨?_, hn, h.nlines_le, by dsimp only; omega, by dsimp only; omega,
      fun hfull => absurd hroom (by dsimp only at hfull; omega), h.cursor⟩
    rintro r hr hr' (hne | hzero)
    · obtain ⟨h1, h2, h3⟩ := h.rows r hr hr' (Or.inl hne)
      exact ⟨h1, h2, (if_neg fun h => hne h.1).trans h3⟩
    · dsimp only at hzero
      omega
  · rw [if_neg hfits]
    exact Returns.some h

theorem clearRows_spec (s : EdState) : Returns (clearRows s) Rows := by
  apply Returns.upTo (I := fun i (t : EdState) => ∀ r, 0 ≤ r → r < i → RowOk t.lines t.len r)
    (by decide)
  · intro i hi hi' t ht
    rw [setLen_eq hi hi', some_then, setCell_eq hi hi' (le_refl _) (by decide)]
    apply Returns.some
    intro r hr hr'
    by_cases hri : r = i
    · subst hri
      have hzero : (if r = r then (0 : Int) else t.len r) = 0 := if_pos rfl
      constructor <;> dsimp only <;> rw [hzero]
      · decide
      · exact if_pos ⟨rfl, rfl⟩
    · obtain ⟨h1, h2, h3⟩ := ht r hr (by omega)
      have hkeep : (if r = i then (0 : Int) else t.len r) = t.len r := if_neg hri
      constructor <;> dsimp only <;> rw [hkeep]
      · exact h1
      · exact h2
      · exact (if_neg fun h => hri h.1).trans h3
  · intro r hr hr'
    omega

theorem endLoad_spec (h : Loading s col) :
    Returns (endLoad s col) fun t => Loading t 0 ∧ 0 < t.nlines := by
  have hn := h.nlines_nonneg
  have hle := h.nlines_le
  have hmax : edMaxLines = 200 := rfl
  unfold endLoad
  by_cases hrest : 0 < col ∨ s.nlines = 0
  · have hroom : s.nlines < edMaxLines := by
      have hfull := h.col_full
      omega
    rw [if_pos hrest]
    exact (loadLine_spec h hroom).mono fun t ht => ⟨ht.1, by omega⟩
  · have hcol : col = 0 := by
      have hcol := h.col_nonneg
      omega
    rw [if_neg hrest]
    exact Returns.some ⟨hcol ▸ h, by omega⟩

theorem Loading.sound (h : Loading s 0) (hpos : 0 < s.nlines) : Sound s := by
  obtain ⟨hrow, hcol, hscroll⟩ := h.cursor
  have hrows : Rows s := fun r hr hr' => h.rows r hr hr' (Or.inr rfl)
  have hlen := (hrows 0 (le_refl _) (by decide)).len_nonneg
  have hview : edViewRows = 53 := rfl
  exact ⟨⟨hrows, hpos, h.nlines_le, hrow.ge, hrow.trans_lt hpos, hcol.ge,
    by rw [hcol, hrow]; exact hlen, hscroll.ge⟩, by omega, by omega⟩

/-- A file is loaded into a state with the cursor at its start. -/
theorem edLoad_sound (s : EdState) (fname : List UInt8) (data : Option (List UInt8)) :
    Returns (edLoad s fname data) Sound := by
  apply (clearRows_spec s).bind
  intro t ht
  have hstart : Loading (blank fname t) 0 :=
    ⟨fun r hr hr' _ => ht r hr hr', le_refl _, (by decide : (0 : Int) ≤ 200), le_refl _,
      (by decide : (0 : Int) ≤ 160), fun _ => rfl, rfl, rfl, rfl⟩
  unfold loadText
  by_cases hempty : data.getD [] = []
  · have hlen := (ht 0 (le_refl _) (by decide)).len_nonneg
    rw [if_pos hempty]
    exact Returns.some ⟨⟨ht, le_refl (1 : Int), (by decide : (1 : Int) ≤ 200), le_refl (0 : Int),
      (by decide : (0 : Int) < 1), le_refl (0 : Int), hlen, le_refl (0 : Int)⟩, le_refl (0 : Int),
      (by decide : (0 : Int) < 0 + 53)⟩
  · rw [if_neg hempty]
    have hloop : Returns ((data.getD []).foldlM loadByte (blank fname t, 0)) fun sc =>
        Loading sc.1 sc.2 := Returns.foldlM (fun sc hsc ch _ => loadByte_spec hsc ch) hstart
    apply hloop.bind
    intro sc hsc
    apply (endLoad_spec hsc).bind
    rintro u ⟨hu, hpos⟩
    rw [if_neg (by omega)]
    exact Returns.some (hu.sound hpos)

theorem putOut_spec {out : List UInt8} (h : (out.length : Int) ≤ n) (hn : n < edOutbufSize)
    (c : UInt8) : Returns (putOut out c) fun o => (o.length : Int) ≤ n + 1 := by
  unfold putOut
  rw [if_pos (h.trans_lt hn)]
  apply Returns.some
  rw [List.length_append, List.length_singleton]
  omega

/-- A row adds its characters to what is saved. -/
theorem saveRow_spec (h : Body s) {i : Int} (hi : 0 ≤ i) (hi' : i < s.nlines) {out : List UInt8}
    (hout : (out.length : Int) ≤ n) :
    Returns ((upTo 0 (s.len i)).foldlM (fun (out : List UInt8) j =>
      if (out.length : Int) < edOutbufSize - 2 then do putOut out (← getCell s i j)
      else some out) out) fun o => (o.length : Int) ≤ n + s.len i := by
  have hmax := hi'.trans_le h.nlines_le
  obtain ⟨hlen, hlen', -⟩ := h.rows i hi hmax
  apply Returns.upTo (I := fun j (o : List UInt8) => (o.length : Int) ≤ n + j) hlen
  · intro j hj hj' o ho
    split
    · next hguard =>
      rw [getCell_eq hi hmax hj (hj'.le.trans hlen'), some_then]
      exact (putOut_spec (le_refl _) (by omega) _).mono fun o' ho' => by omega
    · exact Returns.some (by omega)
  · omega

/-- The whole text fits in `ed_outbuf`. -/
theorem edSaveText_length (h : Body s) :
    Returns (edSaveText s) fun out => (out.length : Int) ≤ 200 * 161 := by
  have hsize : 200 * 161 < edOutbufSize := by decide
  have hn : s.nlines ≤ 200 := h.nlines_le
  have hlines : Returns ((upTo 0 s.nlines).foldlM (fun out i => do
      let n ← getLen s i
      let out ← (upTo 0 n).foldlM (fun (out : List UInt8) j =>
        if (out.length : Int) < edOutbufSize - 2 then do putOut out (← getCell s i j)
        else some out) out
      if i < s.nlines - 1 then putOut out 0x0A else some out) [])
      fun out => (out.length : Int) ≤ s.nlines * 161 := by
    apply Returns.upTo (I := fun i (out : List UInt8) => (out.length : Int) ≤ i * 161)
      (le_trans (by decide) h.nlines_pos)
    · intro i hi hi' out hout
      have hmax := hi'.trans_le h.nlines_le
      have hlen' : s.len i ≤ 160 := (h.rows i hi hmax).len_le
      rw [getLen_eq hi hmax, some_then]
      apply (saveRow_spec h hi hi' hout).bind
      intro o ho
      split
      · exact (putOut_spec ho (by omega) 0x0A).mono fun o' ho' => by omega
      · exact Returns.some (by omega)
    · exact le_refl (0 : Int)
  apply hlines.bind
  intro out hout
  exact (putOut_spec hout (by omega) 0).bind fun _ _ => Returns.some (by omega)

theorem edSaveText_returns (h : Body s) : Returns (edSaveText s) fun _ => True :=
  (edSaveText_length h).mono fun _ _ => trivial

theorem edSave_body (h : Body s) (written : Bool) : Returns (edSave written s) Body := by
  apply (edSaveText_returns h).bind
  intro _ _
  apply Returns.some
  split
  · exact ⟨h.rows, h.nlines_pos, h.nlines_le, h.row_nonneg, h.row_lt, h.col_nonneg, h.col_le,
      h.scroll_nonneg⟩
  · exact h

end Files

/-! ## Runs -/

/-- A byte for `ed_process_char`, with the clipboard and the outcome of a save. -/
structure Key where
  c : UInt8
  clip : List UInt8
  written : Bool

/-- A key on the state before it, if there is one. -/
def step (t : Option EdState) (key : Key) : Option EdState :=
  t.bind (edProcessChar key.c key.clip key.written)

/-- The text and the cursor are well formed. -/
structure Valid (s : EdState) : Prop where
  nlines_pos : 1 ≤ s.nlines
  nlines_le : s.nlines ≤ edMaxLines
  row_nonneg : 0 ≤ s.curRow
  row_lt : s.curRow < s.nlines
  col_nonneg : 0 ≤ s.curCol
  col_le : s.curCol ≤ s.len s.curRow
  lines : ∀ i, 0 ≤ i → i < s.nlines → RowOk s.lines s.len i
  scroll_le : s.scroll ≤ s.curRow

theorem Sound.valid {s : EdState} (h : Sound s) : Valid s :=
  ⟨h.nlines_pos, h.nlines_le, h.row_nonneg, h.row_lt, h.col_nonneg, h.col_le,
    fun i hi hi' => h.rows i hi (hi'.trans_le h.nlines_le), h.scroll_le⟩

/-- A key is handled with every access inside the arrays, and leaves the state well
formed. -/
def InBounds (t : Option EdState) (key : Key) : Prop := ∃ s, step t key = some s ∧ Valid s

/-- What Ctrl+V would paste now fits. -/
def Clear (t : Option EdState) (key : Key) : Prop :=
  ∀ s, t = some s → key.c = 0x16 →
    pasteFits s.nlines (s.len s.curRow) s.curCol (clipPaste key.clip 256)

section Keys
variable {s : EdState}

theorem edPaste_sound (h : Body s) {clip : List UInt8}
    (hfits : pasteFits s.nlines (s.len s.curRow) s.curCol (clipPaste clip 256)) :
    Returns (edPaste clip s) Sound := by
  apply ((paste_spec _ h).1 hfits).bind
  intro t ht
  exact (renderAll_sound ht).bind fun u hu => Returns.some (fixCursor_sound hu.toBody)

theorem edPaste_eq_none (h : Body s) {clip : List UInt8}
    (hfits : ¬ pasteFits s.nlines (s.len s.curRow) s.curCol (clipPaste clip 256)) :
    edPaste clip s = none := by
  unfold edPaste
  rw [(paste_spec _ h).2 hfits]
  rfl

/-- The keys other than Ctrl+V. -/
theorem edKey_sound (h : Sound s) {c : UInt8} (hc : c ≠ 0x16) (clip : List UInt8) :
    Returns (edKey c clip s) Sound := by
  have hbody := h.toBody
  unfold edKey
  rw [if_neg hc]
  by_cases hup : c = 0x01
  · rw [if_pos hup]
    exact edUp_sound hbody
  rw [if_neg hup]
  by_cases hdown : c = 0x02
  · rw [if_pos hdown]
    exact edDown_sound hbody
  rw [if_neg hdown]
  by_cases hleft : c = 0x04
  · rw [if_pos hleft]
    exact edLeft_sound hbody
  rw [if_neg hleft]
  by_cases hright : c = 0x05
  · rw [if_pos hright]
    exact edRight_sound hbody
  rw [if_neg hright]
  by_cases hdelete : c = 0x06
  · rw [if_pos hdelete]
    exact edDelete_sound hbody
  rw [if_neg hdelete]
  by_cases hback : c = 0x08
  · rw [if_pos hback]
    exact edBackspace_sound hbody
  rw [if_neg hback]
  by_cases henter : c = 0x0A
  · rw [if_pos henter]
    exact edEnter_sound h
  rw [if_neg henter]
  by_cases htype : 0x20 ≤ c ∧ c < 0x7F
  · rw [if_pos htype]
    exact edType_sound h c
  · rw [if_neg htype]
    exact Returns.some h

theorem Sound.modified (h : Sound s) (n : Int) : Sound { s with modified := n } :=
  ⟨⟨h.rows, h.nlines_pos, h.nlines_le, h.row_nonneg, h.row_lt, h.col_nonneg, h.col_le,
    h.scroll_nonneg⟩, h.scroll_le, h.visible⟩

theorem edQuit_sound (h : Sound s) : Sound (edQuit s) := by
  unfold edQuit
  split
  · exact fixCursor_sound (h.modified (-1)).toBody
  · exact ⟨⟨h.rows, h.nlines_pos, h.nlines_le, h.row_nonneg, h.row_lt, h.col_nonneg, h.col_le,
      h.scroll_nonneg⟩, h.scroll_le, h.visible⟩

/-- The warning of Ctrl+Q is taken back before any other key. -/
theorem unwarned_sound (h : Sound s) :
    Sound (if s.modified = -1 then { s with modified := 1 } else s) := by
  split
  · exact h.modified 1
  · exact h

theorem edProcessChar_sound (h : Sound s) {c : UInt8} (hc : c ≠ 0x16) (clip : List UInt8)
    (written : Bool) : Returns (edProcessChar c clip written s) Sound := by
  have hunwarned := unwarned_sound h
  unfold edProcessChar
  by_cases hquit : c = 0x11
  · rw [if_pos hquit]
    exact Returns.some (edQuit_sound h)
  rw [if_neg hquit]
  by_cases hsave : c = 0x13
  · simp only [if_pos hsave]
    exact (edSave_body hunwarned.toBody written).bind fun t ht =>
      Returns.some (fixCursor_sound ht)
  · simp only [if_neg hsave]
    exact edKey_sound hunwarned hc clip

/-- Ctrl+V reads the same text and cursor behind the warning. -/
theorem edProcessChar_paste (clip : List UInt8) (written : Bool) :
    edProcessChar 0x16 clip written s =
      edPaste clip (if s.modified = -1 then { s with modified := 1 } else s) := rfl

/-- One key: it is in bounds exactly when what it pastes fits, and then leaves a sound
state. -/
theorem step_spec (h : Sound s) (key : Key) :
    (InBounds (some s) key ↔ Clear (some s) key) ∧
      (Clear (some s) key → Returns (step (some s) key) Sound) := by
  obtain ⟨c, clip, written⟩ := key
  by_cases hc : c = 0x16
  · subst hc
    have hunwarned := unwarned_sound h
    have hclear : Clear (some s) ⟨0x16, clip, written⟩ ↔
        pasteFits s.nlines (s.len s.curRow) s.curCol (clipPaste clip 256) :=
      ⟨fun hall => hall s rfl rfl, fun hfits _ hs _ => Option.some.inj hs ▸ hfits⟩
    have hsame : pasteFits (if s.modified = -1 then { s with modified := 1 } else s).nlines
        ((if s.modified = -1 then { s with modified := 1 } else s).len
          (if s.modified = -1 then { s with modified := 1 } else s).curRow)
        (if s.modified = -1 then { s with modified := 1 } else s).curCol (clipPaste clip 256) ↔
          pasteFits s.nlines (s.len s.curRow) s.curCol (clipPaste clip 256) := by
      split <;> exact Iff.rfl
    have hstep : step (some s) ⟨0x16, clip, written⟩ =
        edPaste clip (if s.modified = -1 then { s with modified := 1 } else s) :=
      edProcessChar_paste clip written
    rw [hclear]
    constructor
    · constructor
      · rintro ⟨t, ht, -⟩
        by_contra hfits
        rw [hstep, edPaste_eq_none hunwarned.toBody (mt hsame.mp hfits)] at ht
        cases ht
      · intro hfits
        obtain ⟨t, ht, hsound⟩ := edPaste_sound hunwarned.toBody (hsame.mpr hfits)
        exact ⟨t, hstep.trans ht, hsound.valid⟩
    · intro hfits
      rw [hstep]
      exact edPaste_sound hunwarned.toBody (hsame.mpr hfits)
  · have hclear : Clear (some s) ⟨c, clip, written⟩ := fun _ _ h => absurd h hc
    obtain ⟨t, ht, hsound⟩ := edProcessChar_sound h hc clip written
    exact ⟨iff_of_true ⟨t, ht, hsound.valid⟩ hclear, fun _ => ⟨t, ht, hsound⟩⟩

end Keys

/-- On any file the editor opens with a well-formed state, and a run of keys stays in
bounds exactly when every paste fits. -/
theorem editor_inBounds_iff (s : EdState) (fname : List UInt8) (data : Option (List UInt8))
    (keys : List Key) :
    (∃ t, edLoad s fname data = some t ∧ Valid t) ∧
      (Guarded InBounds step (edLoad s fname data) keys ↔
        Guarded Clear step (edLoad s fname data) keys) := by
  obtain ⟨t, ht, hsound⟩ := edLoad_sound s fname data
  refine ⟨⟨t, ht, hsound.valid⟩, ?_⟩
  rw [ht]
  apply guarded_congr (P := fun t => ∃ s, t = some s ∧ Sound s)
  · rintro _ key ⟨u, rfl, hu⟩
    exact (step_spec hu key).1
  · rintro _ key ⟨u, rfl, hu⟩ hclear
    exact (step_spec hu key).2 hclear
  · exact ⟨t, rfl, hsound⟩

/-- The editor before its first file. -/
def unopened : EdState :=
  { lines := fun _ _ => 0
    len := fun _ => 0
    nlines := 0
    curRow := 0
    curCol := 0
    scroll := 0
    active := false
    fname := []
    modified := 0 }

/-- A character is pasted in front of a line of 160 characters. -/
theorem paste_leaves_row : ¬ Guarded InBounds step
    (edLoad unopened [] (some (List.replicate 160 0x61))) [⟨0x16, [0x62], true⟩] := by
  rintro ⟨⟨t, ht, -⟩, -⟩
  have hnone : (step (edLoad unopened [] (some (List.replicate 160 0x61)))
      ⟨0x16, [0x62], true⟩).isSome = false := by decide +kernel
  rw [ht] at hnone
  cases hnone

end OriaOS.Shell.Editor
