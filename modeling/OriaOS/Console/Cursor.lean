import OriaOS.Lib.Partial
import OriaOS.Lib.Reach

/-!
# The console

`print_char` with its escape sequences, `backspace_char` and `vt_switch` of `kernel.c`.
An access outside the text buffers or outside `ansi_buf` leaves no state behind. What is
drawn on the screen is left out.

The cursor is moved down and right by adding a parameter of the program to it, and only
the upper bound is checked afterwards. An `int` wraps at 32 bits.
-/

namespace OriaOS.Console

open OriaOS.Lib

abbrev vgaCols : Int := 160

abbrev vgaRows : Int := 60

abbrev vtCount : Nat := 6

abbrev ansiBufSize : Nat := 24

/-- The value of an `int` behind an arithmetic operation. -/
def wrapInt (x : Int) : Int := x.bmod (2 ^ 32)

/-! ## The text buffers -/

/-- A buffer with a row and a column as indices. -/
abbrev Grid (α : Type) := Int → Int → α

/-- A cell of the buffers. -/
def InGrid (r c : Int) : Prop := 0 ≤ r ∧ r < vgaRows ∧ 0 ≤ c ∧ c < vgaCols

instance (r c : Int) : Decidable (InGrid r c) := inferInstanceAs (Decidable (_ ∧ _))

/-- A cell is written. There are none outside the grid. -/
def put {α : Type} (g : Grid α) (r c : Int) (x : α) : Option (Grid α) :=
  if InGrid r c then some fun r' c' => if r' = r ∧ c' = c then x else g r' c' else none

/-- `VtCtx`, and with the same fields the variables of the terminal that is shown. -/
structure VtCtx where
  textbuf : Grid UInt8
  fgbuf : Grid UInt32
  cursorCol : Int
  cursorRow : Int
  inputStartCol : Int
  inputStartRow : Int
  fgColor : UInt32
  bgColor : UInt32

inductive AnsiState where
  | normal
  | esc
  | bracket
  deriving DecidableEq

structure ConsoleState where
  live : VtCtx
  vtCtx : Fin vtCount → VtCtx
  activeVt : Fin vtCount
  guiMode : Bool
  ansiState : AnsiState
  ansiBuf : Vector UInt8 ansiBufSize
  ansiLen : Nat

/-! ## Escape sequences -/

def ansiDark : List UInt32 :=
  [0x00000000, 0x00AA0000, 0x0000AA00, 0x00AA5500, 0x000000AA, 0x00AA00AA, 0x0000AAAA, 0x00AAAAAA]

def ansiBright : List UInt32 :=
  [0x00555555, 0x00FF5555, 0x0055FF55, 0x00FFFF55, 0x005555FF, 0x00FF55FF, 0x0055FFFF, 0x00FFFFFF]

/-- The loop of `ansi_parse_params` at index `i`. -/
def ansiParseLoop (buf : Vector UInt8 ansiBufSize) :
    Nat → Nat → Int → Bool → List Int → Option (List Int)
  | 0, _, _, _, _ => none
  | fuel + 1, i, v, has, params =>
      match buf[i]? with
      | none => none
      | some ch =>
          if ch = 0 ∧ has = false then some params
          else if 0x30 ≤ ch ∧ ch ≤ 0x39 then
            ansiParseLoop buf fuel (i + 1) (wrapInt (v * 10 + (ch.toNat - 0x30))) true params
          else
            let params := if params.length < 8 then params ++ [v] else params
            if ch = 0x3B then ansiParseLoop buf fuel (i + 1) 0 false params else some params

/-- `ansi_parse_params` for the eight places of `ansi_dispatch`. -/
def ansiParseParams (buf : Vector UInt8 ansiBufSize) : Option (List Int) :=
  ansiParseLoop buf ansiBufSize 0 0 false []

/-- The default colours. -/
def resetColors (v : VtCtx) : VtCtx := { v with fgColor := 0x00FFFFFF, bgColor := 0 }

/-- The bright colour in the place of the dark one. -/
def brighten (color : UInt32) : UInt32 :=
  match ansiDark.idxOf? color with
  | some ci => ansiBright.getD ci color
  | none => color

/-- One parameter of `ESC[...m`. -/
def sgr (v : VtCtx) (n : Int) : VtCtx :=
  if n = 0 then resetColors v
  else if n = 1 then { v with fgColor := brighten v.fgColor }
  else if 30 ≤ n ∧ n ≤ 37 then { v with fgColor := ansiDark.getD (n - 30).toNat 0 }
  else if n = 39 then { v with fgColor := 0x00FFFFFF }
  else if 40 ≤ n ∧ n ≤ 47 then { v with bgColor := ansiDark.getD (n - 40).toNat 0 }
  else if n = 49 then { v with bgColor := 0 }
  else if 90 ≤ n ∧ n ≤ 97 then { v with fgColor := ansiBright.getD (n - 90).toNat 0 }
  else if 100 ≤ n ∧ n ≤ 107 then { v with bgColor := ansiBright.getD (n - 100).toNat 0 }
  else v

/-- `clear_screen`. -/
def clearScreen (v : VtCtx) : VtCtx :=
  { v with textbuf := fun _ _ => 0, fgbuf := fun _ _ => v.fgColor, cursorCol := 0, cursorRow := 0 }

/-- `scroll`. -/
def scroll (v : VtCtx) : VtCtx :=
  { v with
    textbuf := fun r c => if r < vgaRows - 1 then v.textbuf (r + 1) c else 0
    fgbuf := fun r c => if r < vgaRows - 1 then v.fgbuf (r + 1) c else v.fgColor
    cursorRow := vgaRows - 1 }

/-- A loop of `ESC[K`: cells of the row of the cursor are cleared. -/
def eraseCells (v : VtCtx) (cols : List Int) : Option VtCtx :=
  (cols.foldlM (fun g col => put g v.cursorRow col 0) v.textbuf).map fun g =>
    { v with textbuf := g }

/-- The count of a cursor movement. -/
def moveCount (params : List Int) : Int := if 0 < params.getD 0 0 then params.getD 0 0 else 1

/-- A parameter of `ESC[row;colH`, counted from one, at most `n`. -/
def position (p n : Int) : Int :=
  let x := if 0 < p then p - 1 else 0
  let x := if x < 0 then 0 else x
  if n ≤ x then n - 1 else x

/-- `ansi_dispatch` for the final byte and the parameters. -/
def ansiDispatch (term : UInt8) (params : List Int) (v : VtCtx) : Option VtCtx :=
  if term = 0x6D then some (if params = [] then resetColors v else params.foldl sgr v)
  else if term = 0x48 ∨ term = 0x66 then
    some { v with
      cursorRow := position (params.getD 0 0) vgaRows
      cursorCol := position (params.getD 1 0) vgaCols }
  else if term = 0x41 then
    let row := wrapInt (v.cursorRow - moveCount params)
    some { v with cursorRow := if row < 0 then 0 else row }
  else if term = 0x42 then
    let row := wrapInt (v.cursorRow + moveCount params)
    some { v with cursorRow := if vgaRows ≤ row then vgaRows - 1 else row }
  else if term = 0x43 then
    let col := wrapInt (v.cursorCol + moveCount params)
    some { v with cursorCol := if vgaCols ≤ col then vgaCols - 1 else col }
  else if term = 0x44 then
    let col := wrapInt (v.cursorCol - moveCount params)
    some { v with cursorCol := if col < 0 then 0 else col }
  else if term = 0x4A then some (if params.getD 0 0 = 2 then clearScreen v else v)
  else if term = 0x4B then
    if params.getD 0 0 = 0 then eraseCells v (upTo v.cursorCol vgaCols)
    else if params.getD 0 0 = 1 then eraseCells v (upTo 0 (v.cursorCol + 1))
    else if params.getD 0 0 = 2 then eraseCells v (upTo 0 vgaCols)
    else some v
  else some v

/-! ## The calls -/

/-- The cursor goes to the start of the next row. -/
def newline (v : VtCtx) : VtCtx :=
  let v := { v with cursorCol := 0, cursorRow := v.cursorRow + 1 }
  if vgaRows ≤ v.cursorRow then scroll v else v

/-- A byte that is no control stands at the cursor. -/
def printPlain (c : UInt8) (v : VtCtx) : Option VtCtx := do
  let text ← put v.textbuf v.cursorRow v.cursorCol c
  let fg ← put v.fgbuf v.cursorRow v.cursorCol v.fgColor
  let v := { v with textbuf := text, fgbuf := fg, cursorCol := v.cursorCol + 1 }
  some (if vgaCols ≤ v.cursorCol then newline v else v)

/-- `ansi_buf[i] = c`. -/
def storeAnsi (buf : Vector UInt8 ansiBufSize) (i : Nat) (c : UInt8) :
    Option (Vector UInt8 ansiBufSize) :=
  if h : i < ansiBufSize then some (buf.set i c h) else none

/-- The final bytes that end a sequence. -/
def isFinal (c : UInt8) : Bool :=
  c = 0x6D || c = 0x4A || c = 0x48 || c = 0x66 || c = 0x41 || c = 0x42 || c = 0x43 ||
    c = 0x44 || c = 0x4B

/-- A byte of a sequence. -/
def ansiByte (c : UInt8) (s : ConsoleState) : Option ConsoleState := do
  if isFinal c then
    let buf ← storeAnsi s.ansiBuf s.ansiLen 0
    let params ← ansiParseParams buf
    let live ← ansiDispatch c params s.live
    some { s with live := live, ansiBuf := buf, ansiState := .normal }
  else if s.ansiLen < 23 then
    let buf ← storeAnsi s.ansiBuf s.ansiLen c
    some { s with ansiBuf := buf, ansiLen := s.ansiLen + 1 }
  else some s

/-- A byte outside a sequence. -/
def normalByte (c : UInt8) (s : ConsoleState) : Option ConsoleState :=
  if c = 0x1B then some { s with ansiState := .esc }
  else if c = 0x0A then some { s with live := newline s.live }
  else (printPlain c s.live).map fun live => { s with live := live }

/-- `print_char`. -/
def printChar (c : UInt8) (s : ConsoleState) : Option ConsoleState :=
  match s.ansiState with
  | .esc =>
      if c = 0x5B then some { s with ansiState := .bracket, ansiLen := 0 }
      else normalByte c { s with ansiState := .normal }
  | .bracket => ansiByte c s
  | .normal => normalByte c s

/-- `backspace_char`. -/
def backspaceChar (s : ConsoleState) : Option ConsoleState :=
  let v := s.live
  if v.cursorRow = v.inputStartRow ∧ v.cursorCol = v.inputStartCol then some s
  else
    let v :=
      if v.cursorCol = 0 then { v with cursorRow := v.cursorRow - 1, cursorCol := vgaCols - 1 }
      else { v with cursorCol := v.cursorCol - 1 }
    (put v.textbuf v.cursorRow v.cursorCol 0).bind fun text =>
      (put v.fgbuf v.cursorRow v.cursorCol v.fgColor).map fun fg =>
        { s with live := { v with textbuf := text, fgbuf := fg } }

theorem toNat_lt_vtCount {n : Int} (h : 0 ≤ n ∧ n < vtCount) : n.toNat < vtCount :=
  (Int.toNat_lt h.1).mpr h.2

/-- `vt_switch`. -/
def vtSwitch (n : Int) (s : ConsoleState) : ConsoleState :=
  if h : 0 ≤ n ∧ n < vtCount then
    let target : Fin vtCount := ⟨n.toNat, toNat_lt_vtCount h⟩
    if target = s.activeVt ∨ s.guiMode then s
    else
      { s with
        vtCtx := Function.update s.vtCtx s.activeVt s.live
        activeVt := target
        live := s.vtCtx target }
  else s

/-! ## What keeps the cursor in the grid -/

/-- The cursor stands on a cell. -/
def VtCtx.Within (v : VtCtx) : Prop := InGrid v.cursorRow v.cursorCol

instance (v : VtCtx) : Decidable v.Within := inferInstanceAs (Decidable (InGrid _ _))

/-- The state between calls, on every terminal. -/
structure Within (s : ConsoleState) : Prop where
  live : s.live.Within
  saved : ∀ i, (s.vtCtx i).Within
  ansiLen : s.ansiLen ≤ 23

theorem put_isSome {α : Type} {g : Grid α} {r c : Int} (h : InGrid r c) (x : α) :
    put g r c x = some fun r' c' => if r' = r ∧ c' = c then x else g r' c' := if_pos h

theorem put_eq_none {α : Type} {g : Grid α} {r c : Int} (h : ¬ InGrid r c) (x : α) :
    put g r c x = none := if_neg h

theorem wrapInt_of_range {x : Int} (hlow : -2 ^ 31 ≤ x) (hhigh : x < 2 ^ 31) : wrapInt x = x := by
  unfold wrapInt
  rw [Int.bmod_def]
  split <;> omega

/-- Above the range an `int` is negative. -/
theorem wrapInt_of_ge {x : Int} (hlow : 2 ^ 31 ≤ x) (hhigh : x < 2 ^ 32) : wrapInt x < 0 := by
  unfold wrapInt
  rw [Int.bmod_def]
  split <;> omega

theorem wrapInt_lt (x : Int) : wrapInt x < 2 ^ 31 := by
  have h := Int.bmod_lt (x := x) (m := 2 ^ 32) (by decide)
  unfold wrapInt
  omega

theorem within_iff (v : VtCtx) :
    v.Within ↔ 0 ≤ v.cursorRow ∧ v.cursorRow < 60 ∧ 0 ≤ v.cursorCol ∧ v.cursorCol < 160 := Iff.rfl

/-- In the last row the text moves up instead of the cursor. -/
theorem newline_within {v : VtCtx} (h : 0 ≤ v.cursorRow) : (newline v).Within := by
  rw [within_iff]
  unfold newline
  by_cases hlast : vgaRows ≤ v.cursorRow + 1
  · simp only [if_pos hlast, scroll]
    decide
  · have hrow : v.cursorRow + 1 < 60 := not_le.mp hlast
    simp only [if_neg hlast]
    omega

theorem printPlain_within {v : VtCtx} (h : v.Within) (c : UInt8) :
    ∃ v', printPlain c v = some v' ∧ v'.Within := by
  unfold printPlain
  rw [put_isSome h, put_isSome h]
  refine ⟨_, rfl, ?_⟩
  obtain ⟨hrow, hrow', hcol, -⟩ := (within_iff v).mp h
  by_cases hlast : vgaCols ≤ v.cursorCol + 1
  · rw [if_pos hlast]
    exact newline_within hrow
  · have hcol' : v.cursorCol + 1 < 160 := not_le.mp hlast
    rw [if_neg hlast, within_iff]
    exact ⟨hrow, hrow', Int.le_add_one hcol, hcol'⟩

/-- Cells of the row of the cursor are cleared, and the cursor stays. -/
theorem eraseCells_within {v : VtCtx} (h : v.Within) {cols : List Int}
    (hcols : ∀ col ∈ cols, 0 ≤ col ∧ col < vgaCols) :
    ∃ v', eraseCells v cols = some v' ∧ v'.Within := by
  have hrun : ∀ g : Grid UInt8, ∃ g',
      cols.foldlM (fun g col => put g v.cursorRow col 0) g = some g' := by
    induction cols with
    | nil => exact fun g => ⟨g, rfl⟩
    | cons col cols ih =>
        intro g
        obtain ⟨hcol, hcol'⟩ := hcols col List.mem_cons_self
        rw [List.foldlM_cons, put_isSome ⟨h.1, h.2.1, hcol, hcol'⟩]
        exact ih (fun c hc => hcols c (List.mem_cons_of_mem _ hc)) _
  obtain ⟨g', hg⟩ := hrun v.textbuf
  exact ⟨{ v with textbuf := g' }, by rw [eraseCells, hg]; rfl, h⟩

/-! ## The parameters -/

/-- With a zero byte in front of the end of the buffer the loop stops there, and what it
found are values of an `int`. -/
theorem ansiParseLoop_spec {buf : Vector UInt8 ansiBufSize} {stop : Nat}
    (hstop : buf[stop]? = some 0) (fuel i : Nat) (v : Int) (has : Bool) (params : List Int)
    (hi : i ≤ stop) (hfuel : stop < i + fuel) (hv : v < 2 ^ 31) (hparams : ∀ p ∈ params, p < 2 ^ 31) :
    ∃ found, ansiParseLoop buf fuel i v has params = some found ∧ ∀ p ∈ found, p < 2 ^ 31 := by
  have hlt : stop < ansiBufSize := by
    obtain ⟨h, -⟩ := Vector.getElem?_eq_some_iff.mp hstop
    exact h
  induction fuel generalizing i v has params with
  | zero => omega
  | succ fuel ih =>
      obtain ⟨ch, hch⟩ : ∃ ch, buf[i]? = some ch := ⟨buf[i], Vector.getElem?_eq_getElem (by omega)⟩
      have hnext : ch ≠ 0 → i + 1 ≤ stop := by
        intro hne
        have hdiff : i ≠ stop := by
          rintro rfl
          rw [hch] at hstop
          exact hne (Option.some.inj hstop)
        omega
      have hstored : ∀ p ∈ (if params.length < 8 then params ++ [v] else params), p < 2 ^ 31 := by
        intro p hp
        split at hp
        · obtain hp | hp := List.mem_append.mp hp
          · exact hparams p hp
          · rw [List.mem_singleton.mp hp]
            exact hv
        · exact hparams p hp
      unfold ansiParseLoop
      rw [hch]
      dsimp only
      by_cases hend : ch = 0 ∧ has = false
      · rw [if_pos hend]
        exact ⟨params, rfl, hparams⟩
      rw [if_neg hend]
      by_cases hdigit : 0x30 ≤ ch ∧ ch ≤ 0x39
      · rw [if_pos hdigit]
        have hne : ch ≠ 0 := by
          rintro rfl
          exact absurd hdigit.1 (by decide)
        exact ih (i + 1) _ true params (hnext hne) (by omega) (wrapInt_lt _) hparams
      rw [if_neg hdigit]
      by_cases hsep : ch = 0x3B
      · rw [if_pos hsep]
        have hne : ch ≠ 0 := by
          rintro rfl
          exact absurd hsep (by decide)
        exact ih (i + 1) 0 false _ (hnext hne) (by omega) (by decide) hstored
      · rw [if_neg hsep]
        exact ⟨_, rfl, hstored⟩

/-- `ansi_parse_params` ends on every buffer with a zero byte, without reading behind it. -/
theorem ansiParseParams_spec {buf : Vector UInt8 ansiBufSize} {stop : Nat}
    (hstop : buf[stop]? = some 0) :
    ∃ params, ansiParseParams buf = some params ∧ ∀ p ∈ params, p < 2 ^ 31 := by
  obtain ⟨hlt, -⟩ := Vector.getElem?_eq_some_iff.mp hstop
  exact ansiParseLoop_spec hstop _ 0 0 false [] (Nat.zero_le _) (by omega) (by decide) nofun

theorem moveCount_range {params : List Int} (h : ∀ p ∈ params, p < 2 ^ 31) :
    0 < moveCount params ∧ moveCount params < 2 ^ 31 := by
  have hfirst : params.getD 0 0 < 2 ^ 31 := by
    cases params with
    | nil => decide
    | cons p params => exact h p List.mem_cons_self
  unfold moveCount
  split
  · next hpos => exact ⟨hpos, hfirst⟩
  · decide

/-! ## The final bytes -/

section Dispatch
variable {v : VtCtx} {params : List Int}

theorem foldl_sgr_within (h : v.Within) : (params.foldl sgr v).Within := by
  induction params generalizing v with
  | nil => exact h
  | cons n params ih =>
      apply ih
      have hkeep : (sgr v n).cursorRow = v.cursorRow ∧ (sgr v n).cursorCol = v.cursorCol := by
        unfold sgr resetColors
        split_ifs <;> exact ⟨rfl, rfl⟩
      rw [within_iff, hkeep.1, hkeep.2]
      exact h

theorem position_range (p : Int) {n : Int} (hn : 0 < n) : 0 ≤ position p n ∧ position p n < n := by
  unfold position
  dsimp only
  split_ifs <;> omega

/-- A movement up or to the left stops at the edge. -/
theorem moved_back {x n : Int} (hx : 0 ≤ x) (hx' : x < 160) (hn : 0 < n) (hn' : n < 2 ^ 31) :
    0 ≤ (if wrapInt (x - n) < 0 then 0 else wrapInt (x - n)) ∧
      (if wrapInt (x - n) < 0 then 0 else wrapInt (x - n)) ≤ x := by
  rw [wrapInt_of_range (by omega) (by omega)]
  split_ifs <;> omega

/-- A movement down or to the right stops at the edge when the sum is in the range of an
`int`. Else it ends in front of the grid. -/
theorem moved_on {x n m : Int} (hx : 0 ≤ x) (hx' : x < 160) (hm : 0 < m) (hm' : m ≤ 160)
    (hn : 0 < n) (hn' : n < 2 ^ 31) :
    (0 ≤ (if m ≤ wrapInt (x + n) then m - 1 else wrapInt (x + n)) ∧
      (if m ≤ wrapInt (x + n) then m - 1 else wrapInt (x + n)) < m) ↔ x + n < 2 ^ 31 := by
  by_cases hrange : x + n < 2 ^ 31
  · rw [wrapInt_of_range (by omega) hrange]
    split_ifs <;> omega
  · have hneg := wrapInt_of_ge (not_lt.mp hrange) (by omega)
    rw [if_neg (by omega)]
    omega

/-- The sum of the cursor and the parameter, for the bytes that move it on. -/
def Fits (term : UInt8) (params : List Int) (v : VtCtx) : Prop :=
  (term = 0x42 → v.cursorRow + moveCount params < 2 ^ 31) ∧
    (term = 0x43 → v.cursorCol + moveCount params < 2 ^ 31)

instance (term : UInt8) (params : List Int) (v : VtCtx) : Decidable (Fits term params v) :=
  inferInstanceAs (Decidable (_ ∧ _))

/-- The other final bytes leave the cursor in the grid. -/
theorem ansiDispatch_within (h : v.Within) (hparams : ∀ p ∈ params, p < 2 ^ 31) {term : UInt8}
    (hdown : term ≠ 0x42) (hright : term ≠ 0x43) :
    ∃ v', ansiDispatch term params v = some v' ∧ v'.Within := by
  obtain ⟨hrow, hrow', hcol, hcol'⟩ := (within_iff v).mp h
  obtain ⟨hn, hn'⟩ := moveCount_range hparams
  unfold ansiDispatch
  by_cases hm : term = 0x6D
  · rw [if_pos hm]
    refine ⟨_, rfl, ?_⟩
    by_cases hnone : params = []
    · rw [if_pos hnone]
      exact h
    · rw [if_neg hnone]
      exact foldl_sgr_within h
  rw [if_neg hm]
  by_cases hhome : term = 0x48 ∨ term = 0x66
  · rw [if_pos hhome]
    obtain ⟨hr, hr'⟩ := position_range (params.getD 0 0) (by decide : 0 < vgaRows)
    obtain ⟨hc, hc'⟩ := position_range (params.getD 1 0) (by decide : 0 < vgaCols)
    exact ⟨_, rfl, hr, hr', hc, hc'⟩
  rw [if_neg hhome]
  by_cases hup : term = 0x41
  · rw [if_pos hup]
    obtain ⟨hr, hr'⟩ := moved_back hrow (by omega) hn hn'
    exact ⟨_, rfl, hr, hr'.trans_lt hrow', hcol, hcol'⟩
  rw [if_neg hup, if_neg hdown, if_neg hright]
  by_cases hleft : term = 0x44
  · rw [if_pos hleft]
    obtain ⟨hc, hc'⟩ := moved_back hcol hcol' hn hn'
    exact ⟨_, rfl, hrow, hrow', hc, hc'.trans_lt hcol'⟩
  rw [if_neg hleft]
  by_cases hclear : term = 0x4A
  · rw [if_pos hclear]
    refine ⟨_, rfl, ?_⟩
    by_cases hall : params.getD 0 0 = 2
    · rw [if_pos hall]
      exact (by decide : InGrid 0 0)
    · rw [if_neg hall]
      exact h
  rw [if_neg hclear]
  by_cases hline : term = 0x4B
  · rw [if_pos hline]
    split_ifs
    · exact eraseCells_within h fun col hmem =>
        ⟨hcol.trans (mem_upTo.mp hmem).1, (mem_upTo.mp hmem).2⟩
    · refine eraseCells_within h fun col hmem => ⟨(mem_upTo.mp hmem).1, ?_⟩
      have hle := (mem_upTo.mp hmem).2
      exact (Int.lt_add_one_iff.mp hle).trans_lt hcol'
    · exact eraseCells_within h fun col hmem => mem_upTo.mp hmem
    · exact ⟨v, rfl, h⟩
  · rw [if_neg hline]
    exact ⟨v, rfl, h⟩

/-- A sequence leaves the cursor in the grid exactly when the sum fits. -/
theorem ansiDispatch_spec (h : v.Within) (hparams : ∀ p ∈ params, p < 2 ^ 31) (term : UInt8) :
    ∃ v', ansiDispatch term params v = some v' ∧ (v'.Within ↔ Fits term params v) := by
  obtain ⟨hrow, hrow', hcol, hcol'⟩ := (within_iff v).mp h
  obtain ⟨hn, hn'⟩ := moveCount_range hparams
  by_cases hdown : term = 0x42
  · subst hdown
    have hmove := moved_on (m := vgaRows) hrow (by omega) (by decide) (by decide) hn hn'
    refine ⟨_, rfl, ?_⟩
    constructor
    · exact fun hv => ⟨fun _ => hmove.mp ⟨hv.1, hv.2.1⟩, fun hb => absurd hb (by decide)⟩
    · intro hfits
      obtain ⟨hr, hr'⟩ := hmove.mpr (hfits.1 rfl)
      exact ⟨hr, hr', hcol, hcol'⟩
  by_cases hright : term = 0x43
  · subst hright
    have hmove := moved_on (m := vgaCols) hcol hcol' (by decide) (by decide) hn hn'
    refine ⟨_, rfl, ?_⟩
    constructor
    · exact fun hv => ⟨fun hb => absurd hb (by decide), fun _ => hmove.mp hv.2.2⟩
    · intro hfits
      exact ⟨hrow, hrow', hmove.mpr (hfits.2 rfl)⟩
  obtain ⟨v', hv', hwithin⟩ := ansiDispatch_within h hparams hdown hright
  exact ⟨v', hv', fun _ => ⟨fun hb => absurd hb hdown, fun hb => absurd hb hright⟩,
    fun _ => hwithin⟩

end Dispatch

/-! ## Runs -/

inductive Op where
  | printChar (c : UInt8)
  | backspaceChar
  | vtSwitch (n : Int)

def call (s : ConsoleState) : Op → Option ConsoleState
  | .printChar c => printChar c s
  | .backspaceChar => backspaceChar s
  | .vtSwitch n => some (vtSwitch n s)

/-- A call on the state before it, if there is one. -/
def step (t : Option ConsoleState) (op : Op) : Option ConsoleState := t.bind fun s => call s op

/-- A call returns, with every access inside the buffers, and leaves the cursor in the
grid. -/
def InBounds (t : Option ConsoleState) (op : Op) : Prop :=
  ∃ s, step t op = some s ∧ s.live.Within ∧ s.ansiLen ≤ 23

/-- The parameters of the sequence that a final byte would end now. -/
def pending (s : ConsoleState) : List Int :=
  ((storeAnsi s.ansiBuf s.ansiLen 0).bind ansiParseParams).getD []

/-- The sum of a movement fits, and no backspace comes at the first cell, except where
the input starts there. -/
def ClearAt (s : ConsoleState) : Op → Prop
  | .printChar c => s.ansiState = .bracket → Fits c (pending s) s.live
  | .backspaceChar => s.live.cursorRow = 0 → s.live.cursorCol = 0 →
      s.live.inputStartRow = 0 ∧ s.live.inputStartCol = 0
  | .vtSwitch _ => True

def Clear (t : Option ConsoleState) (op : Op) : Prop := ∀ s, t = some s → ClearAt s op

section Calls
variable {s : ConsoleState}

theorem storeAnsi_spec (hs : Within s) :
    ∃ buf params, storeAnsi s.ansiBuf s.ansiLen 0 = some buf ∧
      ansiParseParams buf = some params ∧ params = pending s ∧ ∀ p ∈ params, p < 2 ^ 31 := by
  have hlen : s.ansiLen < ansiBufSize := Nat.lt_succ_of_le hs.ansiLen
  have hstore : storeAnsi s.ansiBuf s.ansiLen 0 = some (s.ansiBuf.set s.ansiLen 0 hlen) :=
    dif_pos hlen
  have hstop : (s.ansiBuf.set s.ansiLen 0 hlen)[s.ansiLen]? = some 0 := by
    rw [Vector.getElem?_eq_getElem hlen, Vector.getElem_set_self]
  obtain ⟨params, hparams, hrange⟩ := ansiParseParams_spec hstop
  refine ⟨_, params, hstore, hparams, ?_, hrange⟩
  rw [pending, hstore, Option.bind_some, hparams, Option.getD_some]

/-- A byte of a sequence. -/
theorem ansiByte_spec (hs : Within s) (c : UInt8) :
    ∃ s', ansiByte c s = some s' ∧ (s'.live.Within ↔ Fits c (pending s) s.live) ∧
      s'.vtCtx = s.vtCtx ∧ s'.ansiLen ≤ 23 := by
  unfold ansiByte
  by_cases hfinal : isFinal c = true
  · rw [if_pos hfinal]
    obtain ⟨buf, params, hstore, hparse, rfl, hrange⟩ := storeAnsi_spec hs
    obtain ⟨v', hv', hwithin⟩ := ansiDispatch_spec hs.live hrange c
    refine ⟨{ s with live := v', ansiBuf := buf, ansiState := .normal }, ?_, hwithin, rfl, hs.ansiLen⟩
    simp only [hstore, hparse, hv', Option.bind_eq_bind, Option.bind_some]
  · rw [if_neg hfinal]
    have hfits : Fits c (pending s) s.live := by
      constructor <;> rintro rfl <;> exact absurd rfl hfinal
    by_cases hroom : s.ansiLen < 23
    · have hlen : s.ansiLen < ansiBufSize := hroom.trans (by decide)
      rw [if_pos hroom, storeAnsi, dif_pos hlen]
      exact ⟨_, rfl, iff_of_true hs.live hfits, rfl, hroom⟩
    · rw [if_neg hroom]
      exact ⟨s, rfl, iff_of_true hs.live hfits, rfl, hs.ansiLen⟩

theorem normalByte_spec (hs : Within s) (c : UInt8) :
    ∃ s', normalByte c s = some s' ∧ s'.live.Within ∧ s'.vtCtx = s.vtCtx ∧ s'.ansiLen ≤ 23 := by
  unfold normalByte
  by_cases hesc : c = 0x1B
  · rw [if_pos hesc]
    exact ⟨_, rfl, hs.live, rfl, hs.ansiLen⟩
  rw [if_neg hesc]
  by_cases hline : c = 0x0A
  · rw [if_pos hline]
    exact ⟨_, rfl, newline_within hs.live.1, rfl, hs.ansiLen⟩
  rw [if_neg hline]
  obtain ⟨v', hv', hwithin⟩ := printPlain_within hs.live c
  rw [hv']
  exact ⟨_, rfl, hwithin, rfl, hs.ansiLen⟩

theorem printChar_spec (hs : Within s) (c : UInt8) :
    ∃ s', printChar c s = some s' ∧ (s'.live.Within ↔ ClearAt s (.printChar c)) ∧
      s'.vtCtx = s.vtCtx ∧ s'.ansiLen ≤ 23 := by
  unfold printChar ClearAt
  cases hstate : s.ansiState with
  | normal =>
      obtain ⟨s', hs', hwithin, hvt, hlen⟩ := normalByte_spec hs c
      exact ⟨s', hs', iff_of_true hwithin nofun, hvt, hlen⟩
  | esc =>
      by_cases hopen : c = 0x5B
      · simp only [if_pos hopen]
        exact ⟨_, rfl, iff_of_true hs.live nofun, rfl, Nat.zero_le _⟩
      · simp only [if_neg hopen]
        obtain ⟨s', hs', hwithin, hvt, hlen⟩ :=
          normalByte_spec (s := { s with ansiState := .normal }) ⟨hs.live, hs.saved, hs.ansiLen⟩ c
        exact ⟨s', hs', iff_of_true hwithin nofun, hvt, hlen⟩
  | bracket =>
      obtain ⟨s', hs', hwithin, hvt, hlen⟩ := ansiByte_spec hs c
      exact ⟨s', hs', hwithin.trans ⟨fun h _ => h, fun h => h rfl⟩, hvt, hlen⟩

/-- The cell that is cleared is in the grid. -/
theorem backspace_within (hs : Within s) {v : VtCtx} (hv : v.Within) :
    ∃ s', ((put v.textbuf v.cursorRow v.cursorCol 0).bind fun text =>
        (put v.fgbuf v.cursorRow v.cursorCol v.fgColor).map fun fg =>
          { s with live := { v with textbuf := text, fgbuf := fg } }) = some s' ∧
      s'.live.Within ∧ s'.vtCtx = s.vtCtx ∧ s'.ansiLen ≤ 23 := by
  rw [put_isSome hv, put_isSome hv]
  exact ⟨_, rfl, hv, rfl, hs.ansiLen⟩

theorem backspaceChar_clear (hs : Within s) (hclear : ClearAt s .backspaceChar) :
    ∃ s', backspaceChar s = some s' ∧ s'.live.Within ∧ s'.vtCtx = s.vtCtx ∧ s'.ansiLen ≤ 23 := by
  obtain ⟨hrow, hrow', hcol, hcol'⟩ := (within_iff s.live).mp hs.live
  unfold backspaceChar
  dsimp only
  by_cases hstart : s.live.cursorRow = s.live.inputStartRow ∧
      s.live.cursorCol = s.live.inputStartCol
  · rw [if_pos hstart]
    exact ⟨s, rfl, hs.live, rfl, hs.ansiLen⟩
  rw [if_neg hstart]
  apply backspace_within hs
  by_cases hedge : s.live.cursorCol = 0
  · have hbelow : s.live.cursorRow ≠ 0 := by
      intro htop
      obtain ⟨hr, hc⟩ := hclear htop hedge
      exact hstart ⟨htop.trans hr.symm, hedge.trans hc.symm⟩
    rw [if_pos hedge]
    exact ⟨by change 0 ≤ s.live.cursorRow - 1; omega, Int.sub_one_lt_of_le hrow'.le,
      by change (0 : Int) ≤ 159; decide, by change (159 : Int) < 160; decide⟩
  · rw [if_neg hedge, within_iff]
    dsimp only
    omega

/-- Otherwise the cell in front of the grid is cleared. -/
theorem backspaceChar_eq_none (hclear : ¬ ClearAt s .backspaceChar) : backspaceChar s = none := by
  simp only [ClearAt, not_forall] at hclear
  obtain ⟨htop, hedge, hinput⟩ := hclear
  have hstart : ¬ (s.live.cursorRow = s.live.inputStartRow ∧
      s.live.cursorCol = s.live.inputStartCol) := by
    rw [htop, hedge]
    exact fun h => hinput ⟨h.1.symm, h.2.symm⟩
  have hout : ¬ InGrid (s.live.cursorRow - 1) (vgaCols - 1) := by
    rw [htop]
    decide
  unfold backspaceChar
  dsimp only
  rw [if_neg hstart, if_pos hedge, put_eq_none hout]
  rfl

theorem vtSwitch_within (hs : Within s) (n : Int) : Within (vtSwitch n s) := by
  unfold vtSwitch
  split
  · dsimp only
    split
    · exact hs
    · refine ⟨hs.saved _, ?_, hs.ansiLen⟩
      intro i
      change (Function.update s.vtCtx s.activeVt s.live i).Within
      by_cases hi : i = s.activeVt
      · subst hi
        rw [Function.update_self]
        exact hs.live
      · rw [Function.update_of_ne hi]
        exact hs.saved i
  · exact hs

/-- One call: it stays in bounds exactly when it is clear, and then keeps the state so. -/
theorem call_spec (hs : Within s) (op : Op) :
    (InBounds (some s) op ↔ ClearAt s op) ∧
      (ClearAt s op → ∃ s', call s op = some s' ∧ Within s') := by
  cases op with
  | printChar c =>
      obtain ⟨s', hcall, hwithin, hvt, hlen⟩ := printChar_spec hs c
      constructor
      · constructor
        · rintro ⟨t, ht, hin, -⟩
          rw [show step (some s) (.printChar c) = some s' from hcall] at ht
          cases ht
          exact hwithin.mp hin
        · exact fun hclear => ⟨s', hcall, hwithin.mpr hclear, hlen⟩
      · exact fun hclear => ⟨s', hcall, hwithin.mpr hclear, fun i => hvt ▸ hs.saved i, hlen⟩
  | backspaceChar =>
      constructor
      · constructor
        · rintro ⟨t, ht, -, -⟩
          by_contra hclear
          rw [show step (some s) .backspaceChar = none from backspaceChar_eq_none hclear] at ht
          cases ht
        · intro hclear
          obtain ⟨s', hcall, hin, -, hlen⟩ := backspaceChar_clear hs hclear
          exact ⟨s', hcall, hin, hlen⟩
      · intro hclear
        obtain ⟨s', hcall, hin, hvt, hlen⟩ := backspaceChar_clear hs hclear
        exact ⟨s', hcall, hin, fun i => hvt ▸ hs.saved i, hlen⟩
  | vtSwitch n =>
      have hswitch := vtSwitch_within hs n
      exact ⟨⟨fun _ => trivial, fun _ => ⟨_, rfl, hswitch.live, hswitch.ansiLen⟩⟩,
        fun _ => ⟨_, rfl, hswitch⟩⟩

end Calls

/-- From every console whose cursors are in the grid, a run stays in bounds exactly when
all its calls are clear. -/
theorem run_inBounds_iff {s : ConsoleState} (hs : Within s) (ops : List Op) :
    Guarded InBounds step (some s) ops ↔ Guarded Clear step (some s) ops := by
  apply guarded_congr (P := fun t => ∃ s, t = some s ∧ Within s)
  · rintro _ op ⟨s, rfl, hs⟩
    rw [(call_spec hs op).1]
    constructor
    · rintro h _ ⟨rfl⟩
      exact h
    · exact fun h => h s rfl
  · rintro _ op ⟨s, rfl, hs⟩ hclear
    obtain ⟨s', hcall, hs'⟩ := (call_spec hs op).2 (hclear s rfl)
    exact ⟨s', hcall, hs'⟩
  · exact ⟨s, rfl, hs⟩

/-- `vt_init_all`: a terminal at boot. -/
def blankVt : VtCtx :=
  { textbuf := fun _ _ => 0
    fgbuf := fun _ _ => 0x00AAAAAA
    cursorCol := 0
    cursorRow := 0
    inputStartCol := 0
    inputStartRow := 0
    fgColor := 0x00AAAAAA
    bgColor := 0 }

theorem vtCount_pos : 0 < vtCount := by decide

def boot : ConsoleState :=
  { live := blankVt
    vtCtx := fun _ => blankVt
    activeVt := ⟨0, vtCount_pos⟩
    guiMode := false
    ansiState := .normal
    ansiBuf := Vector.replicate ansiBufSize 0
    ansiLen := 0 }

theorem boot_within : Within boot :=
  ⟨by decide, fun _ => (by decide : blankVt.Within), Nat.zero_le _⟩

theorem run_inBounds_iff_hello :
    Guarded InBounds step (some boot) [.printChar 0x48, .vtSwitch 1, .backspaceChar] ↔
      Guarded Clear step (some boot) [.printChar 0x48, .vtSwitch 1, .backspaceChar] :=
  run_inBounds_iff boot_within _

/-- A new line, and the start of the sequence that moves the cursor down by 2147483647. -/
def farDown : List Op :=
  [0x0A, 0x1B, 0x5B, 0x32, 0x31, 0x34, 0x37, 0x34, 0x38, 0x33, 0x36, 0x34, 0x37].map Op.printChar

/-- Its final byte takes the cursor out of the grid. -/
theorem cursor_leaves_grid :
    ¬ Guarded InBounds step (some boot) (farDown ++ [.printChar 0x42]) := by
  intro h
  obtain ⟨s, hs, hwithin, -⟩ := h.at
  have hrow : ((step (farDown.foldl step (some boot)) (.printChar 0x42)).map
      fun s => s.live.cursorRow) = some (-2147483648) := by decide +kernel
  rw [hs] at hrow
  have hneg : s.live.cursorRow = -2147483648 := Option.some.inj hrow
  exact absurd hwithin.1 (by omega)

end OriaOS.Console
