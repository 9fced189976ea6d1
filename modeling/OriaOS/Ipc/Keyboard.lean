import OriaOS.Ipc.Poll

/-!
# The keyboard

`keyboard.c`: one scancode byte after the other is decoded under a prefix flag and the
state of the modifiers, and what it decodes to goes into a ring that `keyboard_getchar`
reads. A task that waits for a character is woken.

The keys that change a modifier return before the prefix flag is cleared, and the
extended keys put their character into the ring without waking anybody.
-/

namespace OriaOS.Ipc.Keyboard

open OriaOS.Lib OriaOS.Ipc

/-! ## The decoding -/

def keyUp : UInt8 := 0x01

def keyDown : UInt8 := 0x02

def keyTab : UInt8 := 0x03

def keyLeft : UInt8 := 0x04

def keyRight : UInt8 := 0x05

def keyDelete : UInt8 := 0x06

def keyF1 : UInt8 := 0x10

def chars (cs : List Char) : List UInt8 := cs.map fun c => UInt8.ofNat c.toNat

/-- `scancode_table`. -/
def scancodeTable : List UInt8 :=
  [0, 0] ++ chars ['1', '2', '3', '4', '5', '6', '7', '8'] ++
  chars ['9', '0', '-', '='] ++ [0, 0] ++ chars ['q', 'w', 'e', 'r'] ++
  chars ['t', 'y', 'u', 'i', 'o', 'p', '[', ']'] ++ [0, 0] ++
  chars ['a', 's', 'd', 'f', 'g', 'h', 'j', 'k', 'l', ';'] ++
  [0x27, 0x60, 0, 0x5c] ++ chars ['z', 'x', 'c', 'v', 'b', 'n'] ++
  chars ['m', ',', '.', '/'] ++ [0] ++ chars ['*'] ++ [0] ++ chars [' ']

/-- `scancode_shift_table`. -/
def scancodeShiftTable : List UInt8 :=
  [0, 0] ++ chars ['!', '@', '#', '$', '%', '^', '&', '*'] ++
  chars ['(', ')', '_', '+'] ++ [0, 0] ++ chars ['Q', 'W', 'E', 'R'] ++
  chars ['T', 'Y', 'U', 'I', 'O', 'P'] ++ [0x7b, 0x7d] ++ [0, 0] ++
  chars ['A', 'S', 'D', 'F', 'G', 'H', 'J', 'K', 'L', ':'] ++
  [0x22, 0x7e, 0, 0x7c] ++ chars ['Z', 'X', 'C', 'V', 'B', 'N'] ++
  chars ['M', '<', '>', '?'] ++ [0] ++ chars ['*'] ++ [0] ++ chars [' ']

def isLower (c : UInt8) : Bool := 0x61 ≤ c && c ≤ 0x7a

def isUpper (c : UInt8) : Bool := 0x41 ≤ c && c ≤ 0x5a

/-- The state of `keyboard.c`. The ring is written at its head (`key_tail`). -/
structure KeyState where
  keys : Ring UInt8 keyBufferSize
  extended : Bool
  shiftPressed : Bool
  ctrlPressed : Bool
  altPressed : Bool
  capslockOn : Bool
  fgTaskPid : Int
  kwaiter : Int

/-- What the handler does beyond its own state: `task_unblock`, `task_send_signal` with
SIGINT, and `vt_switch`. -/
structure Effects where
  unblocked : Option Int := none
  interrupted : Option Int := none
  terminal : Option Nat := none

/-- `key_push`. -/
def keyPush (c : UInt8) (s : KeyState) : KeyState := { s with keys := s.keys.push c }

/-- `keyboard_getchar`, 0 when there is nothing. -/
def keyboardGetchar (s : KeyState) : UInt8 × KeyState :=
  match s.keys.poll with
  | none => (0, s)
  | some (c, keys) => (c, { s with keys := keys })

def keyboardSetWaiter (tid : Int) (s : KeyState) : KeyState := { s with kwaiter := tid }

def keyboardSetFgPid (pid : Int) (s : KeyState) : KeyState := { s with fgTaskPid := pid }

/-- The waiter is taken and woken. -/
def wake (s : KeyState) : KeyState × Effects :=
  ({ s with kwaiter := -1 }, { unblocked := if 0 ≤ s.kwaiter then some s.kwaiter else none })

/-- The extended keys, by the byte behind the prefix. -/
def extendedChar (sc : UInt8) : Option UInt8 :=
  if sc = 0x48 then some keyUp
  else if sc = 0x50 then some keyDown
  else if sc = 0x4B then some keyLeft
  else if sc = 0x4D then some keyRight
  else if sc = 0x53 then some keyDelete
  else none

def extendedKey (sc : UInt8) (s : KeyState) : KeyState :=
  match extendedChar sc with
  | some c => keyPush c { s with extended := false }
  | none => { s with
      extended := false
      ctrlPressed := if sc = 0x9D then false else s.ctrlPressed }

/-- The character of a key of the tables, under shift and caps lock. -/
def tableChar (sc : UInt8) (s : KeyState) : UInt8 :=
  let c := (if s.shiftPressed then scancodeShiftTable else scancodeTable).getD sc.toNat 0
  if s.capslockOn then
    if isLower c then c - 32 else if isUpper c then c + 32 else c
  else c

/-- The control code of a letter. -/
def ctrlChar (c : UInt8) (s : KeyState) : UInt8 :=
  if s.ctrlPressed then
    if isLower c then c - 0x61 + 1 else if isUpper c then c - 0x41 + 1 else c
  else c

/-- Ctrl+C: the foreground task is interrupted, and nothing goes into the ring. -/
def interrupt (s : KeyState) : KeyState × Effects :=
  if 0 ≤ s.fgTaskPid then
    ({ s with fgTaskPid := -1 }, { interrupted := some s.fgTaskPid })
  else (s, {})

/-- The keys of the tables. -/
def tableKey (sc : UInt8) (s : KeyState) : KeyState × Effects :=
  if s.ctrlPressed ∧ sc = 0x2E then interrupt s
  else
    let c := ctrlChar (tableChar sc s) s
    wake (if c = 0 then s else keyPush c s)

/-- The end of the handler: the keys without the prefix. -/
def plainKey (sc : UInt8) (s : KeyState) : KeyState × Effects :=
  if sc = 0x0F then wake (keyPush keyTab s)
  else if 0x3B ≤ sc ∧ sc ≤ 0x44 then
    if s.ctrlPressed ∧ s.altPressed ∧ sc - 0x3B < 6 then
      (s, { terminal := some (sc - 0x3B).toNat })
    else wake (keyPush (keyF1 + (sc - 0x3B)) s)
  else if sc = 0x0E then wake (keyPush 0x08 s)
  else if sc = 0x1C then wake (keyPush 0x0A s)
  else if sc = 0x01 then wake (keyPush 0x1B s)
  else if sc.toNat < scancodeTable.length then tableKey sc s
  else wake s

/-- `keyboard_handler` on a byte of the controller. -/
def keyboardHandler (sc : UInt8) (s : KeyState) : KeyState × Effects :=
  if sc = 0xE0 then ({ s with extended := true }, {})
  else if sc = 0xAA ∨ sc = 0xB6 then ({ s with shiftPressed := false, extended := false }, {})
  else if sc = 0x9D then ({ s with ctrlPressed := false, extended := false }, {})
  else if sc = 0xB8 then ({ s with altPressed := false, extended := false }, {})
  else if sc &&& 0x80 ≠ 0 then ({ s with extended := false }, {})
  else if sc = 0x2A ∨ sc = 0x36 then ({ s with shiftPressed := true }, {})
  else if sc = 0x1D then ({ s with ctrlPressed := true }, {})
  else if sc = 0x38 then ({ s with altPressed := true }, {})
  else if sc = 0x3A then ({ s with capslockOn := !s.capslockOn }, {})
  else if s.extended then (extendedKey sc s, {})
  else plainKey sc s

example : scancodeTable.length = 58 ∧ scancodeShiftTable.length = 58 := by decide

/-- The keys that change a modifier when they are pressed. -/
def isModifier (sc : UInt8) : Bool :=
  sc = 0x2A || sc = 0x36 || sc = 0x1D || sc = 0x38 || sc = 0x3A

/-- The character of a byte that is neither prefix nor modifier nor release, behind
another byte than the prefix. -/
def plainChar (sc : UInt8) (s : KeyState) : Option UInt8 :=
  if sc = 0x0F then some keyTab
  else if 0x3B ≤ sc ∧ sc ≤ 0x44 then
    if s.ctrlPressed ∧ s.altPressed ∧ sc - 0x3B < 6 then none else some (keyF1 + (sc - 0x3B))
  else if sc = 0x0E then some 0x08
  else if sc = 0x1C then some 0x0A
  else if sc = 0x01 then some 0x1B
  else if s.ctrlPressed ∧ sc = 0x2E then none
  else if ctrlChar (tableChar sc s) s = 0 then none
  else some (ctrlChar (tableChar sc s) s)

/-- The character a byte decodes to, behind the prefix or not, under the modifiers. -/
def decode (s : KeyState) (prefixed : Bool) (sc : UInt8) : Option UInt8 :=
  if sc &&& 0x80 ≠ 0 ∨ isModifier sc then none
  else if prefixed then extendedChar sc
  else plainChar sc s

/-- The ring with what was decoded behind it. -/
def putChar (keys : Ring UInt8 keyBufferSize) : Option UInt8 → Ring UInt8 keyBufferSize
  | none => keys
  | some c => keys.push c

/-! ## A byte -/

section Handler
variable (sc : UInt8) (s : KeyState)

/-- The bytes of the first half that change no modifier. -/
def IsKey : Prop := sc &&& 0x80 = 0 ∧ isModifier sc = false

/-- A release. -/
theorem handler_release (hne : sc ≠ 0xE0) (hrelease : sc &&& 0x80 ≠ 0) :
    (keyboardHandler sc s).1.keys = s.keys ∧ (keyboardHandler sc s).1.extended = false := by
  unfold keyboardHandler
  rw [if_neg hne]
  by_cases hshift : sc = 0xAA ∨ sc = 0xB6
  · rw [if_pos hshift]
    exact ⟨rfl, rfl⟩
  rw [if_neg hshift]
  by_cases hctrl : sc = 0x9D
  · rw [if_pos hctrl]
    exact ⟨rfl, rfl⟩
  rw [if_neg hctrl]
  by_cases halt : sc = 0xB8
  · rw [if_pos halt]
    exact ⟨rfl, rfl⟩
  rw [if_neg halt, if_pos hrelease]
  exact ⟨rfl, rfl⟩

/-- The press of a modifier leaves the prefix flag as it is. -/
theorem handler_modifier (hmod : isModifier sc = true) :
    (keyboardHandler sc s).1.keys = s.keys ∧
      (keyboardHandler sc s).1.extended = s.extended := by
  simp only [isModifier, Bool.or_eq_true, decide_eq_true_eq] at hmod
  obtain (((rfl | rfl) | rfl) | rfl) | rfl := hmod
  · exact ⟨rfl, rfl⟩
  · exact ⟨rfl, rfl⟩
  · exact ⟨rfl, rfl⟩
  · exact ⟨rfl, rfl⟩
  · exact ⟨rfl, rfl⟩

theorem handler_key (hkey : IsKey sc) :
    keyboardHandler sc s = if s.extended then (extendedKey sc s, {}) else plainKey sc s := by
  obtain ⟨hlow, hmod⟩ := hkey
  have hne : ∀ b : UInt8, b &&& 0x80 ≠ 0 → sc ≠ b := by
    rintro b hb rfl
    exact hb hlow
  simp only [isModifier, Bool.or_eq_false_iff, decide_eq_false_iff_not] at hmod
  obtain ⟨⟨⟨⟨h2a, h36⟩, h1d⟩, h38⟩, h3a⟩ := hmod
  unfold keyboardHandler
  rw [if_neg (hne _ (by decide)), if_neg (not_or.mpr ⟨hne _ (by decide), hne _ (by decide)⟩),
    if_neg (hne _ (by decide)), if_neg (hne _ (by decide)), if_neg (not_not.mpr hlow),
    if_neg (not_or.mpr ⟨h2a, h36⟩), if_neg h1d, if_neg h38, if_neg h3a]

/-- A character, if there is one, goes into the ring, and then the waiter is woken. -/
structure Puts (s : KeyState) (c : Option UInt8) (after : KeyState × Effects) : Prop where
  keys : after.1.keys = putChar s.keys c
  extended : after.1.extended = s.extended
  woken : c ≠ none → after.2 = (wake s).2

theorem puts_push (c : UInt8) : Puts s (some c) (wake (keyPush c s)) := ⟨rfl, rfl, fun _ => rfl⟩

theorem puts_wake : Puts s none (wake s) := ⟨rfl, rfl, fun h => absurd rfl h⟩

theorem puts_terminal (n : Option Nat) : Puts s none (s, { terminal := n }) :=
  ⟨rfl, rfl, fun h => absurd rfl h⟩

theorem puts_interrupt : Puts s none (interrupt s) := by
  unfold interrupt
  split
  · exact ⟨rfl, rfl, fun h => absurd rfl h⟩
  · exact ⟨rfl, rfl, fun h => absurd rfl h⟩

/-- Behind the tables there are no characters. -/
theorem ctrlChar_tableChar_of_ge (h : ¬ sc.toNat < scancodeTable.length) :
    ctrlChar (tableChar sc s) s = 0 := by
  have hlen : scancodeShiftTable.length = scancodeTable.length := by decide
  have hzero : tableChar sc s = 0 := by
    have hentry : (if s.shiftPressed then scancodeShiftTable else scancodeTable).getD sc.toNat 0 =
        0 := by
      cases s.shiftPressed
      · exact List.getD_eq_default _ _ (Nat.not_lt.mp h)
      · exact List.getD_eq_default _ _ (hlen ▸ Nat.not_lt.mp h)
    unfold tableChar
    rw [hentry]
    cases s.capslockOn <;> rfl
  rw [hzero]
  unfold ctrlChar
  cases s.ctrlPressed <;> rfl

theorem tableKey_puts : Puts s
    (if s.ctrlPressed ∧ sc = 0x2E then none
      else if ctrlChar (tableChar sc s) s = 0 then none else some (ctrlChar (tableChar sc s) s))
    (tableKey sc s) := by
  unfold tableKey
  by_cases hint : s.ctrlPressed ∧ sc = 0x2E
  · rw [if_pos hint, if_pos hint]
    exact puts_interrupt s
  rw [if_neg hint, if_neg hint]
  by_cases hzero : ctrlChar (tableChar sc s) s = 0
  · simp only [if_pos hzero]
    exact puts_wake s
  · simp only [if_neg hzero]
    exact puts_push s _

theorem plainKey_puts : Puts s (plainChar sc s) (plainKey sc s) := by
  unfold plainKey plainChar
  by_cases htab : sc = 0x0F
  · rw [if_pos htab, if_pos htab]
    exact puts_push s _
  rw [if_neg htab, if_neg htab]
  by_cases hfun : 0x3B ≤ sc ∧ sc ≤ 0x44
  · rw [if_pos hfun, if_pos hfun]
    by_cases hvt : s.ctrlPressed ∧ s.altPressed ∧ sc - 0x3B < 6
    · rw [if_pos hvt, if_pos hvt]
      exact puts_terminal s _
    · rw [if_neg hvt, if_neg hvt]
      exact puts_push s _
  rw [if_neg hfun, if_neg hfun]
  by_cases hback : sc = 0x0E
  · rw [if_pos hback, if_pos hback]
    exact puts_push s _
  rw [if_neg hback, if_neg hback]
  by_cases henter : sc = 0x1C
  · rw [if_pos henter, if_pos henter]
    exact puts_push s _
  rw [if_neg henter, if_neg henter]
  by_cases hesc : sc = 0x01
  · rw [if_pos hesc, if_pos hesc]
    exact puts_push s _
  rw [if_neg hesc, if_neg hesc]
  by_cases htable : sc.toNat < scancodeTable.length
  · rw [if_pos htable]
    exact tableKey_puts sc s
  · have hc : ¬ (s.ctrlPressed ∧ sc = 0x2E) := by
      rintro ⟨-, rfl⟩
      exact htable (by decide)
    rw [if_neg htable, if_neg hc, if_pos (ctrlChar_tableChar_of_ge sc s htable)]
    exact puts_wake s

theorem extendedKey_keys :
    (extendedKey sc s).keys = putChar s.keys (extendedChar sc) ∧
      (extendedKey sc s).extended = false := by
  unfold extendedKey
  cases extendedChar sc with
  | none => exact ⟨rfl, rfl⟩
  | some c => exact ⟨rfl, rfl⟩

/-- A byte is the prefix, a release, the press of a modifier or a key. -/
theorem byte_cases : sc = 0xE0 ∨ (sc ≠ 0xE0 ∧ sc &&& 0x80 ≠ 0) ∨ isModifier sc = true ∨ IsKey sc := by
  by_cases hext : sc = 0xE0
  · exact Or.inl hext
  by_cases hlow : sc &&& 0x80 = 0
  · cases hmod : isModifier sc with
    | true => exact Or.inr (Or.inr (Or.inl rfl))
    | false => exact Or.inr (Or.inr (Or.inr ⟨hlow, hmod⟩))
  · exact Or.inr (Or.inl ⟨hext, hlow⟩)

theorem decode_key (hkey : IsKey sc) (ext : Bool) :
    decode s ext sc = if ext then extendedChar sc else plainChar sc s := by
  unfold decode
  rw [if_neg]
  rw [hkey.1, hkey.2]
  decide

theorem decode_eq_none (h : sc &&& 0x80 ≠ 0 ∨ isModifier sc) (ext : Bool) :
    decode s ext sc = none := if_pos h

/-- The ring behind a byte. -/
theorem handler_keys :
    (keyboardHandler sc s).1.keys = putChar s.keys (decode s s.extended sc) := by
  obtain rfl | ⟨hne, hrelease⟩ | hmod | hkey := byte_cases sc
  · rfl
  · rw [(handler_release sc s hne hrelease).1, decode_eq_none sc s (Or.inl hrelease)]
    rfl
  · rw [(handler_modifier sc s hmod).1, decode_eq_none sc s (Or.inr hmod)]
    rfl
  · rw [handler_key sc s hkey, decode_key sc s hkey]
    cases s.extended
    · exact (plainKey_puts sc s).keys
    · exact (extendedKey_keys sc s).1

/-- The prefix flag behind a byte. -/
theorem handler_extended :
    (keyboardHandler sc s).1.extended =
      (decide (sc = 0xE0) || (isModifier sc && s.extended)) := by
  obtain rfl | ⟨hne, hrelease⟩ | hmod | hkey := byte_cases sc
  · rfl
  · have hmod : isModifier sc = false := by
      revert hrelease
      revert sc
      decide +kernel
    rw [(handler_release sc s hne hrelease).2, decide_eq_false hne, hmod]
    rfl
  · have hne : sc ≠ 0xE0 := by
      rintro rfl
      cases hmod
    rw [(handler_modifier sc s hmod).2, decide_eq_false hne, hmod]
    rfl
  · have hne : sc ≠ 0xE0 := by
      rintro rfl
      exact absurd hkey.1 (by decide)
    rw [handler_key sc s hkey, decide_eq_false hne, hkey.2]
    cases hext : s.extended
    · exact (plainKey_puts sc s).extended.trans hext
    · exact (extendedKey_keys sc s).2

/-- Who is woken by a byte that decodes to a character. -/
theorem handler_unblocked {c : UInt8} (hc : decode s s.extended sc = some c) :
    (keyboardHandler sc s).2.unblocked =
      if s.extended then none else if 0 ≤ s.kwaiter then some s.kwaiter else none := by
  have hkey : IsKey sc := by
    unfold decode at hc
    split at hc
    · cases hc
    · next h =>
      obtain ⟨hlow, hmod⟩ := not_or.mp h
      exact ⟨not_not.mp hlow, Bool.eq_false_of_not_eq_true hmod⟩
  rw [decode_key sc s hkey] at hc
  rw [handler_key sc s hkey]
  cases hext : s.extended
  · rw [hext] at hc
    have hwoken := (plainKey_puts sc s).woken (by
      rw [show plainChar sc s = some c from hc]
      exact Option.some_ne_none c)
    exact congrArg Effects.unblocked hwoken
  · rfl

end Handler

/-- What is decoded is a character, and 0 is none. -/
theorem decode_ne_zero {s : KeyState} {ext : Bool} {sc c : UInt8}
    (hc : decode s ext sc = some c) : c ≠ 0 := by
  have hextended : ∀ b, extendedChar b ≠ some 0 := by decide +kernel
  have hfunction : ∀ b : UInt8, 0x3B ≤ b ∧ b ≤ 0x44 → keyF1 + (b - 0x3B) ≠ 0 := by
    decide +kernel
  have hplain : plainChar sc s ≠ some 0 := by
    unfold plainChar
    split_ifs with htab hfun hvt hback henter hesc hint hzero
    · decide
    · exact nofun
    · exact fun h => hfunction sc hfun (Option.some.inj h)
    · decide
    · decide
    · decide
    · exact nofun
    · exact nofun
    · exact fun h => hzero (Option.some.inj h)
  rintro rfl
  unfold decode at hc
  split_ifs at hc
  · exact hextended sc hc
  · exact hplain hc

/-! ## Runs -/

/-- The characters in the ring, oldest first. -/
def held (s : KeyState) : List UInt8 := s.keys.contents

/-- A byte of the controller, or a call of the driver. -/
inductive Op where
  | scancode (sc : UInt8)
  | getchar
  | setWaiter (tid : Int)
  | setFgPid (pid : Int)

/-- A run so far: the driver, the last byte, the characters that were decoded while
there was room for them, and those that `keyboard_getchar` has returned. A character
is decoded by the byte before its own and the modifiers. -/
structure Trace where
  state : KeyState
  last : Option UInt8
  accepted : List UInt8
  returned : List UInt8

/-- The byte is the one right behind the prefix. -/
def Trace.prefixed (t : Trace) : Bool := t.last = some 0xE0

/-- What a byte decodes to at this place of the run. -/
def Trace.decoded (t : Trace) (sc : UInt8) : Option UInt8 := decode t.state t.prefixed sc

def Trace.step (t : Trace) : Op → Trace
  | .scancode sc =>
      { state := (keyboardHandler sc t.state).1
        last := some sc
        accepted :=
          if (held t.state).length < 63 then t.accepted ++ (t.decoded sc).toList else t.accepted
        returned := t.returned }
  | .getchar =>
      { t with
        state := (keyboardGetchar t.state).2
        returned :=
          if (keyboardGetchar t.state).1 = 0 then t.returned
          else t.returned ++ [(keyboardGetchar t.state).1] }
  | .setWaiter tid => { t with state := keyboardSetWaiter tid t.state }
  | .setFgPid pid => { t with state := keyboardSetFgPid pid t.state }

/-- At boot. -/
def boot : Trace :=
  { state := ⟨⟨fun _ => 0, 0, 0⟩, false, false, false, false, false, -1, -1⟩
    last := none
    accepted := []
    returned := [] }

/-- A step that does what the driver is for. The flag says whether the last byte was the
prefix, the characters leave in the order they came in, none is dropped while less than
63 are held, 0 is returned only when there is none, and whoever waits when a character
is put in is woken. -/
structure Decodes (t : Trace) (op : Op) : Prop where
  prefixOnly : (t.step op).state.extended = (t.step op).prefixed
  fifo : (t.step op).accepted = (t.step op).returned ++ held (t.step op).state
  capacity : (held (t.step op).state).length ≤ 63
  answers : op = .getchar → (keyboardGetchar t.state).1 = 0 → held t.state = []
  wakes : ∀ sc, op = .scancode sc → (t.step op).accepted ≠ t.accepted → 0 ≤ t.state.kwaiter →
    (keyboardHandler sc t.state).2.unblocked = some t.state.kwaiter

/-- No modifier is pressed right behind the prefix, and no extended key puts its
character in while a task waits. -/
def Clear (t : Trace) : Op → Prop
  | .scancode sc => t.last = some 0xE0 →
      isModifier sc = false ∧
        (extendedChar sc ≠ none → (held t.state).length < 63 → t.state.kwaiter < 0)
  | _ => True

instance (t : Trace) : (op : Op) → Decidable (Clear t op)
  | .scancode sc => inferInstanceAs (Decidable (t.last = some 0xE0 →
      isModifier sc = false ∧
        (extendedChar sc ≠ none → (held t.state).length < 63 → t.state.kwaiter < 0)))
  | .getchar => isTrue trivial
  | .setWaiter _ => isTrue trivial
  | .setFgPid _ => isTrue trivial

/-- What holds between the steps of a clear run. -/
structure Sound (t : Trace) : Prop where
  flag : t.state.extended = t.prefixed
  fifo : t.accepted = t.returned ++ held t.state
  ne_zero : 0 ∉ held t.state

theorem held_length_le (s : KeyState) : (held s).length ≤ 63 := by
  rw [held, Ring.length_contents]
  exact Nat.le_of_lt_succ s.keys.count_lt

theorem full_iff_held (s : KeyState) : s.keys.Full ↔ ¬ (held s).length < 63 := by
  have hle := held_length_le s
  rw [held, Ring.length_contents] at *
  rw [Ring.full_iff]
  change _ + 1 = 64 ↔ _
  omega

/-- Putting a character in appends it while there is room. -/
theorem contents_putChar (s : KeyState) (c : Option UInt8) :
    (putChar s.keys c).contents =
      if (held s).length < 63 then held s ++ c.toList else held s := by
  cases c with
  | none => simp [putChar, held]
  | some c =>
      by_cases hroom : (held s).length < 63
      · have hfull : ¬ s.keys.Full := fun h => (full_iff_held s).mp h hroom
        rw [putChar, Ring.push, if_neg hfull, if_pos hroom]
        exact Ring.contents_write hfull c
      · rw [putChar, Ring.push, if_pos ((full_iff_held s).mpr hroom), if_neg hroom]
        rfl

/-- A character is read from the front. -/
theorem getchar_spec (s : KeyState) :
    ((keyboardGetchar s).1 = 0 ∧ held s = [] ∧ held (keyboardGetchar s).2 = []) ∨
      held s = (keyboardGetchar s).1 :: held (keyboardGetchar s).2 := by
  unfold keyboardGetchar
  cases hpoll : s.keys.poll with
  | none =>
      have hnil := Ring.contents_of_poll_none hpoll
      exact Or.inl ⟨rfl, hnil, hnil⟩
  | some found =>
      obtain ⟨c, keys⟩ := found
      exact Or.inr (Ring.contents_of_poll_some hpoll)

theorem held_handler {t : Trace} (ht : Sound t) (sc : UInt8) :
    held (keyboardHandler sc t.state).1 =
      if (held t.state).length < 63 then held t.state ++ (t.decoded sc).toList
      else held t.state := by
  rw [held, handler_keys, ht.flag, contents_putChar]
  rfl

theorem fifo_scancode {t : Trace} (ht : Sound t) (sc : UInt8) :
    (t.step (.scancode sc)).accepted =
      (t.step (.scancode sc)).returned ++ held (t.step (.scancode sc)).state := by
  change (if _ then _ else _) = t.returned ++ held (keyboardHandler sc t.state).1
  rw [held_handler ht]
  split
  · rw [ht.fifo, List.append_assoc]
  · exact ht.fifo

theorem fifo_getchar {t : Trace} (ht : Sound t) :
    (t.step .getchar).accepted = (t.step .getchar).returned ++ held (t.step .getchar).state := by
  change t.accepted = (if _ then _ else _) ++ held (keyboardGetchar t.state).2
  obtain ⟨hzero, hnil, hnil'⟩ | hcons := getchar_spec t.state
  · rw [if_pos hzero, hnil', ht.fifo, hnil]
  · have hne : (keyboardGetchar t.state).1 ≠ 0 := by
      intro h
      apply ht.ne_zero
      rw [hcons, h]
      exact List.mem_cons_self
    rw [if_neg hne, ht.fifo, hcons]
    simp

/-- No step breaks the order of the characters. -/
theorem fifo_step {t : Trace} (ht : Sound t) (op : Op) :
    (t.step op).accepted = (t.step op).returned ++ held (t.step op).state := by
  cases op with
  | scancode sc => exact fifo_scancode ht sc
  | getchar => exact fifo_getchar ht
  | setWaiter tid => exact ht.fifo
  | setFgPid pid => exact ht.fifo

theorem ne_zero_step {t : Trace} (ht : Sound t) (op : Op) : 0 ∉ held (t.step op).state := by
  cases op with
  | scancode sc =>
      change 0 ∉ held (keyboardHandler sc t.state).1
      rw [held_handler ht]
      split
      · intro hmem
        obtain hmem | hmem := List.mem_append.mp hmem
        · exact ht.ne_zero hmem
        · exact decode_ne_zero (Option.mem_toList.mp hmem) rfl
      · exact ht.ne_zero
  | getchar =>
      change 0 ∉ held (keyboardGetchar t.state).2
      obtain ⟨-, -, hnil⟩ | hcons := getchar_spec t.state
      · rw [hnil]
        exact List.not_mem_nil
      · intro hmem
        apply ht.ne_zero
        rw [hcons]
        exact List.mem_cons_of_mem _ hmem
  | setWaiter tid => exact ht.ne_zero
  | setFgPid pid => exact ht.ne_zero

theorem answers {t : Trace} (ht : Sound t) (h : (keyboardGetchar t.state).1 = 0) :
    held t.state = [] := by
  obtain ⟨-, hnil, -⟩ | hcons := getchar_spec t.state
  · exact hnil
  · refine absurd ?_ ht.ne_zero
    rw [hcons, h]
    exact List.mem_cons_self

/-- The prefix flag of the driver lives on behind a modifier only. -/
theorem flag_scancode {t : Trace} (ht : Sound t) (sc : UInt8) :
    (keyboardHandler sc t.state).1.extended = (t.step (.scancode sc)).prefixed ↔
      (t.last = some 0xE0 → isModifier sc = false) := by
  have hshown : (t.step (.scancode sc)).prefixed = decide (sc = 0xE0) :=
    decide_eq_decide.mpr Option.some_inj
  rw [handler_extended, hshown, ht.flag]
  by_cases hlast : t.last = some 0xE0
  · have hset : t.prefixed = true := decide_eq_true hlast
    rw [hset, Bool.and_true]
    by_cases hsc : sc = 0xE0
    · subst hsc
      exact ⟨fun _ _ => rfl, fun _ => rfl⟩
    · rw [decide_eq_false hsc, Bool.false_or]
      exact ⟨fun h _ => h, fun h => h hlast⟩
  · have hset : t.prefixed = false := decide_eq_false hlast
    rw [hset, Bool.and_false, Bool.or_false]
    exact ⟨fun _ h => absurd h hlast, fun _ => rfl⟩

theorem getchar_extended (s : KeyState) : (keyboardGetchar s).2.extended = s.extended := by
  unfold keyboardGetchar
  split <;> rfl

theorem accepted_ne_iff (t : Trace) (sc : UInt8) :
    (t.step (.scancode sc)).accepted ≠ t.accepted ↔
      (held t.state).length < 63 ∧ t.decoded sc ≠ none := by
  change (if _ then _ else _) ≠ t.accepted ↔ _
  by_cases hroom : (held t.state).length < 63
  · cases t.decoded sc <;> simp [hroom]
  · simp [hroom]

/-- Behind the prefix a byte that is no modifier decodes as an extended key. -/
theorem decoded_prefixed {t : Trace} {sc : UInt8} (hlast : t.last = some 0xE0)
    (hmod : isModifier sc = false) : t.decoded sc = extendedChar sc := by
  have hrelease : ∀ b : UInt8, b &&& 0x80 ≠ 0 → extendedChar b = none := by decide +kernel
  have hset : t.prefixed = true := decide_eq_true hlast
  unfold Trace.decoded
  rw [hset]
  by_cases hlow : sc &&& 0x80 = 0
  · rw [decode_key sc t.state ⟨hlow, hmod⟩]
    rfl
  · rw [decode_eq_none sc t.state (Or.inl hlow), hrelease sc hlow]

/-- The waiter is woken by every character but those of the extended keys. -/
theorem wakes_scancode {t : Trace} (ht : Sound t) (sc : UInt8)
    (hmod : t.last = some 0xE0 → isModifier sc = false) :
    ((t.step (.scancode sc)).accepted ≠ t.accepted → 0 ≤ t.state.kwaiter →
        (keyboardHandler sc t.state).2.unblocked = some t.state.kwaiter) ↔
      (t.last = some 0xE0 → extendedChar sc ≠ none → (held t.state).length < 63 →
        t.state.kwaiter < 0) := by
  have hwoken : ∀ c, t.decoded sc = some c → 0 ≤ t.state.kwaiter →
      (keyboardHandler sc t.state).2.unblocked =
        if t.last = some 0xE0 then none else some t.state.kwaiter := by
    intro c hc hwaiter
    unfold Trace.decoded at hc
    rw [← ht.flag] at hc
    rw [handler_unblocked sc t.state hc, ht.flag, if_pos hwaiter]
    simp [Trace.prefixed]
  rw [accepted_ne_iff]
  constructor
  · intro h hlast hchar hroom
    rw [← decoded_prefixed hlast (hmod hlast)] at hchar
    obtain ⟨c, hc⟩ := Option.ne_none_iff_exists'.mp hchar
    by_contra hwaiter
    have hwaiter := not_lt.mp hwaiter
    have hsome := h ⟨hroom, hchar⟩ hwaiter
    rw [hwoken c hc hwaiter, if_pos hlast] at hsome
    cases hsome
  · rintro h ⟨hroom, hchar⟩ hwaiter
    obtain ⟨c, hc⟩ := Option.ne_none_iff_exists'.mp hchar
    rw [hwoken c hc hwaiter, if_neg]
    intro hlast
    rw [decoded_prefixed hlast (hmod hlast)] at hchar
    exact absurd (h hlast hchar hroom) (not_lt.mpr hwaiter)

/-- A step of a sound run does its work exactly when it is clear. -/
theorem decodes_iff_clear {t : Trace} (ht : Sound t) (op : Op) : Decodes t op ↔ Clear t op := by
  cases op with
  | scancode sc =>
      constructor
      · intro h
        have hmod := (flag_scancode ht sc).mp h.prefixOnly
        intro hlast
        exact ⟨hmod hlast, (wakes_scancode ht sc hmod).mp (h.wakes sc rfl) hlast⟩
      · intro h
        have hmod := fun hlast => (h hlast).1
        refine ⟨(flag_scancode ht sc).mpr hmod, fifo_scancode ht sc, held_length_le _, nofun, ?_⟩
        rintro _ ⟨rfl⟩
        exact (wakes_scancode ht sc hmod).mpr fun hlast => (h hlast).2
  | getchar =>
      refine ⟨fun _ => trivial, fun _ => ⟨?_, fifo_getchar ht, held_length_le _,
        fun _ => answers ht, nofun⟩⟩
      exact (getchar_extended t.state).trans ht.flag
  | setWaiter tid =>
      exact ⟨fun _ => trivial, fun _ => ⟨ht.flag, ht.fifo, held_length_le _, nofun, nofun⟩⟩
  | setFgPid pid =>
      exact ⟨fun _ => trivial, fun _ => ⟨ht.flag, ht.fifo, held_length_le _, nofun, nofun⟩⟩

theorem sound_step {t : Trace} (ht : Sound t) (op : Op) (hclear : Clear t op) :
    Sound (t.step op) :=
  ⟨((decodes_iff_clear ht op).mpr hclear).prefixOnly, fifo_step ht op, ne_zero_step ht op⟩

theorem boot_sound : Sound boot := ⟨rfl, rfl, by decide⟩

/-- A run of the driver does its work at every step exactly when every step is clear. -/
theorem run_decodes_iff (ops : List Op) :
    Guarded Decodes Trace.step boot ops ↔ Guarded Clear Trace.step boot ops :=
  guarded_congr (P := Sound) (fun _ op ht => decodes_iff_clear ht op)
    (fun _ op ht => sound_step ht op) boot_sound ops

/-- Behind the right control key a letter is taken for an extended key, and a reader
sleeps on while an arrow key is in the ring. -/
theorem extended_misread :
    ¬ Guarded Decodes Trace.step boot [.scancode 0xE0, .scancode 0x1D, .scancode 0x1E] ∧
      ¬ Guarded Decodes Trace.step boot [.setWaiter 7, .scancode 0xE0, .scancode 0x48] := by
  constructor
  · rintro ⟨-, h, -⟩
    exact absurd h.prefixOnly (by decide)
  · rintro ⟨-, -, h, -⟩
    exact absurd (h.wakes _ rfl (by decide) (by decide)) (by decide)

end OriaOS.Ipc.Keyboard
