import OriaOS.Shell.Arith

/-!
# Variables, aliases and braces

The passes `shell_expand_vars`, the alias expansion of `shell_execute` and `shell_expand_brace`,
with the buffers they write. Each has a meaning without buffers, and on a line of at most 255
bytes it computes that and stores nothing outside.
-/

namespace OriaOS.Shell.Passes

open OriaOS.Lib OriaOS.Lib.Faulting OriaOS.Shell.Vars OriaOS.Shell.Arith

variable {line rest tmp : Text}

/-! ## The code -/

/-- `itoa` into a buffer of a size. -/
def itoaInto (size n : Nat) : Faulting Text :=
  if (itoa n).length < size then pure (itoa n) else .error .outside

/-- The sign of `$?`. -/
def putMinus (tmp : Text) (code : Int) : Faulting Text :=
  if code < 0 ∧ tmp.length < 253 then push 256 tmp 0x2D else pure tmp

/-- The loop of `shell_expand_vars`. Each turn reads at least one byte. -/
def varsLoop (s : ShellVars) : Nat → Text → Text → Faulting Text
  | 0, _, _ => .error .fuel
  | _ + 1, [], tmp => pure tmp
  | fuel + 1, c :: rest, tmp =>
      if 254 ≤ tmp.length then pure tmp
      else if c = 0x24 then
        if rest.head? = some 0x3F then do
          let ecbuf ← itoaInto 8 s.lastExitCode.natAbs
          let tmp ← putMinus tmp s.lastExitCode
          let tmp ← append 256 254 tmp ecbuf
          varsLoop s fuel rest.tail tmp
        else if rest.head? = some 0x24 then do
          let pidbuf ← itoaInto 8 s.current
          let tmp ← append 256 254 tmp pidbuf
          varsLoop s fuel rest.tail tmp
        else do
          let r ← fill 24 23 isWord [] rest
          let vname ← close 24 r.1
          let tmp ← append 256 254 tmp (scGetvar s.env vname)
          varsLoop s fuel r.2 tmp
      else do
        let tmp ← push 256 tmp c
        varsLoop s fuel rest tmp

/-- `shell_expand_vars` up to its copy. -/
def shellExpandVars (s : ShellVars) (line : Text) : Faulting Text := do
  let tmp ← varsLoop s (line.length + 1) line []
  close 256 tmp

/-- `alias_names` and `alias_vals`, up to `alias_count`. -/
abbrev Aliases := List (Text × Text)

/-- The alias expansion up to its copy: the new line, when the first word is an alias. -/
def expandAlias (aliases : Aliases) (line : Text) : Faulting (Option Text) := do
  let r ← fill 32 31 (fun c => c ≠ 0x20) [] line
  let first ← close 32 r.1
  match aliases.find? fun a => a.1 = first with
  | none => pure none
  | some a => do
      let rest ← store 256 [] r.2
      let rest ← close 256 rest
      let newbuf ← append 256 254 [] a.2
      let newbuf ← append 256 254 newbuf rest
      let newbuf ← close 256 newbuf
      pure (some newbuf)

/-- A comma or a closing brace. -/
def isSeparator (c : UInt8) : Bool := c = 0x2C || c = 0x7D

/-- The space in front of each item but the first. -/
def putSpace (first : Bool) (result : Text) : Faulting Text :=
  if first then pure result else append 512 510 result [0x20]

/-- The loop over the items. An item of more than 62 bytes is taken for several. -/
def itemLoop (wordPre wordSuf : Text) : Nat → Bool → Text → Text → Faulting Text
  | 0, _, _, _ => .error .fuel
  | fuel + 1, first, tok, result => do
      let r ← fill 64 62 (fun c => !isSeparator c) [] tok
      let item ← close 64 r.1
      let result ← putSpace first result
      let result ← append 512 510 result wordPre
      let result ← append 512 510 result item
      let result ← append 512 510 result wordSuf
      if r.2.head? = some 0x7D ∨ r.2 = [] then pure result
      else itemLoop wordPre wordSuf fuel false (skip 0x2C r.2) result

/-- Where the last word begins. -/
def wordStart (result : Text) : Nat := (result.reverse.dropWhile fun c => c ≠ 0x20).length

/-- The line up to the first opening brace, what is behind it, and what is behind the next closing
one: when there are both braces and a comma between them. -/
def findBrace (line : Text) : Option (Text × Text × Text) :=
  let q := line.takeWhile fun c => c ≠ 0x7B
  let scan := (line.drop q.length).tail
  let inside := scan.takeWhile fun c => c ≠ 0x7D
  if q.length < line.length ∧ inside.length < scan.length ∧ 0x2C ∈ inside then
    some (q, scan, scan.drop (inside.length + 1))
  else none

/-- `shell_expand_brace` up to its copy. -/
def shellExpandBrace (line : Text) : Faulting (Option Text) :=
  match findBrace line with
  | none => pure none
  | some (q, scan, behind) => do
      let result ← append 512 510 [] q
      let wpStart := wordStart result
      let wordPre ← append 128 126 [] (result.drop wpStart)
      let wordPre ← close 128 wordPre
      let r ← fill 64 62 (fun c => c ≠ 0x20) [] behind
      let wordSuf ← close 64 r.1
      let tail ← append 256 254 [] r.2
      let tail ← close 256 tail
      let result ← itemLoop wordPre wordSuf (scan.length + 1) true scan (result.take wpStart)
      let result ← append 512 510 result tail
      let result ← close 512 result
      pure (some result)

/-! ## The meaning -/

/-- The first word of a line, as far as an alias name goes. -/
def firstWord (line : Text) : Text := (line.takeWhile fun c => c ≠ 0x20).take 31

/-- The value of an alias in the place of the first word. -/
def aliased (aliases : Aliases) (line : Text) : Option Text :=
  (aliases.find? fun a => a.1 = firstWord line).map fun a =>
    (a.2 ++ line.drop (firstWord line).length).take 254

/-- The items of a brace. -/
def items : Nat → Text → List Text
  | 0, _ => []
  | fuel + 1, tok =>
      let item := (tok.takeWhile fun c => !isSeparator c).take 62
      let rest := tok.drop item.length
      if rest.head? = some 0x7D ∨ rest = [] then [item]
      else item :: items fuel (skip 0x2C rest)

/-- Words with a space in front of each of them, or of each but the first. -/
def spaced : Bool → List Text → Text
  | _, [] => []
  | first, word :: words => (if first then [] else [0x20]) ++ word ++ spaced false words

/-- The word around a brace, once for each item. -/
def braced (line : Text) : Option Text :=
  (findBrace line).map fun (q, scan, behind) =>
    let wordPre := (q.drop (wordStart q)).take 126
    let wordSuf := (behind.takeWhile fun c => c ≠ 0x20).take 62
    let words := (items (scan.length + 1) scan).map fun item => wordPre ++ item ++ wordSuf
    (q.take (wordStart q) ++ spaced true words ++ behind.drop wordSuf.length).take 510

/-! ## Variables -/

theorem putTmp_eq (tmp bytes : Text) :
    putTmp tmp bytes = tmp ++ bytes.take (254 - tmp.length) := by
  have hself : tmp.take (max tmp.length 254) = tmp := List.take_of_length_le (Nat.le_max_left _ _)
  have hrest : max tmp.length 254 - tmp.length = 254 - tmp.length := by omega
  rw [putTmp, List.take_append, hself, hrest]

theorem append_putTmp (tmp bytes : Text) : append 256 254 tmp bytes = pure (putTmp tmp bytes) := by
  rw [append_eq (by decide), putTmp_eq]

theorem itoaInto_of_lt {size n : Nat} (h : (itoa n).length < size) :
    itoaInto size n = pure (itoa n) := if_pos h

/-- `expandLoop` without its buffer. -/
theorem putMinus_eq (tmp : Text) (code : Int) :
    putMinus tmp code = pure (if code < 0 ∧ tmp.length < 253 then tmp ++ [0x2D] else tmp) := by
  unfold putMinus
  split
  · rename_i h
    exact push_of_lt (by omega) _
  · rfl

theorem putTmp_le (h : tmp.length ≤ 254) (bytes : Text) : (putTmp tmp bytes).length ≤ 254 := by
  rw [putTmp, List.length_take]
  omega

theorem putExitCode_le (h : tmp.length ≤ 254) (code : Int) :
    (putExitCode tmp code).length ≤ 254 := by
  refine putTmp_le ?_ _
  split
  · rw [List.length_append, List.length_singleton]
    omega
  · exact h

theorem expandLoop_le (s : ShellVars) (fuel : Nat) (h : tmp.length ≤ 254) :
    (expandLoop s fuel rest tmp).length ≤ 254 := by
  induction fuel generalizing rest tmp with
  | zero => exact h
  | succ fuel ih =>
      cases rest with
      | nil => exact h
      | cons c rest =>
          unfold expandLoop
          split_ifs with hfull
          · exact h
          · exact ih (putExitCode_le h _)
          · exact ih (putTmp_le h _)
          · exact ih (putTmp_le h _)
          · refine ih ?_
            rw [List.length_append, List.length_singleton]
            omega

/-- The names of the numbers of a pass fit their buffers. -/
structure SmallNumbers (s : ShellVars) : Prop where
  code : (itoa s.lastExitCode.natAbs).length < 8
  current : (itoa s.current).length < 8

theorem varsLoop_eq {s : ShellVars} (hs : SmallNumbers s) {fuel : Nat}
    (hfuel : rest.length ≤ fuel) (htmp : tmp.length ≤ 254) :
    varsLoop s (fuel + 1) rest tmp = pure (expandLoop s fuel rest tmp) := by
  induction fuel generalizing rest tmp with
  | zero =>
      rw [List.length_eq_zero_iff.mp (Nat.le_zero.mp hfuel)]
      rfl
  | succ fuel ih =>
      cases rest with
      | nil => rfl
      | cons c rest =>
          rw [List.length_cons] at hfuel
          have htail : rest.tail.length ≤ fuel := by
            rw [List.length_tail]
            omega
          unfold varsLoop expandLoop
          split_ifs with hfull hdollar hcode hpid
          · rfl
          · rw [itoaInto_of_lt hs.code, pure_bind, putMinus_eq, pure_bind, append_putTmp, pure_bind]
            exact ih htail (putExitCode_le htmp _)
          · rw [itoaInto_of_lt hs.current, pure_bind, append_putTmp, pure_bind]
            exact ih htail (putTmp_le htmp _)
          · rw [fill_nil (by decide), pure_bind, close_take (by decide), pure_bind, append_putTmp,
              pure_bind]
            refine ih ?_ (putTmp_le htmp _)
            rw [List.length_drop]
            omega
          · rw [push_of_lt (by omega), pure_bind]
            refine ih (by omega) ?_
            rw [List.length_append, List.length_singleton]
            omega

/-- `shell_expand_vars` stores nothing outside `tmp`. -/
theorem shellExpandVars_eq {s : ShellVars} (hs : SmallNumbers s) (line : Text) :
    shellExpandVars s line = pure (Vars.shellExpandVars s line) := by
  have hlen : (expandLoop s line.length line []).length ≤ 254 :=
    expandLoop_le s line.length (Nat.zero_le _)
  rw [shellExpandVars, varsLoop_eq hs le_rfl (Nat.zero_le _), pure_bind,
    close_of_lt (Nat.lt_of_le_of_lt hlen (by decide))]
  rfl

/-! ## Aliases -/

theorem expandAlias_eq (aliases : Aliases) (hline : line.length ≤ 255) :
    expandAlias aliases line = pure (aliased aliases line) := by
  have hrest : (line.drop (firstWord line).length).length ≤ 255 := by
    rw [List.length_drop]
    omega
  have hword : ((line.takeWhile fun c => decide (c ≠ 0x20)).take 31) = firstWord line := rfl
  unfold expandAlias aliased
  rw [fill_nil (by decide), pure_bind, close_take (by decide), pure_bind, hword]
  cases aliases.find? fun a => a.1 = firstWord line with
  | none => rfl
  | some a =>
      dsimp only
      rw [store_of_le (by rw [List.length_nil]; omega), pure_bind, List.nil_append,
        close_of_lt (by omega), pure_bind, append_nil (by decide), pure_bind,
        append_take (by decide), pure_bind, close_take (by decide), pure_bind]
      rfl

/-! ## Braces -/

/-- A turn of the loop over the items reads at least one byte. -/
theorem item_shorter {tok : Text}
    (hrest : rest = tok.drop ((tok.takeWhile fun c => !isSeparator c).take 62).length)
    (h : ¬(rest.head? = some 0x7D ∨ rest = [])) : (skip 0x2C rest).length < tok.length := by
  obtain ⟨hclose, hne⟩ := not_or.mp h
  cases tok with
  | nil => exact absurd (hrest.trans List.drop_nil) hne
  | cons c tok =>
      by_cases hc : isSeparator c
      · have hitem : ((c :: tok).takeWhile fun c => !isSeparator c) = [] :=
          List.takeWhile_cons_of_neg (by rw [hc]; exact Bool.false_ne_true)
        rw [hitem, List.take_nil, List.length_nil, List.drop_zero] at hrest
        have hcomma : c = 0x2C := by
          obtain hcomma | hbrace := (Bool.or_eq_true _ _).mp hc
          · exact of_decide_eq_true hcomma
          · rw [hrest, of_decide_eq_true hbrace] at hclose
            exact absurd rfl hclose
        rw [hrest, hcomma]
        exact Nat.lt_succ_self _
      · have hopen : (!isSeparator c) = true := by
          rw [eq_false_of_ne_true hc]
          rfl
        have hitem : 1 ≤ (((c :: tok).takeWhile fun c => !isSeparator c).take 62).length := by
          rw [List.takeWhile_cons_of_pos (p := fun c => !isSeparator c) hopen, List.take_succ_cons,
            List.length_cons]
          omega
        have hskip := skip_le 0x2C rest
        have hlen := congrArg List.length hrest
        rw [List.length_drop] at hlen
        rw [List.length_cons] at hlen ⊢
        omega

theorem putSpace_take (first : Bool) (result : Text) :
    putSpace first (result.take 510) =
      pure ((result ++ if first then [] else [0x20]).take 510) := by
  unfold putSpace
  cases first with
  | true => rw [if_pos rfl, if_pos rfl, List.append_nil]
  | false => rw [if_neg Bool.false_ne_true, if_neg Bool.false_ne_true, append_take (by decide)]

theorem itemLoop_eq (wordPre wordSuf : Text) {fuel : Nat} (first : Bool) {tok : Text}
    (hfuel : tok.length < fuel) (result : Text) :
    itemLoop wordPre wordSuf fuel first tok (result.take 510) =
      pure ((result ++ spaced first ((items fuel tok).map fun item =>
        wordPre ++ item ++ wordSuf)).take 510) := by
  induction fuel generalizing first tok result with
  | zero => cases hfuel
  | succ fuel ih =>
      unfold itemLoop items
      rw [fill_nil (by decide), pure_bind, close_take (by decide), pure_bind, putSpace_take,
        pure_bind, append_take (by decide), pure_bind, append_take (by decide), pure_bind,
        append_take (by decide), pure_bind]
      dsimp only
      split
      · simp [spaced]
      · rename_i hmore
        have hshort := item_shorter rfl hmore
        rw [ih false (by omega)]
        simp [spaced]

theorem findBrace_le {q scan behind : Text} (h : findBrace line = some (q, scan, behind)) :
    q.length < line.length ∧ behind.length < line.length := by
  unfold findBrace at h
  dsimp only at h
  split at h
  · rename_i hfound
    obtain ⟨rfl, rfl, rfl⟩ := h
    refine ⟨hfound.1, ?_⟩
    rw [List.length_drop, List.length_tail, List.length_drop]
    omega
  · cases h

/-- `shell_expand_brace` stores nothing outside its buffers. -/
theorem shellExpandBrace_eq (hline : line.length ≤ 255) :
    shellExpandBrace line = pure (braced line) := by
  unfold shellExpandBrace braced
  cases hfind : findBrace line with
  | none => rfl
  | some r =>
      obtain ⟨q, scan, behind⟩ := r
      obtain ⟨hq, hbehind⟩ := findBrace_le hfind
      have hcut : q.take 510 = q := List.take_of_length_le (by omega)
      have hcmd : q.take (wordStart q) = (q.take (wordStart q)).take 510 :=
        (List.take_of_length_le (by rw [List.length_take]; omega)).symm
      have htail : ∀ k, (behind.drop k).take 254 = behind.drop k := by
        intro k
        rw [List.take_of_length_le (by rw [List.length_drop]; omega)]
      dsimp only
      rw [append_nil (by decide), pure_bind, hcut, append_nil (by decide), pure_bind,
        close_take (by decide), pure_bind, fill_nil (by decide), pure_bind, close_take (by decide),
        pure_bind, append_nil (by decide), pure_bind, close_take (by decide), pure_bind, hcmd,
        itemLoop_eq _ _ true (Nat.lt_succ_self _), pure_bind, append_take (by decide), pure_bind,
        close_take (by decide), pure_bind]
      dsimp only
      rw [htail]
      rfl

end OriaOS.Shell.Passes
