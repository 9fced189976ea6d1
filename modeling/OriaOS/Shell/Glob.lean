import OriaOS.Fs.Table
import OriaOS.Shell.Passes

/-!
# File name patterns

`shell_glob_expand` replaces each argument with a `*` or a `?` in it by the names of the files
that match, in the order of the file table. The names come from `fs_list_buf`.
-/

namespace OriaOS.Shell.Glob

open OriaOS.Fs OriaOS.Lib OriaOS.Lib.Faulting OriaOS.Shell.Vars OriaOS.Shell.Arith

variable {bp pat str : Text} {c : UInt8}

/-! ## The code -/

/-- `glob_match`. -/
def globMatch : Text → Text → Bool
  | pat, [] => pat.all fun c => c = 0x2A
  | [], _ :: _ => false
  | p :: pat, c :: str =>
      if p = 0x2A then pat.isEmpty || (c :: str).tails.dropLast.any fun s => globMatch pat s
      else if p = 0x3F then globMatch pat str
      else p = c && globMatch pat str

/-- The names of the files, in the order of the table. -/
def usedNames (files : Slot → FSFile) : List Text :=
  ((List.finRange maxFiles).filter fun i => (files i).used ≠ 0).map fun i => (files i).nameStr.bytes

/-- `if (pos < bufsz - 1) buf[pos++] = '\n'`. -/
def putNewline (size bufsz : Nat) (buf : Text) : Faulting Text :=
  if buf.length < bufsz - 1 then push size buf 0x0A else pure buf

/-- The loop of `fs_list_buf`, on a buffer of a size that it is told is `bufsz`. -/
def listLoop (size bufsz : Nat) : List Text → Text → Faulting Text
  | [], buf => if buf.length < bufsz then close size buf else pure buf
  | nm :: names, buf => do
      let buf ← append size (bufsz - 2) buf nm
      let buf ← putNewline size bufsz buf
      listLoop size bufsz names buf

/-- `fs_list_buf`. The number of the names is its result. -/
def fsListBuf (size bufsz : Nat) (files : Slot → FSFile) : Faulting Text :=
  listLoop size bufsz (usedNames files) []

/-- A `*` or a `?`. -/
def isGlob (c : UInt8) : Bool := c = 0x2A || c = 0x3F

/-- A space and a word behind `glob_out`. -/
def putWord (out word : Text) : Faulting Text := do
  let out ← append 512 509 out [0x20]
  append 512 509 out word

/-- The loop over the files, for a token: the number of the files that match, and `glob_out`. -/
def matchLoop (tok : Text) : Nat → Text → Nat → Text → Faulting (Nat × Text)
  | 0, _, matched, out => pure (matched, out)
  | files + 1, fp, matched, out => do
      let r ← fill 128 127 (fun c => c ≠ 0x0A) [] fp
      let fname ← close 128 r.1
      if globMatch tok fname then do
        let out ← putWord out fname
        matchLoop tok files (skip 0x0A r.2) (matched + 1) out
      else matchLoop tok files (skip 0x0A r.2) matched out

/-- What a token becomes. -/
def putToken (flist : Text) (fc : Nat) (tok out : Text) : Faulting Text :=
  if tok.any isGlob then do
    let m ← matchLoop tok fc flist 0 out
    if m.1 = 0 then putWord m.2 tok else pure m.2
  else putWord out tok

/-- The loop over the tokens. Each turn reads at least one byte. -/
def globLoop (flist : Text) (fc : Nat) : Nat → Text → Text → Faulting Text
  | 0, _, _ => .error .fuel
  | fuel + 1, bp, out =>
      if dropSpaces bp = [] then pure out
      else do
        let r ← fill 128 127 (fun c => c ≠ 0x20) [] (dropSpaces bp)
        let tok ← close 128 r.1
        let out ← putToken flist fc tok out
        globLoop flist fc fuel r.2 out

/-- `shell_glob_expand` up to its copy. The first two loops on `glob_out` are undone by the
third. -/
def shellGlobExpand (files : Slot → FSFile) (line : Text) : Faulting (Option Text) :=
  if (line.dropWhile fun c => c ≠ 0x20).any isGlob then do
    let flist ← fsListBuf 4096 4095 files
    let fc := (usedNames files).length
    if fc = 0 then pure none
    else do
      let r ← fill 512 510 (fun c => c ≠ 0x20) [] line
      let _ ← fill 512 510 (fun c => c = 0x20) r.1 r.2
      let r ← fill 512 510 (fun c => c ≠ 0x20) [] line
      let out ← globLoop flist fc (line.length + 1) r.2 r.1
      let out ← close 512 out
      pure (some out)
  else pure none

/-! ## The meaning -/

/-- The list of the names, as far as there is room. -/
def listed (bufsz : Nat) : List Text → Text → Text
  | [], buf => buf
  | nm :: names, buf =>
      let buf := buf ++ nm.take (bufsz - 2 - buf.length)
      listed bufsz names (if buf.length < bufsz - 1 then buf ++ [0x0A] else buf)

/-- The names in a list. -/
def fileNames : Nat → Text → List Text
  | 0, _ => []
  | files + 1, fp =>
      let fname := (fp.takeWhile fun c => c ≠ 0x0A).take 127
      fname :: fileNames files (skip 0x0A (fp.drop fname.length))

/-- The arguments of a line. -/
def tokens : Nat → Text → List Text
  | 0, _ => []
  | fuel + 1, bp =>
      if dropSpaces bp = [] then []
      else
        let tok := ((dropSpaces bp).takeWhile fun c => c ≠ 0x20).take 127
        tok :: tokens fuel ((dropSpaces bp).drop tok.length)

/-- The words in the place of a token. -/
def expandToken (names : List Text) (tok : Text) : List Text :=
  if tok.any isGlob then
    if names.filter (globMatch tok) = [] then [tok] else names.filter (globMatch tok)
  else [tok]

/-- Words with a space in front of each. -/
def spacedWords (words : List Text) : Text := words.flatMap fun word => 0x20 :: word

/-- The line with the patterns in its arguments replaced. -/
def globbed (files : Slot → FSFile) (line : Text) : Option Text :=
  if (line.dropWhile fun c => c ≠ 0x20).any isGlob ∧ usedNames files ≠ [] then
    let names := fileNames (usedNames files).length (listed 4095 (usedNames files) [])
    let cmd := line.takeWhile fun c => c ≠ 0x20
    let words := (tokens (line.length + 1) (line.drop cmd.length)).flatMap (expandToken names)
    some ((cmd ++ spacedWords words).take 509)
  else none

/-! ## The list of the names -/

theorem listLoop_eq {size bufsz : Nat} (h : bufsz ≤ size) (names : List Text) (buf : Text) :
    listLoop size bufsz names buf = pure (listed bufsz names buf) := by
  induction names generalizing buf with
  | nil =>
      unfold listLoop listed
      split
      · exact close_of_lt (by omega)
      · rfl
  | cons nm names ih =>
      unfold listLoop listed
      rw [append_eq (by omega), pure_bind]
      unfold putNewline
      dsimp only
      split
      · rw [push_of_lt (by omega), pure_bind, ih]
      · rw [pure_bind, ih]

theorem putWord_take (out word : Text) :
    putWord (out.take 509) word = pure ((out ++ 0x20 :: word).take 509) := by
  rw [putWord, append_take (by decide), pure_bind, append_take (by decide), List.append_assoc,
    List.singleton_append]

theorem matchLoop_eq (tok : Text) (files : Nat) (fp : Text) (matched : Nat) (out : Text) :
    matchLoop tok files fp matched (out.take 509) =
      pure (matched + ((fileNames files fp).filter (globMatch tok)).length,
        (out ++ spacedWords ((fileNames files fp).filter (globMatch tok))).take 509) := by
  induction files generalizing fp matched out with
  | zero =>
      unfold matchLoop fileNames spacedWords
      simp
  | succ files ih =>
      unfold matchLoop fileNames
      rw [fill_nil (by decide), pure_bind, close_take (by decide), pure_bind]
      dsimp only
      split
      · rename_i hmatch
        rw [putWord_take, pure_bind, ih, List.filter_cons_of_pos hmatch, List.length_cons,
          spacedWords, spacedWords, List.flatMap_cons, List.append_assoc, Nat.add_right_comm]
        rfl
      · rename_i hmatch
        rw [ih, List.filter_cons_of_neg hmatch]

/-- A token is replaced by its words. -/
theorem putToken_eq (flist : Text) (fc : Nat) (tok out : Text) :
    putToken flist fc tok (out.take 509) =
      pure ((out ++ spacedWords (expandToken (fileNames fc flist) tok)).take 509) := by
  unfold putToken expandToken
  split
  · rw [matchLoop_eq, pure_bind, Nat.zero_add]
    dsimp only
    by_cases hnone : (fileNames fc flist).filter (globMatch tok) = []
    · rw [if_pos (by rw [hnone, List.length_nil]), if_pos hnone, hnone]
      rw [show spacedWords [] = [] from rfl, List.append_nil, putWord_take]
      simp [spacedWords]
    · rw [if_neg (fun h => hnone (List.length_eq_zero_iff.mp h)), if_neg hnone]
  · rw [putWord_take]
    simp [spacedWords]

/-! ## The pass -/

theorem spacedWords_append (words more : List Text) :
    spacedWords (words ++ more) = spacedWords words ++ spacedWords more := List.flatMap_append

/-- A token that is not cut to nothing is read. -/
theorem token_shorter (h : bp ≠ []) (hspace : ∀ c, bp.head? = some c → c ≠ 0x20) :
    (bp.drop ((bp.takeWhile fun c => c ≠ 0x20).take 127).length).length < bp.length := by
  cases bp with
  | nil => exact absurd rfl h
  | cons c bp =>
      have hc : decide (c ≠ 0x20) = true := decide_eq_true (hspace c rfl)
      have htok : 1 ≤ (((c :: bp).takeWhile fun c => c ≠ 0x20).take 127).length := by
        rw [List.takeWhile_cons_of_pos (p := fun c => decide (c ≠ 0x20)) hc, List.take_succ_cons,
          List.length_cons]
        omega
      rw [List.length_drop, List.length_cons]
      omega

theorem head_dropSpaces (h : (dropSpaces bp).head? = some c) : c ≠ 0x20 := by
  have hnot := List.head?_dropWhile_not (fun c : UInt8 => decide (c = 0x20)) bp
  unfold dropSpaces at h
  rw [h] at hnot
  exact of_decide_eq_false hnot

theorem globLoop_eq (flist : Text) (fc : Nat) {fuel : Nat} (hfuel : bp.length < fuel) (out : Text) :
    globLoop flist fc fuel bp (out.take 509) =
      pure ((out ++ spacedWords ((tokens fuel bp).flatMap
        (expandToken (fileNames fc flist)))).take 509) := by
  induction fuel generalizing bp out with
  | zero => cases hfuel
  | succ fuel ih =>
      unfold globLoop tokens
      split
      · rw [List.flatMap_nil, spacedWords, List.flatMap_nil, List.append_nil]
      · rename_i hmore
        have hspaces := dropSpaces_le bp
        have hshort := token_shorter hmore fun c hc => head_dropSpaces hc
        rw [fill_nil (by decide), pure_bind, close_take (by decide), pure_bind, putToken_eq,
          pure_bind, ih (by dsimp only; omega)]
        dsimp only
        rw [List.flatMap_cons, spacedWords_append, List.append_assoc]

/-- `shell_glob_expand` stores nothing outside its buffers. -/
theorem shellGlobExpand_eq (files : Slot → FSFile) {line : Text} (hline : line.length ≤ 255) :
    shellGlobExpand files line = pure (globbed files line) := by
  unfold shellGlobExpand globbed
  by_cases hglob : (line.dropWhile fun c => c ≠ 0x20).any isGlob
  · rw [if_pos hglob]
    unfold fsListBuf
    rw [listLoop_eq (by decide), pure_bind]
    dsimp only
    by_cases hnone : usedNames files = []
    · rw [if_pos (by rw [hnone, List.length_nil]), if_neg fun h => h.2 hnone]
    · have hcmd : (line.takeWhile fun c => decide (c ≠ 0x20)).length ≤ line.length :=
        (List.takeWhile_prefix _).length_le
      have hcut : ∀ n, 255 ≤ n → (line.takeWhile fun c => decide (c ≠ 0x20)).take n =
          line.takeWhile fun c => decide (c ≠ 0x20) := by
        intro n hn
        exact List.take_of_length_le (by omega)
      rw [if_neg (fun h => hnone (List.length_eq_zero_iff.mp h)), if_pos ⟨hglob, hnone⟩,
        fill_nil (by decide), pure_bind, fill_eq (by decide), pure_bind, pure_bind]
      dsimp only
      rw [hcut 510 (by decide), ← hcut 509 (by decide),
        globLoop_eq _ _ (by rw [List.length_drop]; omega), pure_bind, close_take (by decide),
        pure_bind, hcut 509 (by decide)]
  · rw [if_neg hglob, if_neg fun h => hglob h.1]

/-! ## The language of a pattern -/

/-- The strings of a pattern. -/
inductive Matches : Text → Text → Prop
  | nil : Matches [] []
  | star {pat str rest : Text} (hrest : rest <:+ str) (h : Matches pat rest) :
      Matches (0x2A :: pat) str
  | any (c : UInt8) {pat str : Text} (h : Matches pat str) : Matches (0x3F :: pat) (c :: str)
  | char {c : UInt8} (hstar : c ≠ 0x2A) (hany : c ≠ 0x3F) {pat str : Text} (h : Matches pat str) :
      Matches (c :: pat) (c :: str)

theorem matches_star : Matches (0x2A :: pat) str ↔ ∃ rest, rest <:+ str ∧ Matches pat rest := by
  constructor
  · intro h
    cases h with
    | star hrest h => exact ⟨_, hrest, h⟩
    | char hstar _ _ => exact absurd rfl hstar
  · rintro ⟨rest, hrest, h⟩
    exact Matches.star hrest h

theorem matches_any : Matches (0x3F :: pat) (c :: str) ↔ Matches pat str := by
  constructor
  · intro h
    cases h with
    | any _ h => exact h
    | char _ hany _ => exact absurd rfl hany
  · exact Matches.any c

theorem matches_char {p : UInt8} (hstar : p ≠ 0x2A) (hany : p ≠ 0x3F) :
    Matches (p :: pat) (c :: str) ↔ p = c ∧ Matches pat str := by
  constructor
  · intro h
    cases h with
    | star _ _ => exact absurd rfl hstar
    | any _ _ => exact absurd rfl hany
    | char _ _ h => exact ⟨rfl, h⟩
  · rintro ⟨rfl, h⟩
    exact Matches.char hstar hany h

/-- The empty string is one of the strings of stars only. -/
theorem matches_nil (pat : Text) : Matches pat [] ↔ (pat.all fun c => c = 0x2A) = true := by
  induction pat with
  | nil => exact ⟨fun _ => rfl, fun _ => Matches.nil⟩
  | cons p pat ih =>
      by_cases hp : p = 0x2A
      · subst hp
        have hall : ((0x2A :: pat).all fun c => decide (c = 0x2A)) =
            pat.all fun c => decide (c = 0x2A) := rfl
        rw [hall, ← ih, matches_star]
        constructor
        · rintro ⟨rest, hrest, h⟩
          rwa [List.suffix_nil.mp hrest] at h
        · exact fun h => ⟨[], List.suffix_rfl, h⟩
      · constructor
        · intro h
          cases h with
          | star _ _ => exact absurd rfl hp
        · intro h
          rw [List.all_cons, Bool.and_eq_true] at h
          exact absurd (of_decide_eq_true h.1) hp

/-- A pattern of stars has every string. -/
theorem Matches.of_nil (h : Matches pat []) (hne : pat ≠ []) (str : Text) : Matches pat str := by
  cases h with
  | nil => exact absurd rfl hne
  | star hrest h =>
      rw [List.suffix_nil.mp hrest] at h
      exact Matches.star List.nil_suffix h

/-- The suffixes that the loop tries. -/
theorem mem_tails_dropLast {rest : Text} :
    rest ∈ str.tails.dropLast ↔ rest <:+ str ∧ rest ≠ [] := by
  induction str with
  | nil =>
      constructor
      · exact fun h => absurd h List.not_mem_nil
      · rintro ⟨hrest, hne⟩
        exact absurd (List.suffix_nil.mp hrest) hne
  | cons c str ih =>
      have hne : str.tails ≠ [] := List.ne_nil_of_mem (List.mem_tails _ _ |>.mpr List.suffix_rfl)
      rw [List.tails_cons, List.dropLast_cons_of_ne_nil hne, List.mem_cons, ih,
        List.suffix_cons_iff]
      constructor
      · rintro (rfl | ⟨hrest, hrne⟩)
        · exact ⟨Or.inl rfl, List.cons_ne_nil _ _⟩
        · exact ⟨Or.inr hrest, hrne⟩
      · rintro ⟨rfl | hrest, hrne⟩
        · exact Or.inl rfl
        · exact Or.inr ⟨hrest, hrne⟩

/-- **Patterns.** `glob_match` accepts the strings of the pattern. -/
theorem globMatch_iff (pat str : Text) : globMatch pat str = true ↔ Matches pat str := by
  induction pat generalizing str with
  | nil =>
      cases str with
      | nil => exact ⟨fun _ => Matches.nil, fun _ => rfl⟩
      | cons c str => exact ⟨nofun, nofun⟩
  | cons p pat ih =>
      cases str with
      | nil =>
          rw [matches_nil]
          exact Iff.rfl
      | cons c str =>
          unfold globMatch
          split_ifs with hstar hany
          · subst hstar
            rw [matches_star, Bool.or_eq_true, List.any_eq_true]
            constructor
            · rintro (hempty | ⟨rest, hrest, h⟩)
              · rw [List.isEmpty_iff.mp hempty]
                exact ⟨[], List.nil_suffix, Matches.nil⟩
              · exact ⟨rest, (mem_tails_dropLast.mp hrest).1, (ih rest).mp h⟩
            · rintro ⟨rest, hrest, h⟩
              cases rest with
              | cons d rest =>
                  exact Or.inr ⟨_, mem_tails_dropLast.mpr ⟨hrest, List.cons_ne_nil _ _⟩,
                    (ih _).mpr h⟩
              | nil =>
                  -- The rest of the pattern is stars: it has the whole string as well.
                  by_cases hempty : pat = []
                  · exact Or.inl (List.isEmpty_iff.mpr hempty)
                  · exact Or.inr ⟨c :: str,
                      mem_tails_dropLast.mpr ⟨List.suffix_rfl, List.cons_ne_nil _ _⟩,
                      (ih _).mpr (h.of_nil hempty _)⟩
          · subst hany
            rw [matches_any]
            exact ih str
          · rw [matches_char hstar hany, Bool.and_eq_true, decide_eq_true_eq]
            exact and_congr_right fun _ => ih str

end OriaOS.Shell.Glob
