import OriaOS.Shell.World

/-!
# A line of the shell

`shell_execute` up to the commands themselves, which are a parameter. A line is an assignment,
or it goes through the passes and is then a command or two lines joined by `&&` or `||`. The
passes, the sub-commands `$(…)` and the two lines share one `input_buffer`.
-/

namespace OriaOS.Shell.Execute

open OriaOS.Fs OriaOS.Lib OriaOS.Lib.Faulting OriaOS.Shell.Vars OriaOS.Shell.Arith
open OriaOS.Shell.Passes OriaOS.Shell.Glob

variable {oi : Nat} {inner : Text} {w : World}

/-! ## The code -/

/-- A quote in front of a value is left out. -/
def unquote (val : Text) : Text := if val.head?.any isQuote then val.tail else val

/-- The assignment of a line, in the buffers `kbuf` and `vbuf`. -/
def readAssignment (line : Text) : Faulting (Option (Text × Text)) :=
  match assignPlace line with
  | none => pure none
  | some eq => do
      let kbuf ← append 32 31 [] (line.take eq)
      let kbuf ← close 32 kbuf
      let r ← fill 64 63 (fun c => !isQuote c) [] (unquote (line.drop (eq + 1)))
      let vbuf ← close 64 r.1
      pure (some (kbuf, vbuf))

/-- `for (k = 0; k <= oi && k < 255; k++) input_buffer[k] = out[k]`. -/
def copyBack (out : Text) : Text := (out ++ [0]).take 255

/-- `while (out[k] && k < 255) input_buffer[k] = out[k], k++`. -/
def copyString (out : Text) : Text := (out.takeWhile fun c => c ≠ 0).take 255

/-- The copy at the end of a pass that has something to copy. -/
def storePass (w : World) (copy : Text → Text) : Option Text → Faulting World
  | none => pure w
  | some out => w.storeLine (copy out)

/-- The text of a sub-command, up to the closing parenthesis, and what is behind it. -/
def innerText : Nat → Text → Text → Faulting (Text × Text)
  | _, inner, [] => pure (inner, [])
  | depth, inner, c :: rest =>
      if 254 ≤ inner.length then pure (inner, c :: rest)
      else if c = 0x29 ∧ depth = 1 then pure (inner, rest)
      else do
        let inner ← push 256 inner c
        innerText (if c = 0x28 then depth + 1 else if c = 0x29 then depth - 1 else depth) inner rest

/-- ` > _csub_`. -/
def redir : Text := [0x20, 0x3E, 0x20, 0x5F, 0x63, 0x73, 0x75, 0x62, 0x5F]

theorem zero_notMem_csub : (0 : UInt8) ∉ ([0x5F, 0x63, 0x73, 0x75, 0x62, 0x5F] : List UInt8) := by
  decide

/-- `_csub_`. -/
def csub : CString := ⟨[0x5F, 0x63, 0x73, 0x75, 0x62, 0x5F], zero_notMem_csub⟩

/-- The output of a sub-command, as far as `csub_buf` takes it. -/
def csubText (files : Mfs3) : Text :=
  match fsRead files csub with
  | none => []
  | some b => (CString.read b.byte 255 0).bytes

/-- The end of an output that is cut off. -/
def isBlank (c : UInt8) : Bool := c = 0x0A || c = 0x0D || c = 0x20

/-- `csub_buf` with the blanks at its end cut off. -/
def readOutput (files : Mfs3) : Faulting Text := do
  let csubBuf ← append 256 255 [] (csubText files)
  let csubBuf ← close 256 csubBuf
  pure (csubBuf.reverse.dropWhile isBlank).reverse

/-- `while (*cp && oi < 510) sub_out[oi++] = *cp++`. -/
def putOutput : World → Nat → Text → Faulting (World × Nat)
  | w, oi, [] => pure (w, oi)
  | w, oi, c :: cp =>
      if 510 ≤ oi then pure (w, oi)
      else do
        let w ← w.storeSub oi c
        putOutput w (oi + 1) cp

/-- `sub_cmd`. -/
def subCommand (inner : Text) : Faulting Text := do
  let sub ← append 300 290 [] inner
  let sub ← append 300 299 sub redir
  close 300 sub

/-- A sub-command: it runs in `input_buffer`, which gets its line back. -/
def runSub (rec : World → Faulting World) (w : World) (inner : Text) (oi : Nat) :
    Faulting (World × Nat) := do
  let sub ← subCommand inner
  let v ← w.storeLine (sub.take 256)
  let v ← rec v
  let output ← readOutput v.files
  let r ← putOutput { v with inputBuffer := w.inputBuffer } oi output
  pure ({ r.1 with files := (fsDelete r.1.files csub).1 }, r.2)

/-- The loop of `shell_expand_subshell`. Each turn reads at least one byte. -/
def subLoop (rec : World → Faulting World) : Nat → World → Text → Nat → Faulting (World × Nat)
  | 0, _, _, _ => .error .fuel
  | _ + 1, w, [], oi => pure (w, oi)
  | fuel + 1, w, c :: rest, oi =>
      if 510 ≤ oi then pure (w, oi)
      else if c = 0x24 ∧ rest.head? = some 0x28 then do
        let r ← innerText 1 [] rest.tail
        let inner ← close 256 r.1
        let v ← runSub rec w inner oi
        subLoop rec fuel v.1 r.2 v.2
      else do
        let w ← w.storeSub oi c
        subLoop rec fuel w rest (oi + 1)

/-- `$(` at the front of a text. -/
def startsSub (s : Text) : Bool := [0x24, 0x28].isPrefixOf s

/-- What goes from `sub_out` to `input_buffer`. -/
def subText (w : World) (oi : Nat) : Text := (List.range (min (oi + 1) 255)).map w.subOut

/-- `shell_expand_subshell`. -/
def shellExpandSubshell (rec : World → Faulting World) (w : World) : Faulting World :=
  if w.line.tails.any startsSub then do
    let r ← subLoop rec (w.line.length + 1) w w.line 0
    let v ← r.1.storeSub r.2 0
    v.storeLine (subText v r.2)
  else pure w

/-- The new line of an alias, with `input_len`. -/
def storeAlias (w : World) : Option Text → Faulting World
  | none => pure w
  | some newbuf => w.storeEnter (copyString newbuf)

/-- The variables, the alias and the numbers. -/
def expandFront (w : World) : Faulting World := do
  let tmp ← Passes.shellExpandVars w.vars w.line
  let w ← w.storeEnter tmp
  let newbuf ← expandAlias w.aliases w.line
  let w ← storeAlias w newbuf
  let arithOut ← shellExpandArith w.env w.line
  storePass w copyBack arithOut

/-- The passes of `shell_execute`. -/
def expand (rec : World → Faulting World) (w : World) : Faulting World := do
  let w ← expandFront w
  let w ← shellExpandSubshell rec w
  let result ← shellExpandBrace w.line
  let w ← storePass w copyBack result
  let globOut ← shellGlobExpand w.files.files w.line
  storePass w copyString globOut

def trimEnd (s : Text) : Text := (s.reverse.dropWhile fun c => c = 0x20).reverse

/-- The line without a `&` at its end and the spaces around it, which become zero bytes. -/
def stripAmp (line : Text) : Option Text :=
  let t := trimEnd line
  if t.getLast? = some 0x26 ∧ t.dropLast.getLast? ≠ some 0x26 then
    some (trimEnd t.dropLast ++ List.replicate (t.length - 1 - (trimEnd t.dropLast).length) 0)
  else none

/-- The two sides of the first `&&` or `||`, and whether it is `&&`. -/
def splitCond : Text → Option (Text × Bool × Text)
  | a :: b :: rest =>
      if a = 0x26 ∧ b = 0x26 then some ([], true, rest)
      else if a = 0x7C ∧ b = 0x7C then some ([], false, rest)
      else (splitCond (b :: rest)).map fun r => (a :: r.1, r.2)
  | _ => none

/-- The right side runs when the left one asks for it and there is one. -/
def runRight (rec : World → Faulting World) (v : World) (isAnd : Bool) (rbuf : Text) :
    Faulting World :=
  if (isAnd = true ↔ v.lastExitCode = 0) ∧ rbuf ≠ [] then do
    let v ← v.storeEnter rbuf
    rec v
  else pure v

/-- The conditional operators. -/
def conditional (rec : World → Faulting World) (w : World) (left : Text) (isAnd : Bool)
    (right : Text) : Faulting World := do
  let lbuf ← append 256 255 [] left
  let lbuf ← close 256 (trimEnd lbuf)
  let rbuf ← append 256 255 [] (dropSpaces right)
  let rbuf ← close 256 rbuf
  let _ ← store 256 [] (w.inputBuffer.bytes.take (w.inputLen + 1))
  let v ← w.storeEnter lbuf
  let v ← rec v
  let v ← runRight rec v isAnd rbuf
  pure (v.restore w)

/-- What follows the passes. `dispatch` runs a command, in the background or not. -/
def command (dispatch : Bool → World → World) (rec : World → Faulting World) (w : World) :
    Faulting World := do
  let amp := stripAmp w.line
  let w ← storePass w id amp
  match splitCond w.line with
  | none => pure (dispatch amp.isSome w)
  | some (left, isAnd, right) => conditional rec w left isAnd right

/-- `shell_execute`, to a depth of calls of itself. -/
def shellExecute (dispatch : Bool → World → World) : Nat → World → Faulting World
  | 0, _ => .error .fuel
  | depth + 1, w => do
      let w := { w with lastExitCode := 0 }
      let assignment ← readAssignment w.line
      match assignment with
      | some a => pure { w with env := scSetvar w.env a.1 a.2 }
      | none => do
          let w ← expand (shellExecute dispatch depth) w
          command dispatch (shellExecute dispatch depth) w

/-! ## The meaning -/

/-- The text of a sub-command, and what is behind it. -/
def splitInner : Nat → Text → Text × Text
  | _, [] => ([], [])
  | depth, c :: rest =>
      if c = 0x29 ∧ depth = 1 then ([], rest)
      else
        let r := splitInner
          (if c = 0x28 then depth + 1 else if c = 0x29 then depth - 1 else depth) rest
        (c :: r.1, r.2)

/-- Bytes in `sub_out`, as far as its limit. -/
def addOutput : World → Nat → Text → World × Nat
  | w, oi, [] => (w, oi)
  | w, oi, c :: cp => if 510 ≤ oi then (w, oi) else addOutput (w.setSub oi c) (oi + 1) cp

/-- What a sub-command leaves: the line as it was, its output in `sub_out`, and no `_csub_`. -/
def collect (v w : World) (oi : Nat) : World × Nat :=
  let r := addOutput { v with inputBuffer := w.inputBuffer } oi
    ((csubText v.files).reverse.dropWhile isBlank).reverse
  ({ r.1 with files := (fsDelete r.1.files csub).1 }, r.2)

/-- The text of a sub-command fits `input_buffer` together with its redirection. -/
def Fits (inner : Text) : Prop := inner.length ≤ 246

instance (inner : Text) : Decidable (Fits inner) := inferInstanceAs (Decidable (_ ≤ _))

/-- A sub-command that fits. -/
def subRun (rec : World → Option World) (w : World) (inner : Text) (oi : Nat) :
    Option (World × Nat) :=
  if Fits inner then (rec (w.setLine (inner ++ redir))).map fun v => collect v w oi else none

/-- The sub-commands of a text. -/
def subRuns (rec : World → Option World) : Nat → World → Text → Nat → Option (World × Nat)
  | 0, _, _, _ => none
  | _ + 1, w, [], oi => some (w, oi)
  | fuel + 1, w, c :: rest, oi =>
      if 510 ≤ oi then some (w, oi)
      else if c = 0x24 ∧ rest.head? = some 0x28 then
        (subRun rec w (splitInner 1 rest.tail).1 oi).bind fun v =>
          subRuns rec fuel v.1 (splitInner 1 rest.tail).2 v.2
      else subRuns rec fuel (w.setSub oi c) rest (oi + 1)

/-- The line with the outputs of its sub-commands. -/
def substituted (rec : World → Option World) (w : World) : Option World :=
  if w.line.tails.any startsSub then
    (subRuns rec (w.line.length + 1) w w.line 0).map fun r =>
      (r.1.setSub r.2 0).setLine (subText (r.1.setSub r.2 0) r.2)
  else some w

/-- A pass that may leave the line as it is. -/
def setPass (w : World) (copy : Text → Text) (out : Option Text) : World :=
  out.elim w fun out => w.setLine (copy out)

/-- The line with the numbers of `$((…))`, when no evaluation traps. -/
def calculated (w : World) : Option World :=
  (shellExpandArith w.env w.line).toOption.map (setPass w copyBack)

/-- The line behind the variables and the alias. -/
def substitutedVars (w : World) : World :=
  let w := w.enter (Vars.shellExpandVars w.vars w.line)
  (aliased w.aliases w.line).elim w fun newbuf => w.enter (copyString newbuf)

/-- The line behind the passes. -/
def expanded (rec : World → Option World) (w : World) : Option World :=
  (calculated (substitutedVars w)).bind fun w => (substituted rec w).map fun w =>
    let w := setPass w copyBack (braced w.line)
    setPass w copyString (globbed w.files.files w.line)

/-- The line as a command, or as two. -/
def finished (dispatch : Bool → World → World) (rec : World → Option World) (w : World) :
    Option World :=
  let amp := stripAmp w.line
  let w := setPass w id amp
  match splitCond w.line with
  | none => some (dispatch amp.isSome w)
  | some (left, isAnd, right) =>
      (rec (w.enter (trimEnd left))).bind fun v =>
        (if (isAnd = true ↔ v.lastExitCode = 0) ∧ dropSpaces right ≠ [] then
          rec (v.enter (dropSpaces right))
        else some v).map fun v => v.restore w

/-- What a line does, when its lines nest to a depth at most, all its sub-commands fit and no
evaluation traps. -/
def runs (dispatch : Bool → World → World) : Nat → World → Option World
  | 0, _ => none
  | depth + 1, w =>
      let w := { w with lastExitCode := 0 }
      match parseAssignment w.line with
      | some a => some { w with env := scSetvar w.env a.1 a.2 }
      | none => (expanded (runs dispatch depth) w).bind (finished dispatch (runs dispatch depth))

/-! ## Assignments and passes -/

theorem valueText_eq (val : Text) :
    valueText val = (unquote val).takeWhile fun c => !isQuote c := by
  cases val with
  | nil => rfl
  | cons c rest =>
      have hhead : (c :: rest).head?.any isQuote = isQuote c := rfl
      unfold valueText unquote
      dsimp only
      rw [hhead]
      rfl

theorem readAssignment_eq (line : Text) : readAssignment line = pure (parseAssignment line) := by
  unfold readAssignment parseAssignment
  cases assignPlace line with
  | none => rfl
  | some eq =>
      dsimp only
      rw [append_nil (by decide), pure_bind, close_take (by decide), pure_bind,
        fill_nil (by decide), pure_bind, close_take (by decide), pure_bind, ← valueText_eq]
      rfl

theorem copyBack_lt (out : Text) : (copyBack out).length < 256 :=
  Nat.lt_succ_of_le (List.length_take_le _ _)

theorem copyString_lt (out : Text) : (copyString out).length < 256 :=
  Nat.lt_succ_of_le (List.length_take_le _ _)

theorem storePass_eq (w : World) {copy : Text → Text} (hcopy : ∀ out, (copy out).length < 256)
    (out : Option Text) : storePass w copy out = pure (setPass w copy out) := by
  cases out with
  | none => rfl
  | some out => exact World.storeLine_of_lt (hcopy out)

theorem storeAlias_eq (w : World) (out : Option Text) :
    storeAlias w out = pure (out.elim w fun newbuf => w.enter (copyString newbuf)) := by
  cases out with
  | none => rfl
  | some out => exact World.storeEnter_of_lt (copyString_lt out)

/-- The front passes, up to the evaluation. -/
theorem expandFront_eq (hcode : w.lastExitCode = 0) :
    expandFront w = (do
      let arithOut ← shellExpandArith (substitutedVars w).env (substitutedVars w).line
      pure (setPass (substitutedVars w) copyBack arithOut)) := by
  have hvars : (Vars.shellExpandVars w.vars w.line).length < 256 :=
    Nat.lt_of_le_of_lt (expandLoop_le _ _ (Nat.zero_le _)) (by decide)
  rw [expandFront, Passes.shellExpandVars_eq (w.smallNumbers hcode), pure_bind,
    World.storeEnter_of_lt hvars, pure_bind, expandAlias_eq _ (World.line_le _), pure_bind,
    storeAlias_eq, pure_bind]
  simp only [storePass_eq _ copyBack_lt]
  rfl

theorem expandFront_toOption (hcode : w.lastExitCode = 0) :
    (expandFront w).toOption = calculated (substitutedVars w) := by
  rw [expandFront_eq hcode, toOption_bind, calculated, Option.map_eq_bind]
  rfl

/-! ## Sub-commands -/

theorem innerText_eq (depth : Nat) {rest : Text} (h : inner.length + rest.length ≤ 254) :
    innerText depth inner rest =
      pure (inner ++ (splitInner depth rest).1, (splitInner depth rest).2) := by
  induction rest generalizing depth inner with
  | nil => rw [innerText, splitInner, List.append_nil]
  | cons c rest ih =>
      rw [List.length_cons] at h
      unfold innerText splitInner
      rw [if_neg (by omega)]
      split
      · rw [List.append_nil]
      · rw [push_of_lt (by omega), pure_bind,
          ih _ (by rw [List.length_append, List.length_singleton]; omega), List.append_assoc,
          List.singleton_append]

theorem splitInner_le (depth : Nat) (rest : Text) :
    (splitInner depth rest).1.length + (splitInner depth rest).2.length ≤ rest.length := by
  induction rest generalizing depth with
  | nil => exact le_rfl
  | cons c rest ih =>
      unfold splitInner
      split
      · rw [List.length_nil, Nat.zero_add]
        exact Nat.le_succ _
      · have hrest := ih (if c = 0x28 then depth + 1 else if c = 0x29 then depth - 1 else depth)
        dsimp only
        rw [List.length_cons, List.length_cons]
        omega

theorem subCommand_eq (h : inner.length ≤ 254) : subCommand inner = pure (inner ++ redir) := by
  have hcut : inner.take 290 = inner := List.take_of_length_le (by omega)
  have hredir : redir.take (299 - inner.length) = redir :=
    List.take_of_length_le (by rw [show redir.length = 9 from rfl]; omega)
  have hlen : (inner ++ redir).length < 300 := by
    rw [List.length_append, show redir.length = 9 from rfl]
    omega
  rw [subCommand, append_nil (by decide), pure_bind, hcut, append_eq (by decide), pure_bind, hredir,
    close_of_lt hlen]

theorem readBytes_le_fuel (mem : Nat → UInt8) (fuel a : Nat) :
    (CString.readBytes mem fuel a).length ≤ fuel := by
  induction fuel generalizing a with
  | zero => exact le_rfl
  | succ fuel ih =>
      unfold CString.readBytes
      split
      · exact Nat.zero_le _
      · exact Nat.succ_le_succ (ih _)

theorem csubText_le (files : Mfs3) : (csubText files).length ≤ 255 := by
  unfold csubText
  cases fsRead files csub with
  | none => exact Nat.zero_le _
  | some b => exact readBytes_le_fuel _ _ _

theorem readOutput_eq (files : Mfs3) :
    readOutput files = pure ((csubText files).reverse.dropWhile isBlank).reverse := by
  have hcut : (csubText files).take 255 = csubText files :=
    List.take_of_length_le (csubText_le files)
  rw [readOutput, append_nil (by decide), pure_bind, close_take (by decide), pure_bind, hcut]

theorem putOutput_eq (w : World) (hoi : oi ≤ 510) (cp : Text) :
    putOutput w oi cp = pure (addOutput w oi cp) := by
  induction cp generalizing w oi with
  | nil => rfl
  | cons c cp ih =>
      unfold putOutput addOutput
      split
      · rfl
      · rw [World.storeSub_of_lt (by omega), pure_bind, ih _ (by omega)]

theorem addOutput_le (w : World) (hoi : oi ≤ 510) (cp : Text) : (addOutput w oi cp).2 ≤ 510 := by
  induction cp generalizing w oi with
  | nil => exact hoi
  | cons c cp ih =>
      unfold addOutput
      split
      · exact hoi
      · exact ih _ (by omega)

theorem subText_lt (w : World) (oi : Nat) : (subText w oi).length < 256 := by
  rw [subText, List.length_map, List.length_range]
  exact Nat.lt_succ_of_le (Nat.min_le_right _ _)

section Runs
variable {rec' : World → Option World}

theorem subRun_le (hoi : oi ≤ 510) {r : World × Nat} (h : subRun rec' w inner oi = some r) :
    r.2 ≤ 510 := by
  unfold subRun at h
  split at h
  · obtain ⟨v, _, rfl⟩ := Option.map_eq_some_iff.mp h
    exact addOutput_le _ hoi _
  · cases h

theorem subRuns_le {fuel : Nat} {text : Text} {r : World × Nat}
    (h : subRuns rec' fuel w text oi = some r) (hoi : oi ≤ 510) : r.2 ≤ 510 := by
  induction fuel generalizing w text oi with
  | zero => cases h
  | succ fuel ih =>
      cases text with
      | nil =>
          obtain rfl := Option.some.inj h
          exact hoi
      | cons c rest =>
          unfold subRuns at h
          split_ifs at h with hfull hsub
          · obtain rfl := Option.some.inj h
            exact hoi
          · obtain ⟨v, hv, hrest⟩ := Option.bind_eq_some_iff.mp h
            exact ih hrest (subRun_le hoi hv)
          · exact ih h (by omega)

end Runs

theorem trimEnd_le (s : Text) : (trimEnd s).length ≤ s.length := by
  rw [trimEnd, List.length_reverse]
  exact Nat.le_trans (List.dropWhile_suffix _).length_le (Nat.le_of_eq List.length_reverse)

theorem splitCond_length {s left right : Text} {isAnd : Bool}
    (h : splitCond s = some (left, isAnd, right)) :
    left.length + 2 + right.length = s.length := by
  induction s generalizing left with
  | nil => cases h
  | cons a s ih =>
      cases s with
      | nil => cases h
      | cons b rest =>
          unfold splitCond at h
          split_ifs at h with hand hor
          · obtain ⟨rfl, _, rfl⟩ := h
            rw [List.length_nil, List.length_cons, List.length_cons]
            omega
          · obtain ⟨rfl, _, rfl⟩ := h
            rw [List.length_nil, List.length_cons, List.length_cons]
            omega
          · obtain ⟨r, hr, heq⟩ := Option.map_eq_some_iff.mp h
            obtain ⟨l, i, q⟩ := r
            cases heq
            have hlen := ih hr
            dsimp only
            rw [List.length_cons, List.length_cons (a := a)]
            omega

theorem stripAmp_lt {line out : Text} (h : stripAmp line = some out) (hline : line.length ≤ 255) :
    out.length < 256 := by
  have htrim := trimEnd_le line
  have hcmd := trimEnd_le (trimEnd line).dropLast
  rw [List.length_dropLast] at hcmd
  unfold stripAmp at h
  dsimp only at h
  split at h
  · obtain rfl := Option.some.inj h
    rw [List.length_append, List.length_replicate]
    omega
  · cases h

section Sub
variable {rec : World → Faulting World} {rec' : World → Option World}
  (hrec : ∀ w, (rec w).toOption = rec' w)
include hrec

/-- A sub-command that does not fit is stored behind the end of `input_buffer`. -/
theorem runSub_toOption (w : World) (hinner : inner.length ≤ 254) (hoi : oi ≤ 510) :
    (runSub rec w inner oi).toOption = subRun rec' w inner oi := by
  have hlen : (inner ++ redir).length = inner.length + 9 := List.length_append
  unfold subRun
  rw [runSub, subCommand_eq hinner, pure_bind]
  split
  · rename_i hfits
    have hroom : (inner ++ redir).length < 256 := by
      have hle : inner.length ≤ 246 := hfits
      omega
    rw [List.take_of_length_le (Nat.le_of_lt hroom), World.storeLine_of_lt hroom, pure_bind,
      toOption_bind, hrec]
    cases rec' (w.setLine (inner ++ redir)) with
    | none => rfl
    | some v =>
        rw [Option.bind_some, readOutput_eq, pure_bind, putOutput_eq _ hoi, pure_bind]
        rfl
  · rename_i hfits
    have hfull : ¬((inner ++ redir).take 256).length < 256 := by
      have hlt : 246 < inner.length := Nat.lt_of_not_le hfits
      rw [List.length_take]
      omega
    rw [World.storeLine, if_neg hfull]
    rfl

theorem subLoop_toOption {fuel : Nat} (w : World) {text : Text} (hfuel : text.length < fuel)
    (htext : text.length ≤ 255) (hoi : oi ≤ 510) :
    (subLoop rec fuel w text oi).toOption = subRuns rec' fuel w text oi := by
  induction fuel generalizing w text oi with
  | zero => cases hfuel
  | succ fuel ih =>
      cases text with
      | nil => rfl
      | cons c rest =>
          rw [List.length_cons] at hfuel htext
          unfold subLoop subRuns
          split_ifs with hfull hsub
          · rfl
          · have hsplit := splitInner_le 1 rest.tail
            rw [List.length_tail] at hsplit
            rw [innerText_eq 1 (by rw [List.length_nil, List.length_tail]; omega), pure_bind,
              List.nil_append]
            dsimp only
            rw [close_of_lt (by omega), pure_bind, toOption_bind,
              runSub_toOption hrec w (by omega) hoi]
            cases hrun : subRun rec' w (splitInner 1 rest.tail).1 oi with
            | none => rfl
            | some v => exact ih v.1 (by omega) (by omega) (subRun_le hoi hrun)
          · rw [World.storeSub_of_lt (by omega), pure_bind]
            exact ih _ (by omega) (by omega) (by omega)

theorem shellExpandSubshell_toOption (w : World) :
    (shellExpandSubshell rec w).toOption = substituted rec' w := by
  unfold shellExpandSubshell substituted
  split
  · have hrun := subLoop_toOption hrec w (Nat.lt_succ_self _) w.line_le (Nat.zero_le 510)
    rw [toOption_bind, hrun]
    cases hr : subRuns rec' (w.line.length + 1) w w.line 0 with
    | none => rfl
    | some r =>
        have hoi := subRuns_le hr (Nat.zero_le _)
        rw [Option.bind_some, World.storeSub_of_lt (by omega), pure_bind,
          World.storeLine_of_lt (subText_lt _ _)]
        rfl
  · rfl

/-- The passes compute what they mean. -/
theorem expand_toOption (hcode : w.lastExitCode = 0) :
    (expand rec w).toOption = expanded rec' w := by
  unfold expand expanded
  rw [toOption_bind, expandFront_toOption hcode]
  congr 1
  funext u
  rw [toOption_bind, shellExpandSubshell_toOption hrec]
  cases substituted rec' u with
  | none => rfl
  | some v =>
      rw [Option.bind_some, shellExpandBrace_eq (World.line_le _), pure_bind,
        storePass_eq _ copyBack_lt, pure_bind, shellGlobExpand_eq _ (World.line_le _), pure_bind,
        storePass_eq _ copyString_lt]
      rfl

/-! ## Conditions -/

/-- The command and its sides are no longer than the line. -/
theorem conditional_toOption (w : World) {left right : Text} (hleft : left.length ≤ 255)
    (hright : right.length ≤ 255) (isAnd : Bool) :
    (conditional rec w left isAnd right).toOption =
      (rec' (w.enter (trimEnd left))).bind fun v =>
        (if (isAnd = true ↔ v.lastExitCode = 0) ∧ dropSpaces right ≠ [] then
          rec' (v.enter (dropSpaces right))
        else some v).map fun v => v.restore w := by
  have htrim := trimEnd_le left
  have hspaces := dropSpaces_le right
  have hcopy : (w.inputBuffer.bytes.take (w.inputLen + 1)).length ≤ 256 :=
    Nat.le_trans (List.length_take_le _ _) (Nat.succ_le_succ w.inputLen_le)
  rw [conditional, append_nil (by decide), pure_bind, List.take_of_length_le hleft,
    close_of_lt (by omega), pure_bind, append_nil (by decide), pure_bind,
    List.take_of_length_le (by omega), close_of_lt (by omega), pure_bind,
    store_of_le (by rw [List.length_nil]; omega), pure_bind, World.storeEnter_of_lt (by omega),
    pure_bind, toOption_bind, hrec]
  congr 1
  funext v
  rw [toOption_bind]
  unfold runRight
  split
  · rw [World.storeEnter_of_lt (by omega), pure_bind, hrec, Option.map_eq_bind]
    rfl
  · rfl

theorem command_toOption (dispatch : Bool → World → World) (w : World) :
    (command dispatch rec w).toOption = finished dispatch rec' w := by
  have hamp : storePass w id (stripAmp w.line) = pure (setPass w id (stripAmp w.line)) := by
    cases hstrip : stripAmp w.line with
    | none => rfl
    | some out => exact World.storeLine_of_lt (stripAmp_lt hstrip w.line_le)
  unfold command finished
  dsimp only
  rw [hamp, pure_bind]
  cases hsplit : splitCond (setPass w id (stripAmp w.line)).line with
  | none => rfl
  | some r =>
      obtain ⟨left, isAnd, right⟩ := r
      have hlen := splitCond_length hsplit
      have hline := (setPass w id (stripAmp w.line)).line_le
      exact conditional_toOption hrec _ (by omega) (by omega) isAnd

end Sub

/-! ## Runs -/

/-- A line has a value at a depth when it does what it means there. -/
theorem shellExecute_toOption (dispatch : Bool → World → World) (depth : Nat) (w : World) :
    (shellExecute dispatch depth w).toOption = runs dispatch depth w := by
  induction depth generalizing w with
  | zero => rfl
  | succ depth ih =>
      unfold shellExecute runs
      dsimp only
      rw [readAssignment_eq, pure_bind]
      cases parseAssignment ({ w with lastExitCode := 0 } : World).line with
      | some a => rfl
      | none =>
          dsimp only
          rw [toOption_bind, expand_toOption ih rfl]
          congr 1
          funext v
          exact command_toOption ih dispatch v

/-- The line ends without a store outside a buffer, and leaves `input_buffer` with a zero byte. -/
def StaysInside (dispatch : Bool → World → World) (w : World) : Prop :=
  ∃ depth w', shellExecute dispatch depth w = .ok w' ∧ (0 : UInt8) ∈ w'.inputBuffer.bytes

theorem zeros_size : (List.replicate 256 (0 : UInt8)).length = 256 := List.length_replicate

theorem zeros_ends : (List.replicate 256 (0 : UInt8))[255]? = some 0 := by decide

theorem zero_inputLen : 0 ≤ 255 := Nat.zero_le 255

/-- A table without files. -/
def noFiles : Mfs3 := ⟨fun _ => ⟨fun _ => 0, 0, 0, 0, false, 0, 0, 0, none⟩, fun _ _ => 0, false⟩

/-- A blank and 250 letters. -/
def longInner : Text := 0x20 :: List.replicate 250 0x79

/-- The line `$X yyy…y` where `X` is `$(`. -/
def longWorld : World where
  env := [([0x58], [0x24, 0x28])]
  aliases := []
  files := noFiles
  current := 1
  lastExitCode := 0
  inputBuffer := InputBuffer.put ⟨List.replicate 256 0, zeros_size, zeros_ends⟩
    (0x24 :: 0x58 :: longInner)
  inputLen := 0
  inputLen_le := zero_inputLen
  subOut := fun _ => 0

/-- The line behind the variables. -/
def longExpanded : Text := 0x24 :: 0x28 :: longInner

theorem line_longWorld : longWorld.line = 0x24 :: 0x58 :: longInner :=
  InputBuffer.line_put _ (by decide +kernel) (by decide +kernel)

theorem vars_longWorld : Vars.shellExpandVars longWorld.vars longWorld.line = longExpanded := by
  rw [line_longWorld]
  decide +kernel

theorem line_longExpanded (w : World) : (w.enter longExpanded).line = longExpanded :=
  InputBuffer.line_put _ (by decide +kernel) (by decide +kernel)

theorem not_fits_longInner : ¬Fits (splitInner 1 longInner).1 := by decide +kernel

theorem expanded_longWorld (rec : World → Option World) : expanded rec longWorld = none := by
  have hline := line_longExpanded longWorld
  have harith : longExpanded.tails.any startsArith = false := by decide +kernel
  have hsub : longExpanded.tails.any startsSub = true := by decide +kernel
  have hcalc : calculated (longWorld.enter longExpanded) =
      some (longWorld.enter longExpanded) := by
    rw [calculated, hline, shellExpandArith, harith, if_neg Bool.false_ne_true]
    rfl
  have hfirst : ∀ w fuel, subRuns rec (fuel + 1) w longExpanded 0 = none := by
    intro w fuel
    have hopen : (0x24 : UInt8) = 0x24 ∧ (0x28 :: longInner).head? = some 0x28 := ⟨rfl, rfl⟩
    rw [longExpanded, subRuns, if_neg (by decide), if_pos hopen, List.tail_cons, subRun,
      if_neg not_fits_longInner, Option.bind_none]
  have hvars : substitutedVars longWorld = longWorld.enter longExpanded := by
    unfold substitutedVars
    rw [vars_longWorld]
    rfl
  rw [expanded, hvars, hcalc, Option.bind_some, substituted, hline, if_pos hsub, hfirst]
  rfl

end OriaOS.Shell.Execute
