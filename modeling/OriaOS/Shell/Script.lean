import OriaOS.Shell.Vars

/-!
# The script engine of the shell

`sc_exec_block` and what it calls in `shell.c`: the search for the end of a block, `if`,
`for` and `while`, definitions and calls of functions. The lines of the running script are
one array, which a call saves, overwrites and restores.

The rest of the shell is a parameter: the conditions, the variables and `shell_execute`, on
a state of its own. Recursion takes fuel, and a run that is `none` has run out of it.
-/

namespace OriaOS.Shell.Script

open Vars (Text parseAssignment)

abbrev scMaxLines : Nat := 128
abbrev scLineLen : Nat := 200
abbrev maxShellFuncs : Nat := 16
abbrev funcNameLen : Nat := 32
abbrev funcBodyMax : Nat := 48
abbrev maxIter : Nat := 1000

def ascii (s : List Char) : Text := s.map fun c => UInt8.ofNat c.toNat

abbrev space : UInt8 := 0x20

abbrev kwIf : Text := ascii ['i', 'f', ' ']
abbrev kwFor : Text := ascii ['f', 'o', 'r', ' ']
abbrev kwWhile : Text := ascii ['w', 'h', 'i', 'l', 'e', ' ']
abbrev kwFunction : Text := ascii ['f', 'u', 'n', 'c', 't', 'i', 'o', 'n', ' ']
abbrev kwIn : Text := ascii ['i', 'n', ' ']
abbrev kwThen : Text := ascii ['t', 'h', 'e', 'n']
abbrev kwElse : Text := ascii ['e', 'l', 's', 'e']
abbrev kwFi : Text := ascii ['f', 'i']
abbrev kwDo : Text := ascii ['d', 'o']
abbrev kwDone : Text := ascii ['d', 'o', 'n', 'e']

def skipSpaces (l : Text) : Text := l.dropWhile (· = space)

def stripSpaces (l : Text) : Text := (l.reverse.dropWhile (· = space)).reverse

/-! ## The rest of the shell -/

/-- What `shell_execute` does: it may run scripts, with `shell_run_script` on the bytes of a
file, and goes on behind each of them. -/
inductive Work (ω : Type) where
  | done (w : ω)
  | script (data : List UInt8) (w : ω) (next : ω → Work ω)

/-- What the engine uses: `sc_eval_cond`, `sc_setvar`, `shell_execute`, and the test whether
`set -e` is on and `last_exit_code` is not 0. -/
structure Host (ω : Type) where
  cond : Text → ω → Bool
  setvar : Text → Text → ω → ω
  execute : Text → ω → Work ω
  failed : ω → Bool

/-! ## The state of the engine -/

structure Func where
  name : Text
  body : List Text
  short : body.length ≤ funcBodyMax

/-- A call of a function that has returned: how many calls were running when it was made, and
`sc_lines` and `sc_nlines` before and after it. -/
structure Call where
  depth : Nat
  linesBefore : Nat → Text
  nlinesBefore : Nat
  linesAfter : Nat → Text
  nlinesAfter : Nat

/-- The variables of the engine. The last two are the history of a run: the number of calls
that are running, and those that have returned, last ones first. -/
structure Engine (ω : Type) where
  lines : Nat → Text
  nlines : Nat
  saved : Nat → Text
  funcs : List Func
  world : ω
  depth : Nat
  calls : List Call
  nlines_le : nlines ≤ scMaxLines

/-- A line without the spaces in front of it. -/
def Engine.line {ω : Type} (e : Engine ω) (i : Nat) : Text := skipSpaces (e.lines i)

/-! ## The ends of blocks -/

section Blocks
variable {ω : Type} (e : Engine ω)

/-- The line opens a block. -/
def opens (l : Text) : Bool :=
  kwIf.isPrefixOf l || kwWhile.isPrefixOf l || kwFor.isPrefixOf l

/-- The loop of `sc_find_end`, over `n` lines from `i` on. -/
def findEndLoop (endKw : Text) : Nat → Nat → Nat → Option Nat
  | 0, _, _ => none
  | n + 1, i, depth =>
      let depth := if opens (e.line i) then depth + 1 else depth
      if e.line i = endKw then
        if depth = 0 then some i else findEndLoop endKw n (i + 1) (depth - 1)
      else findEndLoop endKw n (i + 1) depth

/-- `sc_find_end`. -/
def scFindEnd (start : Nat) (endKw : Text) : Option Nat :=
  findEndLoop e endKw (e.nlines - start) start 0

/-- The loop that looks for `else` and `fi`, over `n` lines from `j` on. -/
def findFi : Nat → Nat → Nat → Option Nat → Option Nat × Option Nat
  | 0, _, _, els => (els, none)
  | n + 1, j, depth, els =>
      let depth := if opens (e.line j) then depth + 1 else depth
      let els := if depth = 0 ∧ e.line j = kwElse then some j else els
      if e.line j = kwFi then
        if depth = 0 then (els, some j) else findFi n (j + 1) (depth - 1) els
      else findFi n (j + 1) depth els

/-- The line behind a `then` on a line of its own. -/
def thenStart (i stop : Nat) : Nat :=
  if i + 1 < stop ∧ e.line (i + 1) = kwThen then i + 2 else i + 1

/-- The line behind a `do` on a line of its own. -/
def doStart (i : Nat) : Nat := if e.line (i + 1) = kwDo then i + 2 else i + 1

end Blocks

/-! ## The heads of blocks -/

/-- The condition behind `if`. The loop that strips ` then` compares the byte behind the
condition, so that it does nothing for one that does not end with ` the`. Behind one that does,
that byte has not been written; here the condition stays as it is. -/
def ifCond (line : Text) : Text :=
  stripSpaces (((skipSpaces (line.drop 3)).takeWhile (· ≠ 0x3B)).take 127)

/-- The condition behind `while`. -/
def whileCond (line : Text) : Text := ((line.drop 6).takeWhile (· ≠ 0x3B)).take 127

/-- `fbuf`. -/
def forText (line : Text) : Text := skipSpaces (((line.drop 4).takeWhile (· ≠ 0x3B)).take 127)

def forVar (line : Text) : Text := (forText line).takeWhile (· ≠ space)

/-- The words of a text, each of them cut. -/
def words : Text → Text → List Text
  | [], w => if w = [] then [] else [w]
  | c :: rest, w =>
      if c = space then if w = [] then words rest [] else w :: words rest []
      else words rest (if w.length < 95 then w ++ [c] else w)

/-- The words behind the name. Without a space behind the name the source reads on behind the
end of its text; here there are no words then. -/
def forWords (line : Text) : List Text :=
  let fin := skipSpaces (((forText line).dropWhile (· ≠ space)).drop 1)
  words (if kwIn.isPrefixOf fin then fin.drop 3 else fin) []

/-! ## Functions -/

/-- The name in the head of a definition, and whether there is a brace on the line. -/
def funcHead (line : Text) : Option (Text × Bool) :=
  let isFn := kwFunction.isPrefixOf line
  let fp := if isFn then skipSpaces (line.drop 9) else line
  let name := (fp.takeWhile fun c => c ≠ 0x28 && c ≠ space && c ≠ 0x7B).take (funcNameLen - 1)
  let after := skipSpaces (fp.drop name.length)
  let hasParen := [0x28, 0x29].isPrefixOf after
  let after := skipSpaces (if hasParen then after.drop 2 else after)
  if (isFn || fp.head? ≠ some 0x3D) && (isFn || hasParen) && name ≠ [] then
    some (name, after.head? = some 0x7B)
  else none

section Functions
variable {ω : Type} (e : Engine ω)

/-- The first line from `j` on that begins with a closing brace. -/
def findBrace : Nat → Nat → Nat
  | 0, j => j
  | n + 1, j => if (e.line j).head? = some 0x7D then j else findBrace n (j + 1)

/-- `body_from`. -/
def bodyFrom (i stop : Nat) (brace : Bool) : Nat :=
  if ¬ brace ∧ i + 1 < stop ∧ (e.line (i + 1)).head? = some 0x7B then i + 2 else i + 1

/-- `body_to`. -/
def bodyTo (start stop : Nat) : Nat := findBrace e (stop - start) start

def funcFind (funcs : List Func) (name : Text) : Option Func := funcs.find? fun f => f.name = name

/-- The first function of the name is replaced. -/
def putFunc (f : Func) : List Func → List Func
  | [] => [f]
  | g :: funcs => if g.name = f.name then f :: funcs else g :: putFunc f funcs

/-- The body that `shell_func_define` copies. -/
def copyBody (start bodyTo : Nat) : List Text :=
  ((List.range' start (bodyTo - start)).map fun k => (e.lines k).take (scLineLen - 1)).take
    funcBodyMax

theorem copyBody_short (start bodyTo : Nat) : (copyBody e start bodyTo).length ≤ funcBodyMax :=
  List.length_take_le _ _

/-- `shell_func_define`. -/
def shellFuncDefine (name : Text) (start bodyTo : Nat) : Engine ω :=
  if (funcFind e.funcs name).isNone ∧ maxShellFuncs ≤ e.funcs.length then e
  else
    { e with
      funcs := putFunc ⟨name, copyBody e start bodyTo, copyBody_short e start bodyTo⟩ e.funcs }

/-- The copies of `sc_exec_line` before a call. -/
def enterCall (f : Func) : Engine ω :=
  { e with
    saved := fun k => if k < e.nlines then e.lines k else e.saved k
    lines := fun k => f.body.getD k (e.lines k)
    nlines := f.body.length
    depth := e.depth + 1
    nlines_le := f.short.trans (by decide) }

/-- The copies of `sc_exec_line` after a call, which was made from the state `e`. -/
def leaveCall (r : Engine ω) : Engine ω :=
  let lines := fun k => if k < e.nlines then r.saved k else r.lines k
  { r with
    lines := lines
    nlines := e.nlines
    depth := e.depth
    calls := ⟨e.depth, e.lines, e.nlines, lines, e.nlines⟩ :: r.calls
    nlines_le := e.nlines_le }

end Functions

/-! ## Script files -/

/-- One byte of a script file: the lines so far and the one that is read. -/
def splitStep (s : List Text × Text) (c : UInt8) : List Text × Text :=
  if scMaxLines ≤ s.1.length ∨ c = 0x0D then s
  else if c = 0x0A then (if s.2 = [] then s.1 else s.1 ++ [s.2], [])
  else if s.2.length < scLineLen - 1 then (s.1, s.2 ++ [c])
  else s

/-- The lines of a script file. -/
def splitScript (data : List UInt8) : List Text :=
  let s := data.foldl splitStep ([], [])
  (if s.2 = [] then s.1 else s.1 ++ [s.2]).map fun l => l.takeWhile (· ≠ 0)

theorem splitStep_short {s : List Text × Text} {c : UInt8}
    (h : s.1.length + (if s.2 = [] then 0 else 1) ≤ scMaxLines) :
    (splitStep s c).1.length + (if (splitStep s c).2 = [] then 0 else 1) ≤ scMaxLines := by
  unfold splitStep
  split
  · exact h
  · rename_i hroom
    have hlt : s.1.length < scMaxLines := Nat.not_le.mp fun hle => hroom (Or.inl hle)
    split
    · split <;> simp_all
    · split
      · dsimp only
        split <;> omega
      · exact h

theorem splitScript_short (data : List UInt8) : (splitScript data).length ≤ scMaxLines := by
  have hrun : ∀ s : List Text × Text, s.1.length + (if s.2 = [] then 0 else 1) ≤ scMaxLines →
      (data.foldl splitStep s).1.length +
        (if (data.foldl splitStep s).2 = [] then 0 else 1) ≤ scMaxLines := by
    induction data with
    | nil => exact fun s h => h
    | cons c data ih => exact fun s h => ih _ (splitStep_short h)
  have h := hrun ([], []) (by decide)
  unfold splitScript
  dsimp only
  rw [List.length_map]
  split
  · rw [if_pos ‹_›] at h
    exact h
  · rw [if_neg ‹_›] at h
    rw [List.length_append, List.length_singleton]
    exact h

/-- The lines of a file take the place of the script. -/
def loadScript {ω : Type} (e : Engine ω) (data : List UInt8) (w : ω) : Engine ω :=
  { e with
    lines := fun k => (splitScript data).getD k (e.lines k)
    nlines := (splitScript data).length
    world := w
    nlines_le := splitScript_short data }

/-! ## Execution -/

/-- The name in `sc_exec_line`. -/
def cmdName (line : Text) : Text :=
  ((skipSpaces line).takeWhile (· ≠ space)).take (funcNameLen - 1)

def isKeyword (line : Text) : Bool :=
  line = kwThen || line = kwElse || line = kwFi || line = kwDo || line = kwDone

section Execute
variable {ω : Type} (sh : Host ω)

mutual

/-- `sc_exec_block`. -/
def scExecBlock : Nat → Engine ω → Nat → Nat → Option (Engine ω × Nat)
  | 0, _, _, _ => none
  | fuel + 1, e, i, stop =>
      if stop ≤ i then some (e, i)
      else
        let line := e.line i
        if line = [] ∨ line.head? = some 0x23 then scExecBlock fuel e (i + 1) stop
        else if kwIf.isPrefixOf line then
          let start := thenStart e i stop
          let found := findFi e (stop - start) start 0 none
          let fiLine := found.2.getD stop
          if sh.cond (ifCond line) e.world then
            (scExecBlock fuel e start (found.1.getD fiLine)).bind fun r =>
              scExecBlock fuel r.1 (fiLine + 1) stop
          else
            match found.1 with
            | some elseLine =>
                (scExecBlock fuel e (elseLine + 1) fiLine).bind fun r =>
                  scExecBlock fuel r.1 (fiLine + 1) stop
            | none => scExecBlock fuel e (fiLine + 1) stop
        else if kwFor.isPrefixOf line then
          let doneLine := (scFindEnd e (i + 1) kwDone).getD stop
          (execFor fuel e (forVar line) (forWords line) (doStart e i) doneLine).bind fun e' =>
            scExecBlock fuel e' (doneLine + 1) stop
        else if kwWhile.isPrefixOf line then
          let doneLine := (scFindEnd e (i + 1) kwDone).getD stop
          (execWhile fuel e (whileCond line) maxIter (doStart e i) doneLine).bind fun e' =>
            scExecBlock fuel e' (doneLine + 1) stop
        else if isKeyword line then scExecBlock fuel e (i + 1) stop
        else
          match funcHead line with
          | some (name, brace) =>
              let start := bodyFrom e i stop brace
              let last := bodyTo e start stop
              scExecBlock fuel (shellFuncDefine e name start last) (last + 1) stop
          | none =>
              match parseAssignment line with
              | some (key, val) =>
                  scExecBlock fuel { e with world := sh.setvar key val e.world } (i + 1) stop
              | none =>
                  (scExecLine fuel e line).bind fun e' =>
                    if sh.failed e'.world then some (e', i + 1)
                    else scExecBlock fuel e' (i + 1) stop
termination_by structural fuel => fuel

/-- The turns of a `for`. -/
def execFor : Nat → Engine ω → Text → List Text → Nat → Nat → Option (Engine ω)
  | 0, _, _, _, _, _ => none
  | _ + 1, e, _, [], _, _ => some e
  | fuel + 1, e, v, w :: ws, start, stop =>
      (scExecBlock fuel { e with world := sh.setvar v w e.world } start stop).bind fun r =>
        execFor fuel r.1 v ws start stop
termination_by structural fuel => fuel

/-- The turns of a `while`, of which `n` are left. -/
def execWhile : Nat → Engine ω → Text → Nat → Nat → Nat → Option (Engine ω)
  | 0, _, _, _, _, _ => none
  | _ + 1, e, _, 0, _, _ => some e
  | fuel + 1, e, c, n + 1, start, stop =>
      if sh.cond c e.world then
        (scExecBlock fuel e start stop).bind fun r => execWhile fuel r.1 c n start stop
      else some e
termination_by structural fuel => fuel

/-- `sc_exec_line`. -/
def scExecLine : Nat → Engine ω → Text → Option (Engine ω)
  | 0, _, _ => none
  | fuel + 1, e, line =>
      match funcFind e.funcs (cmdName line) with
      | some f =>
          (scExecBlock fuel (enterCall e f) 0 f.body.length).map fun r => leaveCall e r.1
      | none => execWork fuel e (sh.execute (line.take 255) e.world)
termination_by structural fuel => fuel

/-- `shell_execute`, with the scripts it runs. -/
def execWork : Nat → Engine ω → Work ω → Option (Engine ω)
  | 0, _, _ => none
  | _ + 1, e, .done w => some { e with world := w }
  | fuel + 1, e, .script data w next =>
      (scExecBlock fuel (loadScript e data w) 0 (splitScript data).length).bind fun r =>
        execWork fuel r.1 (next r.1.world)
termination_by structural fuel => fuel

end

/-! ## Fuel -/

/-- What has a value with some fuel has the same with more of it. -/
structure MoreFuel (fuel : Nat) : Prop where
  block : ∀ e i stop r, scExecBlock sh fuel e i stop = some r →
    scExecBlock sh (fuel + 1) e i stop = some r
  forLoop : ∀ e v ws start stop r, execFor sh fuel e v ws start stop = some r →
    execFor sh (fuel + 1) e v ws start stop = some r
  whileLoop : ∀ e c n start stop r, execWhile sh fuel e c n start stop = some r →
    execWhile sh (fuel + 1) e c n start stop = some r
  line : ∀ e l r, scExecLine sh fuel e l = some r → scExecLine sh (fuel + 1) e l = some r
  work : ∀ e w r, execWork sh fuel e w = some r → execWork sh (fuel + 1) e w = some r

theorem bind_more {α β : Type} {x y : Option α} {f g : α → Option β} {b : β}
    (hxy : ∀ a, x = some a → y = some a) (hfg : ∀ a b, f a = some b → g a = some b)
    (h : x.bind f = some b) : y.bind g = some b := by
  obtain ⟨a, ha, hb⟩ := Option.bind_eq_some_iff.mp h
  exact Option.bind_eq_some_iff.mpr ⟨a, hxy a ha, hfg a b hb⟩

namespace MoreFuel
variable {sh} {fuel : Nat}

theorem block_succ (h : MoreFuel sh fuel) (e : Engine ω) (i stop : Nat) (r : Engine ω × Nat)
    (hrun : scExecBlock sh (fuel + 1) e i stop = some r) :
    scExecBlock sh (fuel + 1 + 1) e i stop = some r := by
  have hgo : ∀ (a : Engine ω) (j : Nat) (b : Engine ω × Nat),
      scExecBlock sh fuel a j stop = some b → scExecBlock sh (fuel + 1) a j stop = some b :=
    fun a j b => h.block a j stop b
  rw [scExecBlock] at hrun ⊢
  dsimp only at hrun ⊢
  by_cases hend : stop ≤ i
  · rwa [if_pos hend] at hrun ⊢
  rw [if_neg hend] at hrun ⊢
  by_cases hskip : e.line i = [] ∨ (e.line i).head? = some 0x23
  · rw [if_pos hskip] at hrun ⊢
    exact hgo _ _ _ hrun
  rw [if_neg hskip] at hrun ⊢
  by_cases hif : kwIf.isPrefixOf (e.line i) = true
  · rw [if_pos hif] at hrun ⊢
    split at hrun
    · rw [if_pos ‹_›]
      exact bind_more (h.block _ _ _) (fun a => hgo _ _) hrun
    · rw [if_neg ‹_›]
      split at hrun
      · exact bind_more (h.block _ _ _) (fun a => hgo _ _) hrun
      · exact hgo _ _ _ hrun
  rw [if_neg hif] at hrun ⊢
  by_cases hfor : kwFor.isPrefixOf (e.line i) = true
  · rw [if_pos hfor] at hrun ⊢
    exact bind_more (h.forLoop _ _ _ _ _) (fun a => hgo _ _) hrun
  rw [if_neg hfor] at hrun ⊢
  by_cases hwhile : kwWhile.isPrefixOf (e.line i) = true
  · rw [if_pos hwhile] at hrun ⊢
    exact bind_more (h.whileLoop _ _ _ _ _) (fun a => hgo _ _) hrun
  rw [if_neg hwhile] at hrun ⊢
  by_cases hkw : isKeyword (e.line i) = true
  · rw [if_pos hkw] at hrun ⊢
    exact hgo _ _ _ hrun
  rw [if_neg hkw] at hrun ⊢
  split at hrun
  · exact hgo _ _ _ hrun
  · split at hrun
    · exact hgo _ _ _ hrun
    · refine bind_more (h.line _ _) ?_ hrun
      intro e' b hb
      split at hb
      · rw [if_pos ‹_›]
        exact hb
      · rw [if_neg ‹_›]
        exact hgo _ _ _ hb

theorem forLoop_succ (h : MoreFuel sh fuel) (e : Engine ω) (v : Text) (ws : List Text)
    (start stop : Nat) (r : Engine ω) (hrun : execFor sh (fuel + 1) e v ws start stop = some r) :
    execFor sh (fuel + 1 + 1) e v ws start stop = some r := by
  cases ws with
  | nil => exact hrun
  | cons w ws =>
      rw [execFor] at hrun ⊢
      exact bind_more (h.block _ _ _) (fun a => h.forLoop _ _ _ _ _) hrun

theorem whileLoop_succ (h : MoreFuel sh fuel) (e : Engine ω) (c : Text) (n start stop : Nat)
    (r : Engine ω) (hrun : execWhile sh (fuel + 1) e c n start stop = some r) :
    execWhile sh (fuel + 1 + 1) e c n start stop = some r := by
  cases n with
  | zero => exact hrun
  | succ n =>
      rw [execWhile] at hrun ⊢
      split at hrun
      · rw [if_pos ‹_›]
        exact bind_more (h.block _ _ _) (fun a => h.whileLoop _ _ _ _ _) hrun
      · rw [if_neg ‹_›]
        exact hrun

theorem line_succ (h : MoreFuel sh fuel) (e : Engine ω) (l : Text) (r : Engine ω)
    (hrun : scExecLine sh (fuel + 1) e l = some r) :
    scExecLine sh (fuel + 1 + 1) e l = some r := by
  rw [scExecLine] at hrun ⊢
  split at hrun
  · obtain ⟨a, ha, rfl⟩ := Option.map_eq_some_iff.mp hrun
    exact Option.map_eq_some_iff.mpr ⟨a, h.block _ _ _ _ ha, rfl⟩
  · exact h.work _ _ _ hrun

theorem work_succ (h : MoreFuel sh fuel) (e : Engine ω) (w : Work ω) (r : Engine ω)
    (hrun : execWork sh (fuel + 1) e w = some r) : execWork sh (fuel + 1 + 1) e w = some r := by
  cases w with
  | done w => exact hrun
  | script data w next =>
      rw [execWork] at hrun ⊢
      exact bind_more (h.block _ _ _) (fun a => h.work _ _) hrun

end MoreFuel

theorem moreFuel (fuel : Nat) : MoreFuel sh fuel := by
  induction fuel with
  | zero =>
      refine ⟨?_, ?_, ?_, ?_, ?_⟩
      all_goals intros; contradiction
  | succ fuel ih =>
      exact ⟨ih.block_succ, ih.forLoop_succ, ih.whileLoop_succ, ih.line_succ, ih.work_succ⟩

end Execute

end OriaOS.Shell.Script
