import Mathlib
import OriaOS.Shell.Execute

/-!
# Arithmetic from end to end

An integer expression as a tree, its text and its value, and what `shell_execute` makes of
`$((…))` in a line. The variables are expanded first, and there a `$` in front of a parenthesis
is a variable without a name: it is dropped, and nothing is left of the `$((` that
`shell_expand_arith` looks for.
-/

namespace OriaOS.Shell.Expansion

open OriaOS.Lib OriaOS.Lib.Faulting OriaOS.Shell.Vars OriaOS.Shell.Arith OriaOS.Shell.Passes
open OriaOS.Shell.Execute
open OriaOS.Lib.Decimal (isDigit)

variable {s : ShellVars} {tmp : Text} {c : UInt8} {w : World}

/-! ## Expressions -/

def IsName (name : Text) : Prop := name.head?.any isLetter = true ∧ name.all isWord = true

def IsNumber (s : Text) : Prop := s ≠ [] ∧ s.all isDigit = true

instance (name : Text) : Decidable (IsName name) := inferInstanceAs (Decidable (_ ∧ _))

instance (s : Text) : Decidable (IsNumber s) := inferInstanceAs (Decidable (_ ∧ _))

inductive MulOp
  | times
  | over
  | mod

inductive AddOp
  | plus
  | minus

mutual

/-- An operand, with the number of spaces in front of it. -/
inductive Primary
  | number (spaces : Nat) (s : Text) (h : IsNumber s)
  | var (spaces : Nat) (dollar : Bool) (name : Text) (h : IsName name)
  | neg (spaces : Nat) (p : Primary)
  | paren (spaces : Nat) (e : Expr) (close : Nat)

inductive Term
  | one (p : Primary)
  | op (t : Term) (spaces : Nat) (o : MulOp) (p : Primary)

/-- An integer expression. -/
inductive Expr
  | one (t : Term)
  | op (e : Expr) (spaces : Nat) (o : AddOp) (t : Term)

end

def blanks (n : Nat) : Text := List.replicate n 0x20

def MulOp.char : MulOp → UInt8
  | .times => 0x2A
  | .over => 0x2F
  | .mod => 0x25

def AddOp.char : AddOp → UInt8
  | .plus => 0x2B
  | .minus => 0x2D

/-- A division by zero has the value that the code gives it. -/
def MulOp.apply (a b : Int) : MulOp → Int
  | .times => a * b
  | .over => if b = 0 then 0 else a.tdiv b
  | .mod => if b = 0 then 0 else a.tmod b

def AddOp.apply (a b : Int) : AddOp → Int
  | .plus => a + b
  | .minus => a - b

/-- The integer that a variable holds. -/
def varValue (env : Env) (name : Text) : Int :=
  let val := scGetvar env name
  if val.head? = some 0x2D then -(Decimal.value 0 (val.tail.takeWhile isDigit))
  else Decimal.value 0 (val.takeWhile isDigit)

mutual

def Primary.text : Primary → Text
  | .number spaces s _ => blanks spaces ++ s
  | .var spaces dollar name _ => blanks spaces ++ (if dollar then [0x24] else []) ++ name
  | .neg spaces p => blanks spaces ++ 0x2D :: p.text
  | .paren spaces e close => blanks spaces ++ 0x28 :: (e.text ++ blanks close ++ [0x29])

def Term.text : Term → Text
  | .one p => p.text
  | .op t spaces o p => t.text ++ blanks spaces ++ o.char :: p.text

def Expr.text : Expr → Text
  | .one t => t.text
  | .op e spaces o t => e.text ++ blanks spaces ++ o.char :: t.text

end

mutual

def Primary.value (env : Env) : Primary → Int
  | .number _ s _ => Decimal.value 0 s
  | .var _ _ name _ => varValue env name
  | .neg _ p => -p.value env
  | .paren _ e _ => e.value env

def Term.value (env : Env) : Term → Int
  | .one p => p.value env
  | .op t _ o p => o.apply (t.value env) (p.value env)

def Expr.value (env : Env) : Expr → Int
  | .one t => t.value env
  | .op e _ o t => o.apply (e.value env) (t.value env)

end

/-- A number in decimal. -/
def decimal (n : Int) : Text :=
  if n < 0 then 0x2D :: Decimal.digits n.natAbs else Decimal.digits n.natAbs

/-! ## Lines -/

/-- A line with an expression in it. -/
def arithText (pre : Text) (e : Expr) (spaces : Nat) (post : Text) : Text :=
  pre ++ 0x24 :: 0x28 :: 0x28 :: (e.text ++ blanks spaces ++ 0x29 :: 0x29 :: post)

/-- A command line with an expression in it. -/
structure ArithLine where
  pre : Text
  expr : Expr
  spaces : Nat
  post : Text
  fits : (arithText pre expr spaces post).length ≤ 255
  nonzero : (0 : UInt8) ∉ arithText pre expr spaces post

def ArithLine.text (l : ArithLine) : Text := arithText l.pre l.expr l.spaces l.post

/-- The line behind the first three passes of `shell_execute`, unless it is an assignment. -/
def arithLine (w : World) : Faulting (Option Text) := do
  let w := { w with lastExitCode := 0 }
  let assignment ← readAssignment w.line
  match assignment with
  | some _ => pure none
  | none => do
      let w ← expandFront w
      pure (some w.line)

/-- What the passes make of a part of a line that stands alone. -/
def part (w : World) (text : Text) : Option Text :=
  (expandFront ({ w with lastExitCode := 0 }.setLine text)).toOption.map World.line

/-- The expression is replaced by its value, and the rest of the line is expanded as if it were
not there, whatever the variables are. -/
def ArithLine.Expands (l : ArithLine) : Prop :=
  ∀ w : World, w.aliases = [] → w.line = l.text → ∀ x y, part w l.pre = some x →
    part w l.post = some y →
      arithLine w = pure (some (x ++ decimal (l.expr.value w.env) ++ y))

/-! ## The expansion of variables, without variables -/

theorem putTmp_keeps (tmp bytes : Text) : tmp <+: putTmp tmp bytes := by
  rw [putTmp_eq]
  exact List.prefix_append _ _

theorem putExitCode_zero (tmp : Text) : putExitCode tmp 0 = putTmp tmp [0x30] := rfl

theorem mem_putTmp {bytes : Text} (h : c ∈ putTmp tmp bytes) : c ∈ tmp ∨ c ∈ bytes :=
  List.mem_append.mp (List.mem_of_mem_take h)

theorem putTmp_nil (tmp : Text) : putTmp tmp [] = tmp := by
  rw [putTmp_eq, List.take_nil, List.append_nil]

/-- A state without variables. -/
structure NoVars (s : ShellVars) : Prop where
  env : s.env = []
  code : s.lastExitCode = 0
  current : (itoa s.current).length = 1

theorem NoVars.get (hs : NoVars s) (name : Text) : scGetvar s.env name = [] := by
  rw [hs.env]
  rfl

/-- What was written stays. -/
theorem expandLoop_keeps (hs : NoVars s) (fuel : Nat) (rest tmp : Text) :
    tmp <+: expandLoop s fuel rest tmp := by
  induction fuel generalizing rest tmp with
  | zero => exact List.prefix_rfl
  | succ fuel ih =>
      cases rest with
      | nil => exact List.prefix_rfl
      | cons c rest =>
          unfold expandLoop
          split_ifs
          · exact List.prefix_rfl
          · rw [hs.code, putExitCode_zero]
            exact (putTmp_keeps _ _).trans (ih _ _)
          · exact (putTmp_keeps _ _).trans (ih _ _)
          · exact (putTmp_keeps _ _).trans (ih _ _)
          · exact (List.prefix_append _ _).trans (ih _ _)

/-- A byte of the new line is one of the old line other than a `$`, or a digit. -/
theorem mem_expandLoop (hs : NoVars s) {fuel : Nat} {rest : Text}
    (h : c ∈ expandLoop s fuel rest tmp) : c ∈ tmp ∨ (c ∈ rest ∧ c ≠ 0x24) ∨ isDigit c = true := by
  induction fuel generalizing rest tmp with
  | zero => exact Or.inl h
  | succ fuel ih =>
      cases rest with
      | nil => exact Or.inl h
      | cons d rest =>
          -- A turn appends digits or nothing, and goes on with a suffix of the rest.
          have hturn : ∀ {more bytes : Text}, more <:+ rest → (∀ b ∈ bytes, isDigit b = true) →
              c ∈ expandLoop s fuel more (putTmp tmp bytes) →
                c ∈ tmp ∨ (c ∈ d :: rest ∧ c ≠ 0x24) ∨ isDigit c = true := by
            intro more bytes hmore hbytes hc
            obtain htmp | ⟨hrest, hne⟩ | hdigit := ih hc
            · obtain hold | hnew := mem_putTmp htmp
              · exact Or.inl hold
              · exact Or.inr (Or.inr (hbytes c hnew))
            · exact Or.inr (Or.inl ⟨List.mem_cons_of_mem _ (hmore.subset hrest), hne⟩)
            · exact Or.inr (Or.inr hdigit)
          unfold expandLoop at h
          split_ifs at h with hfull hdollar hcode hpid
          · exact Or.inl h
          · rw [hs.code, putExitCode_zero] at h
            exact hturn (List.tail_suffix _)
              (fun b hb => by rw [List.mem_singleton.mp hb]; rfl) h
          · exact hturn (List.tail_suffix _) (fun b hb => Decimal.isDigit_of_mem hb) h
          · dsimp only at h
            rw [hs.get] at h
            exact hturn (List.drop_suffix _ _) (fun b hb => absurd hb List.not_mem_nil) h
          · obtain htmp | ⟨hrest, hne⟩ | hdigit := ih h
            · obtain hold | hnew := List.mem_append.mp htmp
              · exact Or.inl hold
              · rw [List.mem_singleton.mp hnew]
                exact Or.inr (Or.inl ⟨List.mem_cons_self, hdollar⟩)
            · exact Or.inr (Or.inl ⟨List.mem_cons_of_mem _ hrest, hne⟩)
            · exact Or.inr (Or.inr hdigit)

theorem takeWhile_append_stop {p : UInt8 → Bool} {d : UInt8} (hd : p d = false) (a b : Text) :
    (a ++ d :: b).takeWhile p = a.takeWhile p := by
  induction a with
  | nil => exact List.takeWhile_cons_of_neg (by rw [hd]; exact Bool.false_ne_true)
  | cons c a ih =>
      by_cases hc : p c = true
      · rw [List.cons_append, List.takeWhile_cons_of_pos hc, List.takeWhile_cons_of_pos hc, ih]
      · rw [List.cons_append, List.takeWhile_cons_of_neg hc, List.takeWhile_cons_of_neg hc]

theorem expandLoop_nil (s : ShellVars) (fuel : Nat) (tmp : Text) :
    expandLoop s fuel [] tmp = tmp := by
  cases fuel <;> rfl

/-- A variable is dropped. -/
theorem expandLoop_dollar (hs : NoVars s) (fuel : Nat) {rest : Text} (hroom : tmp.length < 254)
    (hcode : rest.head? ≠ some 0x3F) (hpid : rest.head? ≠ some 0x24) :
    expandLoop s (fuel + 1) (0x24 :: rest) tmp =
      expandLoop s fuel (rest.drop ((rest.takeWhile isWord).take 23).length) tmp := by
  rw [expandLoop, if_neg (by omega), if_pos rfl, if_neg hcode, if_neg hpid]
  dsimp only
  rw [hs.get, putTmp_nil]

/-- `$?` and `$$`. -/
theorem expandLoop_code (hs : NoVars s) (fuel : Nat) (rest : Text) (hroom : tmp.length < 254) :
    expandLoop s (fuel + 1) (0x24 :: 0x3F :: rest) tmp =
      expandLoop s fuel rest (putTmp tmp [0x30]) := by
  rw [expandLoop, if_neg (by omega), if_pos rfl, if_pos List.head?_cons, hs.code,
    putExitCode_zero, List.tail_cons]

theorem expandLoop_pid (s : ShellVars) (fuel : Nat) (rest : Text) (hroom : tmp.length < 254) :
    expandLoop s (fuel + 1) (0x24 :: 0x24 :: rest) tmp =
      expandLoop s fuel rest (putTmp tmp (itoa s.current)) := by
  have hcode : (0x24 :: rest).head? ≠ some 0x3F := by
    rw [List.head?_cons]
    decide
  rw [expandLoop, if_neg (by omega), if_pos rfl, if_neg hcode, if_pos List.head?_cons,
    List.tail_cons]

theorem expandLoop_char (s : ShellVars) (fuel : Nat) (rest : Text) (hroom : tmp.length < 254)
    (hc : c ≠ 0x24) :
    expandLoop s (fuel + 1) (c :: rest) tmp = expandLoop s fuel rest (tmp ++ [c]) := by
  rw [expandLoop, if_neg (by omega), if_neg hc]

theorem putTmp_le_add (tmp bytes : Text) :
    (putTmp tmp bytes).length ≤ tmp.length + bytes.length := by
  rw [putTmp, ← List.length_append]
  exact List.length_take_le' _ _

/-- Where a `$` is in front of a parenthesis, the parenthesis follows the text in front of the
two, or the number of the task does, when that text ends in a `$` of its own. -/
theorem expandLoop_split (hs : NoVars s) (y : Text) {fuel n : Nat} {pre : Text}
    (hn : pre.length ≤ n) (hfuel : pre.length + 2 ≤ fuel) (hroom : tmp.length + pre.length < 254) :
    ∃ c, (c = 0x28 ∨ (itoa s.current).head? = some c) ∧
      expandLoop s n pre tmp ++ [c] <+: expandLoop s fuel (pre ++ 0x24 :: 0x28 :: y) tmp := by
  induction fuel generalizing pre tmp n with
  | zero => omega
  | succ fuel ih =>
      cases pre with
      | nil =>
          obtain _ | fuel := fuel
          · rw [List.length_nil] at hfuel
            omega
          have hparen : (0x28 :: y).takeWhile isWord = [] :=
            List.takeWhile_cons_of_neg (by decide)
          refine ⟨0x28, Or.inl rfl, ?_⟩
          rw [expandLoop_nil, List.nil_append,
            expandLoop_dollar hs _ (by omega) (by rw [List.head?_cons]; decide)
              (by rw [List.head?_cons]; decide),
            hparen, List.take_nil, List.length_nil, List.drop_zero,
            expandLoop_char s _ _ (by omega) (by decide)]
          exact expandLoop_keeps hs _ _ _
      | cons c pre =>
          rw [List.length_cons] at hn hfuel hroom
          obtain _ | n := n
          · cases hn
          by_cases hc : c = 0x24
          · subst hc
            cases pre with
            | nil =>
                -- The two `$` are the number of the task.
                obtain ⟨d, hd⟩ := List.length_eq_one_iff.mp hs.current
                have hput : putTmp tmp [d] = tmp ++ [d] := by
                  rw [putTmp_eq, List.take_of_length_le (by rw [List.length_singleton]; omega)]
                refine ⟨d, Or.inr (by rw [hd]; rfl), ?_⟩
                rw [expandLoop_dollar hs _ (by omega) (by decide) (by decide), List.takeWhile_nil,
                  List.take_nil, List.length_nil, List.drop_zero, expandLoop_nil, List.cons_append,
                  List.nil_append, expandLoop_pid s _ _ (by omega), hd, hput]
                exact expandLoop_keeps hs _ _ _
            | cons d q =>
                rw [List.length_cons] at hn hfuel hroom
                by_cases hcode : d = 0x3F
                · have hlen := putTmp_le_add tmp [0x30]
                  rw [List.length_singleton] at hlen
                  subst hcode
                  rw [List.cons_append, List.cons_append, expandLoop_code hs _ _ (by omega),
                    expandLoop_code hs _ _ (by omega)]
                  exact ih (by omega) (by omega) (by omega)
                · by_cases hpid : d = 0x24
                  · have hlen := putTmp_le_add tmp (itoa s.current)
                    rw [hs.current] at hlen
                    subst hpid
                    rw [List.cons_append, List.cons_append, expandLoop_pid s _ _ (by omega),
                      expandLoop_pid s _ _ (by omega)]
                    exact ih (by omega) (by omega) (by omega)
                  · have hcode' : ∀ rest : Text, (d :: rest).head? ≠ some 0x3F :=
                      fun rest h => hcode (Option.some.inj h)
                    have hpid' : ∀ rest : Text, (d :: rest).head? ≠ some 0x24 :=
                      fun rest h => hpid (Option.some.inj h)
                    have hname : (((d :: q).takeWhile isWord).take 23).length ≤ (d :: q).length :=
                      Nat.le_trans (List.length_take_le' _ _) (List.takeWhile_prefix _).length_le
                    rw [List.cons_append, expandLoop_dollar hs _ (by omega) (hcode' _) (hpid' _),
                      List.cons_append, expandLoop_dollar hs _ (by omega) (hcode' _) (hpid' _),
                      ← List.cons_append, takeWhile_append_stop (by decide),
                      List.drop_append_of_le_length hname]
                    have hdrop : ((d :: q).drop
                        (((d :: q).takeWhile isWord).take 23).length).length ≤ q.length + 1 := by
                      rw [List.length_drop, List.length_cons]
                      exact Nat.sub_le _ _
                    exact ih (by omega) (by omega) (by omega)
          · rw [List.cons_append, expandLoop_char s _ _ (by omega) hc,
              expandLoop_char s _ _ (by omega) hc]
            exact ih (by omega) (by omega)
              (by rw [List.length_append, List.length_singleton]; omega)

/-! ## A state without variables and aliases -/

theorem zero_notMem_line (w : World) : (0 : UInt8) ∉ w.line :=
  fun h => absurd (List.mem_takeWhile_imp h) (by decide)

/-- Without a `$` there is nothing to evaluate. -/
theorem shellExpandArith_plain (env : Env) {line : Text} (hline : (0x24 : UInt8) ∉ line) :
    shellExpandArith env line = pure none := by
  refine if_neg fun hany => ?_
  obtain ⟨s, hs, hstart⟩ := List.any_eq_true.mp hany
  have hprefix : [0x24, 0x28, 0x28] <+: s := List.isPrefixOf_iff_prefix.mp hstart
  have hmem : (0x24 : UInt8) ∈ s := hprefix.subset List.mem_cons_self
  exact hline (((List.mem_tails _ _).mp hs).subset hmem)

/-- A state without variables and aliases, in a task whose number has one digit. -/
structure Plain (w : World) : Prop where
  vars : NoVars w.vars
  aliases : w.aliases = []

theorem Plain.expandFront (hw : Plain w) :
    expandFront w = pure (w.enter (Vars.shellExpandVars w.vars w.line)) ∧
      (w.enter (Vars.shellExpandVars w.vars w.line)).line = Vars.shellExpandVars w.vars w.line := by
  have hmem : ∀ c ∈ Vars.shellExpandVars w.vars w.line, c ∈ w.line ∧ c ≠ 0x24 ∨ isDigit c := by
    intro c hc
    obtain hnil | hrest := mem_expandLoop hw.vars hc
    · exact absurd hnil List.not_mem_nil
    · exact hrest
  have hzero : (0 : UInt8) ∉ Vars.shellExpandVars w.vars w.line := by
    intro h
    obtain ⟨hline, _⟩ | hdigit := hmem 0 h
    · exact zero_notMem_line w hline
    · exact absurd hdigit (by decide)
  have hdollar : (0x24 : UInt8) ∉ Vars.shellExpandVars w.vars w.line := by
    intro h
    obtain ⟨_, hne⟩ | hdigit := hmem _ h
    · exact hne rfl
    · exact absurd hdigit (by decide)
  have hlen : (Vars.shellExpandVars w.vars w.line).length ≤ 255 :=
    Nat.le_trans (expandLoop_le _ _ (Nat.zero_le _)) (by decide)
  have hline : (w.enter (Vars.shellExpandVars w.vars w.line)).line =
      Vars.shellExpandVars w.vars w.line := InputBuffer.line_put _ hlen hzero
  have hsame : substitutedVars w = w.enter (Vars.shellExpandVars w.vars w.line) := by
    have halias : (w.enter (Vars.shellExpandVars w.vars w.line)).aliases = [] := hw.aliases
    unfold substitutedVars
    dsimp only
    rw [halias]
    rfl
  refine ⟨?_, hline⟩
  rw [expandFront_eq hw.vars.code, hsame, hline, shellExpandArith_plain _ hdollar, pure_bind]
  rfl

/-- A part of a line that stands alone. -/
theorem Plain.part (hw : Plain w) {text : Text} (hlen : text.length ≤ 255)
    (hzero : (0 : UInt8) ∉ text) : part w text = some (Vars.shellExpandVars w.vars text) := by
  have hcode : w.lastExitCode = 0 := hw.vars.code
  have hvars : ({ w with lastExitCode := 0 }.setLine text).vars = w.vars := by
    rw [World.vars, World.vars, hcode]
    rfl
  have hline : ({ w with lastExitCode := 0 }.setLine text).line = text :=
    InputBuffer.line_put _ hlen hzero
  have hplain : Plain ({ w with lastExitCode := 0 }.setLine text) :=
    ⟨hvars ▸ hw.vars, hw.aliases⟩
  obtain ⟨hfront, henter⟩ := hplain.expandFront
  rw [Expansion.part, hfront, toOption_pure, Option.map_some, henter, hvars, hline]

/-- The state of a line without variables. -/
def plainWorld (current : Fin 32) (text : Text) : World where
  env := []
  aliases := []
  files := noFiles
  current := current
  lastExitCode := 0
  inputBuffer := InputBuffer.put ⟨List.replicate 256 0, zeros_size, zeros_ends⟩ text
  inputLen := 0
  inputLen_le := zero_inputLen
  subOut := fun _ => 0

theorem plain_plainWorld {current : Fin 32} (h : (itoa current).length = 1) (text : Text) :
    Plain (plainWorld current text) := ⟨⟨rfl, rfl, h⟩, rfl⟩

/-! ## The parenthesis stays -/

/-- A number in decimal begins with a digit or a minus. -/
theorem head_decimal (n : Int) : ∃ c, (decimal n).head? = some c ∧ c ≠ 0x28 := by
  have hdigits : ∃ c, (Decimal.digits n.natAbs).head? = some c ∧ c ≠ 0x28 := by
    cases hd : Decimal.digits n.natAbs with
    | nil => exact absurd (List.map_eq_nil_iff.mp hd) Nat.toDigits_ne_nil
    | cons c s =>
        have hdigit : isDigit c = true :=
          Decimal.isDigit_of_mem (n := n.natAbs) (by rw [hd]; exact List.mem_cons_self)
        refine ⟨c, rfl, ?_⟩
        rintro rfl
        exact absurd hdigit (by decide)
  unfold decimal
  split
  · exact ⟨0x2D, rfl, by decide⟩
  · exact hdigits

/-- The number of a task that does not begin a text. -/
theorem exists_task (c : UInt8) : ∃ t : Fin 32, (itoa t).length = 1 ∧ (itoa t).head? ≠ some c := by
  by_cases hc : c = 0x31
  · exact ⟨2, by decide, by rw [hc]; decide⟩
  · exact ⟨1, by decide, fun h => hc (Option.some.inj h).symm⟩

theorem ArithLine.length_text (l : ArithLine) :
    l.pre.length + 5 ≤ l.text.length ∧ l.post.length ≤ l.text.length := by
  unfold ArithLine.text arithText
  simp only [List.length_append, List.length_cons]
  omega

theorem ArithLine.zero_notMem (l : ArithLine) : (0 : UInt8) ∉ l.pre ∧ (0 : UInt8) ∉ l.post := by
  have hzero := l.nonzero
  unfold arithText at hzero
  simp only [List.mem_append, List.mem_cons, not_or] at hzero
  exact ⟨hzero.1, hzero.2.2.2.2.2.2.2⟩

/-- What a line without variables becomes. -/
theorem arithLine_plain (hw : Plain w) {out : Text} (h : arithLine w = pure (some out)) :
    out = Vars.shellExpandVars w.vars w.line := by
  have hsame : ({ w with lastExitCode := 0 } : World) = w := by
    have hcode : w.lastExitCode = 0 := hw.vars.code
    cases w
    cases hcode
    rfl
  obtain ⟨hfront, hline⟩ := hw.expandFront
  unfold arithLine at h
  dsimp only at h
  rw [hsame, readAssignment_eq, pure_bind] at h
  cases hassign : parseAssignment w.line with
  | some a =>
      rw [hassign] at h
      cases h
  | none =>
      rw [hassign] at h
      dsimp only at h
      rw [hfront, pure_bind, hline] at h
      cases h
      rfl

theorem isNumber_one : IsNumber [0x31] := by decide

theorem isNumber_two : IsNumber [0x32] := by decide

/-- `1+2`. -/
def onePlusTwo : Expr :=
  .op (.one (.one (.number 0 [0x31] isNumber_one))) 0 .plus (.one (.number 0 [0x32] isNumber_two))

/-- `echo `. -/
def echo : Text := [0x65, 0x63, 0x68, 0x6F, 0x20]

theorem echo_fits : (arithText echo onePlusTwo 0 []).length ≤ 255 := by decide

theorem echo_nonzero : (0 : UInt8) ∉ arithText echo onePlusTwo 0 [] := by decide

/-- `echo $((1+2))`. -/
def echoLine : ArithLine := ⟨echo, onePlusTwo, 0, [], echo_fits, echo_nonzero⟩

end OriaOS.Shell.Expansion
