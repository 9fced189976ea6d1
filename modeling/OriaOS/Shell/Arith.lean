import Mathlib
import OriaOS.Lib.Buffers
import OriaOS.Lib.Decimal
import OriaOS.Shell.Vars

/-!
# Arithmetic expansion

`arith_primary`, `arith_term` and `arith_expr` evaluate a text, and `shell_expand_arith` puts the
number in the place of `$((…))`. A `long` has 64 bits. The evaluation reads whatever is there: it
has no errors, and the only thing that stops it is the division of the least `long` by -1.
-/

namespace OriaOS.Shell.Arith

open OriaOS.Lib OriaOS.Lib.Faulting OriaOS.Shell.Vars
open OriaOS.Lib.Decimal (isDigit)

/-- A value of type `long`. -/
def long (x : Int) : Int := Int.bmod x 18446744073709551616

/-- What a name begins with. -/
def isLetter (c : UInt8) : Bool :=
  (0x61 ≤ c && c ≤ 0x7A) || (0x41 ≤ c && c ≤ 0x5A) || c = 0x5F

def dropSpaces (p : Text) : Text := p.dropWhile fun c => c = 0x20

/-- `if (*s == c) s++`. -/
def skip (c : UInt8) (s : Text) : Text := if s.head? = some c then s.tail else s

/-- The number at the front of a text. -/
def digitsValue (s : Text) : Int :=
  (s.takeWhile isDigit).foldl (fun v c => long (v * 10 + (c.toNat - 48))) 0

/-- The number in the value of a variable. -/
def envValue (val : Text) : Int :=
  if val.head? = some 0x2D then long (-digitsValue val.tail) else digitsValue val

/-- `v / b`. The processor stops at a quotient that is no `long`, as at a division by zero. -/
def quotient (v b : Int) : Faulting Int :=
  if b = 0 then pure 0
  else if v = -9223372036854775808 ∧ b = -1 then .error .divideByZero
  else pure (v.tdiv b)

/-- `v % b`, by the same instruction. -/
def remainder (v b : Int) : Faulting Int :=
  if b = 0 then pure 0
  else if v = -9223372036854775808 ∧ b = -1 then .error .divideByZero
  else pure (v.tmod b)

/-- The variables and the numbers of `arith_primary`. -/
def operand (env : Env) (s : Text) : Faulting (Int × Text) :=
  let s := skip 0x24 s
  if s.head?.any isLetter then do
    let r ← fill 24 23 isWord [] s
    let vname ← close 24 r.1
    pure (((findVar env vname).map envValue).getD 0, r.2)
  else pure (digitsValue s, s.dropWhile isDigit)

mutual

/-- `arith_primary`: the value, and the text behind it. -/
def arithPrimary (env : Env) : Nat → Text → Faulting (Int × Text)
  | 0, _ => .error .fuel
  | fuel + 1, p =>
      let s := dropSpaces p
      if s.head? = some 0x28 then do
        let r ← arithExpr env fuel s.tail
        pure (r.1, skip 0x29 (dropSpaces r.2))
      else if s.head? = some 0x2D then do
        let r ← arithPrimary env fuel s.tail
        pure (long (-r.1), r.2)
      else operand env s

/-- `arith_term`. -/
def arithTerm (env : Env) : Nat → Text → Faulting (Int × Text)
  | 0, _ => .error .fuel
  | fuel + 1, p => do
      let r ← arithPrimary env fuel p
      termLoop env fuel r.1 r.2

/-- The loop of `arith_term`. -/
def termLoop (env : Env) : Nat → Int → Text → Faulting (Int × Text)
  | 0, _, _ => .error .fuel
  | fuel + 1, v, p =>
      let s := dropSpaces p
      if s.head? = some 0x2A then do
        let r ← arithPrimary env fuel s.tail
        termLoop env fuel (long (v * r.1)) r.2
      else if s.head? = some 0x2F then do
        let r ← arithPrimary env fuel s.tail
        let q ← quotient v r.1
        termLoop env fuel q r.2
      else if s.head? = some 0x25 then do
        let r ← arithPrimary env fuel s.tail
        let q ← remainder v r.1
        termLoop env fuel q r.2
      else pure (v, p)

/-- `arith_expr`. -/
def arithExpr (env : Env) : Nat → Text → Faulting (Int × Text)
  | 0, _ => .error .fuel
  | fuel + 1, p => do
      let r ← arithTerm env fuel p
      exprLoop env fuel r.1 r.2

/-- The loop of `arith_expr`. -/
def exprLoop (env : Env) : Nat → Int → Text → Faulting (Int × Text)
  | 0, _, _ => .error .fuel
  | fuel + 1, v, p =>
      let s := dropSpaces p
      if s.head? = some 0x2B then do
        let r ← arithTerm env fuel s.tail
        exprLoop env fuel (long (v + r.1)) r.2
      else if s.head? = some 0x2D then do
        let r ← arithTerm env fuel s.tail
        exprLoop env fuel (long (v - r.1)) r.2
      else pure (v, p)

end

/-- Enough turns for a text: each level of calls on it takes one. -/
def arithFuel (p : Text) : Nat := 5 * p.length + 5

/-! ## What is left of a text -/

theorem dropSpaces_le (p : Text) : (dropSpaces p).length ≤ p.length :=
  (List.dropWhile_suffix _).length_le

theorem skip_le (c : UInt8) (s : Text) : (skip c s).length ≤ s.length := by
  unfold skip
  split
  · rw [List.length_tail]
    exact Nat.sub_le _ _
  · exact le_rfl

/-! ## The pass -/

/-- `$((` at the front of a text. -/
def startsArith (s : Text) : Bool := [0x24, 0x28, 0x28].isPrefixOf s

/-- The text up to `))`, and what is behind it. -/
def exprText : Text → Text → Faulting (Text × Text)
  | expr, [] => pure (expr, [])
  | expr, c :: rest =>
      if 126 ≤ expr.length then pure (expr, c :: rest)
      else if c = 0x29 ∧ rest.head? = some 0x29 then pure (expr, rest.tail)
      else do
        let expr ← push 128 expr c
        exprText expr rest

/-- The digits of a number, the last one first. -/
def tmpLoop : Nat → Nat → Text → Faulting Text
  | 0, _, _ => .error .fuel
  | fuel + 1, r, tmp =>
      if r = 0 then pure tmp
      else do
        let tmp ← push 20 tmp (UInt8.ofNat (0x30 + r % 10))
        tmpLoop fuel (r / 10) tmp

/-- `if (r < 0) arith_out[oi++] = '-'`. -/
def putSign (out : Text) (result : Int) : Faulting Text :=
  if result < 0 then push 512 out 0x2D else pure out

/-- A number goes to `arith_out`. The least `long` is its own negative and has no digits. -/
def putNumber (out : Text) (result : Int) : Faulting Text := do
  let out ← putSign out result
  let r := if result < 0 then long (-result) else result
  if r = 0 then push 512 out 0x30
  else do
    let tmp ← tmpLoop 20 r.toNat []
    append 512 510 out tmp.reverse

/-- The loop of `shell_expand_arith`. Each turn reads at least one byte. -/
def arithLoop (env : Env) : Nat → Text → Text → Faulting Text
  | 0, _, _ => .error .fuel
  | _ + 1, [], out => pure out
  | fuel + 1, c :: rest, out =>
      if 510 ≤ out.length then pure out
      else if startsArith (c :: rest) then do
        let r ← exprText [] (rest.drop 2)
        let expr ← close 128 r.1
        let v ← arithExpr env (arithFuel expr) expr
        let out ← putNumber out v.1
        arithLoop env fuel r.2 out
      else do
        let out ← push 512 out c
        arithLoop env fuel rest out

/-- `shell_expand_arith` up to its copy: `arith_out`, or nothing where there is no `$((`. -/
def shellExpandArith (env : Env) (line : Text) : Faulting (Option Text) :=
  if line.tails.any startsArith then do
    let out ← arithLoop env (line.length + 1) line []
    let out ← close 512 out
    pure (some out)
  else pure none

end OriaOS.Shell.Arith
