import Mathlib.Data.UInt

/-!
# Computations that stop at a fault

A computation that divides and reads arrays stops at the first division by zero and at the first
access outside an array, and where the fuel runs out.
-/

namespace OriaOS.Lib

universe u v

/-- Why a computation has no value. -/
inductive Stop
  | divideByZero
  | outside
  | fuel
  deriving DecidableEq

/-- A computation that may stop. -/
abbrev Faulting (α : Type u) := Except Stop α

namespace Faulting

variable {α : Type u} {β : Type u}

/-- The value of a sequence. -/
theorem toOption_bind (x : Faulting α) (f : α → Faulting β) :
    (x >>= f).toOption = x.toOption.bind fun a => (f a).toOption := by
  cases x <;> rfl

theorem toOption_pure (a : α) : (pure a : Faulting α).toOption = some a := rfl

end Faulting

end OriaOS.Lib
