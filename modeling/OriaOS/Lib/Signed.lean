import Mathlib.Data.Int.Init

/-!
# Signed words

A whole number as an `int` of 32 bits keeps it.
-/

namespace OriaOS.Lib

/-- A number stored in an `int`. -/
def asInt32 (x : Int) : Int := Int.bmod x 4294967296

theorem asInt32_eq {x : Int} (hlow : -2147483648 ≤ x) (hhigh : x < 2147483648) :
    asInt32 x = x := by
  apply Int.bmod_eq_of_le
  · exact hlow
  · exact hhigh

/-- Past the largest `int` the numbers start again at the smallest. -/
theorem asInt32_wrapped {x : Int} (hlow : 2147483648 ≤ x) (hhigh : x < 6442450944) :
    asInt32 x = x - 4294967296 := by
  rw [asInt32, Int.bmod_def]
  omega

/-- Only the residue counts. -/
theorem asInt32_add_asInt32 (x y : Int) : asInt32 (x + asInt32 y) = asInt32 (x + y) :=
  Int.add_bmod_bmod

end OriaOS.Lib
