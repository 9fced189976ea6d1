import Mathlib.Data.Option.Basic

/-!
# Chains of links

A partial function that leads from a point to the next, where there is one. A chain
starts at a point and ends where no link leads on, or it never ends.
-/

namespace OriaOS.Lib

variable {α : Type*} {next : α → Option α} {a b c : α} {n m : Nat}

/-- The point `n` links behind a point, if the chain is that long. -/
def follow (next : α → Option α) : Nat → α → Option α
  | 0, a => some a
  | n + 1, a => (next a).bind (follow next n)

/-- The chain has `n` links and ends at `b`. -/
def EndsIn (next : α → Option α) (a : α) (n : Nat) (b : α) : Prop :=
  follow next n a = some b ∧ next b = none

/-- The chain never ends. -/
def Endless (next : α → Option α) (a : α) : Prop := ∀ n, follow next n a ≠ none

theorem follow_link (h : next a = some b) (n : Nat) : follow next (n + 1) a = follow next n b := by
  rw [follow, h, Option.bind_some]

theorem follow_stop (h : next a = none) (n : Nat) : follow next (n + 1) a = none := by
  rw [follow, h, Option.bind_none]

theorem endsIn_zero (h : next a = none) : EndsIn next a 0 a := ⟨rfl, h⟩

theorem endsIn_link (h : next a = some b) : EndsIn next a (n + 1) c ↔ EndsIn next b n c := by
  rw [EndsIn, EndsIn, follow_link h]

/-- A chain without links ends where it starts. -/
theorem EndsIn.of_stop (h : EndsIn next a n b) (hstop : next a = none) : n = 0 ∧ b = a := by
  cases n with
  | zero => exact ⟨rfl, (Option.some.inj h.1).symm⟩
  | succ n =>
      have hn := h.1
      rw [follow_stop hstop] at hn
      cases hn

end OriaOS.Lib
