import Mathlib.Data.List.Basic
import Mathlib.Tactic.Cases

/-!
# Absorbing a list block by block

A function that takes a state and a block runs over the whole blocks of a list, and what is left
at the end is shorter than a block. Both are the same when the list comes in pieces and what is
left of one piece is put in front of the next.
-/

namespace OriaOS.Lib.Blocks

variable {σ α : Type} {n : Nat}

/-- A number of blocks, one after the other. -/
def absorbN (n : Nat) (f : σ → List α → σ) : Nat → σ → List α → σ
  | 0, s, _ => s
  | k + 1, s, l => absorbN n f k (f s (l.take n)) (l.drop n)

/-- All whole blocks of a list. -/
def absorb (n : Nat) (f : σ → List α → σ) (s : σ) (l : List α) : σ := absorbN n f (l.length / n) s l

/-- What stands behind the last whole block. -/
def rest (n : Nat) (l : List α) : List α := l.drop (l.length / n * n)

section
variable {f : σ → List α → σ} {s : σ} {l : List α}

theorem absorb_of_lt (h : l.length < n) : absorb n f s l = s := by
  rw [absorb, Nat.div_eq_of_lt h]
  rfl

theorem rest_of_lt (h : l.length < n) : rest n l = l := by
  rw [rest, Nat.div_eq_of_lt h, Nat.zero_mul]
  rfl

@[simp] theorem absorb_nil : absorb n f s [] = s := by
  rw [absorb, List.length_nil, Nat.zero_div]
  rfl

@[simp] theorem rest_nil : rest n ([] : List α) = [] := List.drop_nil

theorem absorb_of_le (hn : 0 < n) (h : n ≤ l.length) :
    absorb n f s l = absorb n f (f s (l.take n)) (l.drop n) := by
  rw [absorb, absorb, List.length_drop, Nat.div_eq_sub_div hn h]
  rfl

theorem rest_of_le (hn : 0 < n) (h : n ≤ l.length) : rest n l = rest n (l.drop n) := by
  rw [rest, rest, List.length_drop, List.drop_drop, Nat.div_eq_sub_div hn h, Nat.succ_mul,
    Nat.add_comm]

theorem length_rest (n : Nat) (l : List α) : (rest n l).length = l.length % n := by
  rw [rest, List.length_drop, Nat.mod_eq_sub_div_mul]

/-- What is left is what a list has behind the blocks of a first part, and the other part. -/
theorem absorb_append (hn : 0 < n) (a b : List α) (s : σ) :
    absorb n f s (a ++ b) = absorb n f (absorb n f s a) (rest n a ++ b) := by
  induction h : a.length using Nat.strongRecOn generalizing a s with
  | ind k ih =>
      rcases Nat.lt_or_ge a.length n with hlt | hle
      · rw [absorb_of_lt hlt, rest_of_lt hlt]
      · have hdrop : (a.drop n).length < k := by
          rw [List.length_drop]
          omega
        rw [absorb_of_le hn (l := a ++ b) (by rw [List.length_append]; omega),
          List.take_append_of_le_length hle, List.drop_append_of_le_length hle,
          ih _ hdrop (a.drop n) _ rfl, ← absorb_of_le hn hle, ← rest_of_le hn hle]

theorem rest_append (hn : 0 < n) (a b : List α) : rest n (a ++ b) = rest n (rest n a ++ b) := by
  induction h : a.length using Nat.strongRecOn generalizing a with
  | ind k ih =>
      rcases Nat.lt_or_ge a.length n with hlt | hle
      · rw [rest_of_lt hlt]
      · have hdrop : (a.drop n).length < k := by
          rw [List.length_drop]
          omega
        rw [rest_of_le hn (l := a ++ b) (by rw [List.length_append]; omega),
          List.drop_append_of_le_length hle, ih _ hdrop (a.drop n) rfl, ← rest_of_le hn hle]

end

end OriaOS.Lib.Blocks
