import Mathlib.Tactic.TypeStar

/-!
# Commands as relations

A command relates the states it starts in to those it may end in. Loops over a list and loops
with a condition, their rules, and loops that read an array of lines one by one.
-/

namespace OriaOS.Lib

variable {σ α ρ : Type*}

/-- A command for each item of a list. -/
def each (R : α → σ → σ → Prop) : List α → σ → σ → Prop
  | [], s, t => t = s
  | a :: l, s, t => ∃ u, R a s u ∧ each R l u t

/-- A loop of `n` turns, after which the condition is false. -/
def turns (c : σ → Bool) (R : σ → σ → Prop) : Nat → σ → σ → Prop
  | 0, s, t => c s = false ∧ t = s
  | n + 1, s, t => c s = true ∧ ∃ u, R s u ∧ turns c R n u t

theorem each_mono {R R' : α → σ → σ → Prop} (hR : ∀ a s t, R a s t → R' a s t) {l : List α}
    {s t : σ} (h : each R l s t) : each R' l s t := by
  induction l generalizing s with
  | nil => exact h
  | cons a l ih =>
      obtain ⟨u, hu, ht⟩ := h
      exact ⟨u, hR a s u hu, ih ht⟩

theorem turns_mono {c : σ → Bool} {R R' : σ → σ → Prop} (hR : ∀ s t, R s t → R' s t) {n : Nat}
    {s t : σ} (h : turns c R n s t) : turns c R' n s t := by
  induction n generalizing s with
  | zero => exact h
  | succ n ih =>
      obtain ⟨hc, u, hu, ht⟩ := h
      exact ⟨hc, u, hR s u hu, ih ht⟩

/-- A command that ends in one state at most does so for each item of a list. -/
theorem each_unique {R : α → σ → σ → Prop} (hR : ∀ a s t t', R a s t → R a s t' → t = t')
    {l : List α} {s t t' : σ} (h : each R l s t) (h' : each R l s t') : t = t' := by
  induction l generalizing s with
  | nil => exact h.trans h'.symm
  | cons a l ih =>
      obtain ⟨u, hu, ht⟩ := h
      obtain ⟨u', hu', ht'⟩ := h'
      obtain rfl := hR a s u u' hu hu'
      exact ih ht ht'

/-- The condition settles the number of turns. -/
theorem turns_unique {c : σ → Bool} {R : σ → σ → Prop} (hR : ∀ s t t', R s t → R s t' → t = t')
    {n n' : Nat} {s t t' : σ} (h : turns c R n s t) (h' : turns c R n' s t') : t = t' := by
  induction n generalizing s n' with
  | zero =>
      cases n' with
      | zero => exact h.2.trans h'.2.symm
      | succ n' => exact absurd (h.1.symm.trans h'.1) Bool.false_ne_true
  | succ n ih =>
      cases n' with
      | zero => exact absurd (h'.1.symm.trans h.1) Bool.false_ne_true
      | succ n' =>
          obtain ⟨-, u, hu, ht⟩ := h
          obtain ⟨-, u', hu', ht'⟩ := h'
          obtain rfl := hR s u u' hu hu'
          exact ih ht ht'

/-! ## Loops over the lines of an array -/

/-- A loop that reads `n` lines from line `a` on, in some state: the lines from `a` up to `b`
take it from one state to another. -/
def Moves (run : Nat → Nat → σ → ρ) (a b : Nat) (s t : σ) : Prop :=
  a ≤ b ∧ ∀ n, run (b - a + n) a s = run n b t

namespace Moves
variable {run : Nat → Nat → σ → ρ} {a b d : Nat} {s t u : σ}

theorem refl (run : Nat → Nat → σ → ρ) (a : Nat) (s : σ) : Moves run a a s s := by
  refine ⟨Nat.le_refl a, ?_⟩
  intro n
  rw [Nat.sub_self, Nat.zero_add]

theorem trans (h : Moves run a b s t) (h' : Moves run b d t u) : Moves run a d s u := by
  obtain ⟨hab, hrun⟩ := h
  obtain ⟨hbd, hrun'⟩ := h'
  refine ⟨Nat.le_trans hab hbd, ?_⟩
  intro n
  have hsplit : d - a + n = b - a + (d - b + n) := by omega
  rw [hsplit, hrun, hrun']

theorem one (h : ∀ n, run (n + 1) a s = run n (a + 1) t) : Moves run a (a + 1) s t := by
  refine ⟨Nat.le_succ a, ?_⟩
  intro n
  rw [Nat.add_sub_cancel_left, Nat.add_comm, h]

/-- What the loop gives on lines of which the first ones are read. -/
theorem eq (h : Moves run a b s t) {e : Nat} (hle : b ≤ e) :
    run (e - a) a s = run (e - b) b t := by
  obtain ⟨hab, hrun⟩ := h
  have hsplit : e - a = b - a + (e - b) := by omega
  rw [hsplit, hrun]

end Moves

end OriaOS.Lib
