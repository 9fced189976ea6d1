import Mathlib.Data.List.Basic

/-!
# Streams that arrive in pieces

A stream of which each receive returns the next few elements: at least one and at most what was
asked for, until nothing is left. Loops that receive until they are done or the stream has ended,
with an induction rule; a loop that only stops at the end runs over the pieces.
-/

namespace OriaOS.Lib

/-- What is still to come, and how many elements more than one each receive finds ready. -/
structure Incoming (α : Type) where
  rest : List α
  ready : Nat → Nat

namespace Incoming

variable {α β : Type} {s : Incoming α} {max : Nat}

/-- One receive of at most `max` elements. -/
def recv (s : Incoming α) (max : Nat) : List α × Incoming α :=
  let n := min max (s.ready 0 + 1)
  (s.rest.take n, ⟨s.rest.drop n, fun k => s.ready (k + 1)⟩)

theorem recv_append (s : Incoming α) (max : Nat) :
    (s.recv max).1 ++ (s.recv max).2.rest = s.rest := List.take_append_drop _ _

theorem length_recv_le (s : Incoming α) (max : Nat) : (s.recv max).1.length ≤ max :=
  Nat.le_trans (List.length_take_le _ _) (Nat.min_le_left _ _)

theorem rest_lt (h : (s.recv max).1 ≠ []) : (s.recv max).2.rest.length < s.rest.length := by
  have hlen := congrArg List.length (s.recv_append max)
  have hpos := List.length_pos_of_ne_nil h
  rw [List.length_append] at hlen
  omega

/-- Nothing is received only from a stream that has ended. -/
theorem rest_eq_nil (hmax : 0 < max) (h : (s.recv max).1 = []) : s.rest = [] := by
  rcases List.take_eq_nil_iff.mp h with hzero | hnil
  · omega
  · exact hnil

/-- Receive and process until done, or until nothing is received. -/
def loop (max : Nat) (done : β → Bool) (step : β → List α → β) (b : β) (s : Incoming α) :
    β × Incoming α :=
  if done b then (b, s)
  else if (s.recv max).1 = [] then (b, (s.recv max).2)
  else loop max done step (step b (s.recv max).1) (s.recv max).2
termination_by s.rest.length
decreasing_by exact rest_lt ‹_›

/-- What successive receives return. -/
def pieces (max : Nat) (s : Incoming α) : List (List α) :=
  if (s.recv max).1 = [] then [] else (s.recv max).1 :: pieces max (s.recv max).2
termination_by s.rest.length
decreasing_by exact rest_lt ‹_›

/-- What a step keeps, the loop keeps; and at its end it is done, or nothing is left. -/
theorem loop_ind {done : β → Bool} {step : β → List α → β} {I : β → List α → Prop}
    (hmax : 0 < max) (hstep : ∀ b piece rest, done b = false → piece.length ≤ max →
      I b (piece ++ rest) → I (step b piece) rest) {b : β} (hb : I b s.rest) :
    I (loop max done step b s).1 (loop max done step b s).2.rest ∧
      (done (loop max done step b s).1 = true ∨ (loop max done step b s).2.rest = []) := by
  induction b, s using loop.induct max done step with
  | case1 b s hdone =>
      rw [loop, if_pos hdone]
      exact ⟨hb, Or.inl hdone⟩
  | case2 b s hdone hnil =>
      have hrest := s.recv_append max
      rw [hnil, List.nil_append] at hrest
      rw [loop, if_neg hdone, if_pos hnil, hrest]
      exact ⟨hb, Or.inr (rest_eq_nil hmax hnil)⟩
  | case3 b s hdone hnil ih =>
      rw [loop, if_neg hdone, if_neg hnil]
      apply ih
      rw [← s.recv_append max] at hb
      exact hstep b _ _ (Bool.eq_false_iff.mpr hdone) (s.length_recv_le max) hb

/-- A loop that is never done runs over the pieces. -/
theorem loop_eq_foldl (step : β → List α → β) (b : β) (s : Incoming α) :
    (loop max (fun _ => false) step b s).1 = (pieces max s).foldl step b := by
  induction s using pieces.induct max generalizing b with
  | case1 s hnil =>
      rw [loop, if_neg Bool.false_ne_true, if_pos hnil, pieces, if_pos hnil]
      rfl
  | case2 s hnil ih =>
      rw [loop, if_neg Bool.false_ne_true, if_neg hnil, pieces, if_neg hnil, List.foldl_cons]
      exact ih _

theorem flatten_pieces (hmax : 0 < max) (s : Incoming α) : (pieces max s).flatten = s.rest := by
  induction s using pieces.induct max with
  | case1 s hnil =>
      rw [pieces, if_pos hnil, rest_eq_nil hmax hnil]
      rfl
  | case2 s hnil ih =>
      rw [pieces, if_neg hnil, List.flatten_cons, ih, s.recv_append]

theorem ne_nil_of_mem_pieces (max : Nat) (s : Incoming α) : ∀ c ∈ pieces max s, c ≠ [] := by
  induction s using pieces.induct max with
  | case1 s hnil =>
      rw [pieces, if_pos hnil]
      exact nofun
  | case2 s hnil ih =>
      rw [pieces, if_neg hnil, List.forall_mem_cons]
      exact ⟨hnil, ih⟩

/-- The piece in which a front part of the stream ends. -/
theorem exists_border {cs : List (List α)} {front back : List α} (hfront : front ≠ [])
    (h : cs.flatten = front ++ back) :
    ∃ pre a b post, cs = pre ++ (a ++ b) :: post ∧ a ≠ [] ∧ pre.flatten ++ a = front ∧
      b ++ post.flatten = back := by
  induction cs generalizing front with
  | nil => exact absurd (List.append_eq_nil_iff.mp h.symm).1 hfront
  | cons c cs ih =>
      rw [List.flatten_cons] at h
      rcases List.append_eq_append_iff.mp h with ⟨x, rfl, hx⟩ | ⟨x, rfl, hx⟩
      · by_cases hnil : x = []
        · subst hnil
          exact ⟨[], c, [], cs, by simp, by simpa using hfront, by simp, hx⟩
        · obtain ⟨pre, a, b, post, rfl, ha, hfront', hback⟩ := ih hnil hx
          exact ⟨c :: pre, a, b, post, rfl, ha, by simp [← hfront', List.append_assoc], hback⟩
      · exact ⟨[], front, x, cs, rfl, hfront, rfl, hx.symm⟩

end Incoming

end OriaOS.Lib
