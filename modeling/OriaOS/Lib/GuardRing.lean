import Mathlib
import OriaOS.Lib.Reading

/-!
# Rings of records with a guard area

A writer puts records one behind the other into a ring of `N` bytes. Each takes a slot, and the
next one starts where its slot ends, `N` less once the end of the ring is passed. The record
itself is written linearly: one that starts before the end runs on into a guard area behind the
ring. Positions count the slots of all records so far. As long as the slots in use are not more
than `N` bytes together, a new record touches none of the records that are queued.
-/

namespace OriaOS.Lib

/-- What is written into a ring, and the slot it takes. -/
class Slotted (ε : Type) where
  bytes : ε → List UInt8
  slot : ε → Nat
  fits : ∀ e, (bytes e).length ≤ slot e

namespace GuardRing

open Slotted

variable {ε : Type} [Slotted ε] {N : Nat} {mem : Nat → UInt8}

/-- The bytes that some records take in the ring. -/
def span (es : List ε) : Nat := (es.map slot).sum

@[simp] theorem span_nil : span ([] : List ε) = 0 := rfl

@[simp] theorem span_cons (e : ε) (es : List ε) : span (e :: es) = slot e + span es :=
  List.sum_cons

@[simp] theorem span_append (es es' : List ε) : span (es ++ es') = span es + span es' := by
  unfold span
  rw [List.map_append, List.sum_append]

/-- The records stand in the ring, one behind the other from a position on. -/
def Queued (N : Nat) (mem : Nat → UInt8) : Nat → List ε → Prop
  | _, [] => True
  | pos, e :: es => StandAt mem (pos % N) (bytes e) ∧ Queued N mem (pos + slot e) es

/-- A place and one at a distance ahead of it: what is written there stays clear of what stands
here, on this side of the border or behind it. -/
theorem slots_apart (pos : Nat) {u len ahead len' : Nat} (hN : 0 < N) (hlen : u + len ≤ ahead)
    (hlen' : ahead + len' ≤ N) :
    (pos + u) % N + len ≤ (pos + ahead) % N ∨ (pos + ahead) % N + len' ≤ (pos + u) % N := by
  obtain ⟨d, rfl⟩ : ∃ d, ahead = u + d := ⟨ahead - u, by omega⟩
  have hlt := Nat.mod_lt (pos + u) hN
  have hsplit : (pos + (u + d)) % N = ((pos + u) % N + d) % N := by
    rw [← Nat.add_assoc, Nat.mod_add_mod]
  rw [hsplit]
  rcases Nat.lt_or_ge ((pos + u) % N + d) N with h | h
  · rw [Nat.mod_eq_of_lt h]
    omega
  · rw [Nat.mod_eq_sub_mod h]
    rcases Nat.lt_or_ge ((pos + u) % N + d - N) N with h' | h'
    · rw [Nat.mod_eq_of_lt h']
      omega
    · omega

/-- Bytes written behind the records of a queue, into free room, leave them standing. -/
theorem Queued.frame {pos ahead : Nat} {new : List UInt8} {es : List ε} (hN : 0 < N)
    {u : Nat} (h : Queued N mem (pos + u) es) (hahead : u + span es ≤ ahead)
    (hroom : ahead + new.length ≤ N) :
    Queued N (stored mem ((pos + ahead) % N) new) (pos + u) es := by
  induction es generalizing u with
  | nil => trivial
  | cons e es ih =>
      rw [span_cons] at hahead
      obtain ⟨hhere, hrest⟩ := h
      constructor
      · intro k hk
        have hfits := fits e
        have hlen : u + (bytes e).length ≤ ahead := by omega
        have := slots_apart pos hN hlen hroom
        rw [stored_of_outside (by omega)]
        exact hhere k hk
      · rw [Nat.add_assoc] at hrest ⊢
        exact ih hrest (by omega)

theorem queued_append {pos : Nat} {es es' : List ε} :
    Queued N mem pos (es ++ es') ↔ Queued N mem pos es ∧ Queued N mem (pos + span es) es' := by
  induction es generalizing pos with
  | nil => simp [Queued]
  | cons e es ih =>
      simp only [List.cons_append, Queued, ih, span_cons, and_assoc, Nat.add_assoc]

/-- A record written behind the others. -/
theorem Queued.store {pos : Nat} {es : List ε} {e : ε} (hN : 0 < N) (h : Queued N mem pos es)
    (hroom : span es + slot e ≤ N) :
    Queued N (stored mem ((pos + span es) % N) (bytes e)) pos (es ++ [e]) := by
  have hfits := fits e
  rw [queued_append]
  constructor
  · exact Queued.frame (u := 0) hN h (by omega) (by omega)
  · exact ⟨standAt_stored _, trivial⟩

end GuardRing

end OriaOS.Lib
