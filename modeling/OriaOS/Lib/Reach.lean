import Mathlib

/-!
# Guarded runs of a step function

A system is a start predicate and a step function on states and inputs. A
guard restricts the inputs a run may take, reading only the state before the
step. The unrestricted system is the one whose guard always holds.
-/

namespace OriaOS.Lib

variable {σ ι τ κ : Type*}

/-- States reached from a start state by inputs that meet the guard in the
state they are given to. -/
inductive Reach (start : σ → Prop) (guard : σ → ι → Prop) (step : σ → ι → σ) :
    σ → Prop
  | start {s : σ} (h : start s) : Reach start guard step s
  | next {s : σ} (i : ι) (r : Reach start guard step s) (g : guard s i) :
      Reach start guard step (step s i)

/-- The guard of the unrestricted system. -/
def anyInput (_ : σ) (_ : ι) : Prop := True

section Invariant
variable {start : σ → Prop} {guard : σ → ι → Prop} {step : σ → ι → σ}

/-- A predicate that holds at the start and is kept by every guarded step
holds in every reached state. -/
theorem Reach.invariant {P : σ → Prop} (hstart : ∀ s, start s → P s)
    (hstep : ∀ s i, P s → guard s i → P (step s i)) {s : σ}
    (r : Reach start guard step s) : P s := by
  induction r with
  | start h => exact hstart _ h
  | next i _ g ih => exact hstep _ i ih g

/-- Every input of the list meets the guard when its turn comes. -/
def Guarded (guard : σ → ι → Prop) (step : σ → ι → σ) : σ → List ι → Prop
  | _, [] => True
  | s, i :: inputs => guard s i ∧ Guarded guard step (step s i) inputs

instance [∀ s i, Decidable (guard s i)] (s : σ) (inputs : List ι) :
    Decidable (Guarded guard step s inputs) :=
  match inputs with
  | [] => isTrue trivial
  | i :: inputs =>
      have : Decidable (Guarded guard step (step s i) inputs) :=
        instDecidableGuarded (step s i) inputs
      inferInstanceAs (Decidable (_ ∧ _))

theorem Reach.guarded {s : σ} (r : Reach start guard step s) {inputs : List ι}
    (h : Guarded guard step s inputs) : Reach start guard step (inputs.foldl step s) := by
  induction inputs generalizing s with
  | nil => exact r
  | cons i inputs ih => exact ih (Reach.next i r h.1) h.2

/-- Every input of a guarded list met the guard where the inputs before it lead. -/
theorem Guarded.at {s : σ} {before after : List ι} {i : ι}
    (h : Guarded guard step s (before ++ i :: after)) : guard (before.foldl step s) i := by
  induction before generalizing s with
  | nil => exact h.1
  | cons j before ih => exact ih h.2

/-- Two guards that agree wherever an invariant holds, and keep it, let the same lists
of inputs through. -/
theorem guarded_congr {good clear : σ → ι → Prop} {P : σ → Prop}
    (hiff : ∀ s i, P s → (good s i ↔ clear s i))
    (hstep : ∀ s i, P s → clear s i → P (step s i)) {s : σ} (hs : P s) (inputs : List ι) :
    Guarded good step s inputs ↔ Guarded clear step s inputs := by
  induction inputs generalizing s with
  | nil => exact Iff.rfl
  | cons i inputs ih =>
      constructor
      · intro h
        have hclear := (hiff s i hs).mp h.1
        exact ⟨hclear, (ih (hstep s i hs hclear)).mp h.2⟩
      · intro h
        exact ⟨(hiff s i hs).mpr h.1, (ih (hstep s i hs h.1)).mpr h.2⟩

/-- Without a guard a whole list of inputs can be run. -/
theorem Reach.foldl {s : σ} (r : Reach start anyInput step s) (inputs : List ι) :
    Reach start anyInput step (inputs.foldl step s) := by
  induction inputs generalizing s with
  | nil => exact r
  | cons i inputs ih => exact ih (Reach.next i r trivial)

end Invariant

end OriaOS.Lib
