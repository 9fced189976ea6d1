import Mathlib

/-!
# Tables of keyed slots

A table has a fixed set of slots, each with a key or without one. When no key
stands in two slots, the table is a finite map: the value of a key is the value of
the slot that carries it.
-/

namespace OriaOS.Lib

variable {ι κ β : Type*} {key key' : ι → Option κ} {val val' : ι → β} {i j : ι} {k : κ}

/-- No key stands in two slots. -/
def DistinctKeys (key : ι → Option κ) : Prop :=
  ∀ ⦃i j k⦄, key i = some k → key j = some k → i = j

theorem DistinctKeys.of_empty (h : ∀ i, key i = none) : DistinctKeys key := by
  intro i j k hi
  rw [h i] at hi
  cases hi

/-- One slot changes, and no other slot carries its new key. -/
theorem DistinctKeys.change (h : DistinctKeys key) (hother : ∀ j, j ≠ i → key' j = key j)
    (hself : ∀ k, key' i = some k → ∀ j, j ≠ i → key j ≠ some k) : DistinctKeys key' := by
  intro a b k ha hb
  by_cases hai : a = i
  · subst hai
    by_contra hne
    have hba : b ≠ a := fun he => hne he.symm
    exact hself k ha b hba (hother b hba ▸ hb)
  · by_cases hbi : b = i
    · subst hbi
      exact absurd (hother a hai ▸ ha) (hself k hb a hai)
    · exact h (hother a hai ▸ ha) (hother b hbi ▸ hb)

open Classical in
/-- The table as a map. -/
noncomputable def mapOf (key : ι → Option κ) (val : ι → β) (k : κ) : Option β :=
  if h : ∃ i, key i = some k then some (val h.choose) else none

theorem mapOf_eq_none (h : ∀ i, key i ≠ some k) : mapOf key val k = none :=
  dif_neg fun ⟨i, hi⟩ => h i hi

theorem DistinctKeys.mapOf_eq (h : DistinctKeys key) (hi : key i = some k) :
    mapOf key val k = some (val i) := by
  have hex : ∃ i, key i = some k := ⟨i, hi⟩
  rw [mapOf, dif_pos hex, h hex.choose_spec hi]

open Classical in
/-- One slot changes: its new key gets its value, its old key is gone, and every
other key keeps its value. -/
theorem DistinctKeys.mapOf_change (h : DistinctKeys key) (h' : DistinctKeys key')
    (hkey : ∀ j, j ≠ i → key' j = key j)
    (hval : ∀ j, j ≠ i → key j ≠ none → val' j = val j) :
    mapOf key' val' = fun k =>
      if key' i = some k then some (val' i) else if key i = some k then none
      else mapOf key val k := by
  funext k
  by_cases hnew : key' i = some k
  · rw [if_pos hnew, h'.mapOf_eq hnew]
  rw [if_neg hnew]
  by_cases hold : key i = some k
  · rw [if_pos hold]
    apply mapOf_eq_none
    intro j hj
    by_cases hji : j = i
    · exact hnew (hji ▸ hj)
    · exact hji (h (hkey j hji ▸ hj) hold)
  rw [if_neg hold]
  by_cases hex : ∃ j, key j = some k
  · obtain ⟨j, hj⟩ := hex
    have hji : j ≠ i := by
      rintro rfl
      exact hold hj
    have hkeyed : key j ≠ none := by
      rw [hj]
      exact Option.some_ne_none k
    rw [h.mapOf_eq hj, h'.mapOf_eq ((hkey j hji).trans hj), hval j hji hkeyed]
  · rw [mapOf_eq_none fun j hj => hex ⟨j, hj⟩]
    apply mapOf_eq_none
    intro j hj
    by_cases hji : j = i
    · exact hnew (hji ▸ hj)
    · exact hex ⟨j, hkey j hji ▸ hj⟩

end OriaOS.Lib
