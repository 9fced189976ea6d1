import Mathlib.Data.List.Perm.Basic

/-!
# Stable sorting by a comparator

A comparator gives a number whose sign says how two elements compare. Where it is a total
preorder, putting an element behind those of a sorted list that are not greater, and before those
that are, sorts one more element and keeps the order of the ones that compare equal.
-/

namespace OriaOS.Lib

universe u

variable {α : Type u} {cmp : α → α → Int} {P : α → Prop}

/-- The comparator is a total preorder on the elements that satisfy the predicate. -/
structure PreorderOn (cmp : α → α → Int) (P : α → Prop) : Prop where
  flip : ∀ {a b}, P a → P b → (0 < cmp a b ↔ cmp b a < 0)
  trans : ∀ {a b c}, P a → P b → P c → cmp a b ≤ 0 → cmp b c ≤ 0 → cmp a c ≤ 0

namespace PreorderOn
variable {a b c : α}

theorem le_of_gt (h : PreorderOn cmp P) (ha : P a) (hb : P b) (hgt : 0 < cmp a b) : cmp b a ≤ 0 :=
  Int.le_of_lt ((h.flip ha hb).mp hgt)

theorem le_of_ge (h : PreorderOn cmp P) (ha : P a) (hb : P b) (hge : 0 ≤ cmp a b) :
    cmp b a ≤ 0 := by
  have := h.flip hb ha
  omega

theorem lt_of_lt_of_le (h : PreorderOn cmp P) (ha : P a) (hb : P b) (hc : P c)
    (hab : cmp a b < 0) (hbc : cmp b c ≤ 0) : cmp a c < 0 := by
  by_contra hac
  have hca := h.le_of_ge ha hc (by omega)
  have hba := h.trans hb hc ha hbc hca
  have := h.flip hb ha
  omega

theorem gt_of_gt_of_le (h : PreorderOn cmp P) (ha : P a) (hb : P b) (hc : P c)
    (hab : 0 < cmp a b) (hcb : cmp c b ≤ 0) : 0 < cmp a c := by
  by_contra hac
  have := h.trans ha hc hb (by omega) hcb
  omega

end PreorderOn

/-- The second list is the first one sorted, and elements that compare equal stand in the order
of the first. -/
structure Sorting (cmp : α → α → Int) (P : α → Prop) (l sorted : List α) : Prop where
  perm : sorted.Perm l
  pairwise : sorted.Pairwise fun a b => cmp a b ≤ 0
  stable : ∀ z, P z → sorted.filter (fun a => cmp z a = 0) = l.filter fun a => cmp z a = 0

namespace Sorting
variable {l a b : List α} {x : α}

theorem nil : Sorting cmp P [] [] := ⟨.nil, .nil, fun _ _ => rfl⟩

theorem singleton (x : α) : Sorting cmp P [x] [x] :=
  ⟨.refl _, List.pairwise_singleton _ _, fun _ _ => rfl⟩

/-- Up to an element that is not greater than another, none is. -/
theorem le_of_getLast (h : PreorderOn cmp P) (ha : ∀ y ∈ a, P y) (hx : P x)
    (hsorted : a.Pairwise fun a b => cmp a b ≤ 0) (hlast : ∀ y ∈ a.getLast?, cmp y x ≤ 0) :
    ∀ y ∈ a, cmp y x ≤ 0 := by
  intro y hy
  rcases List.eq_nil_or_concat' a with rfl | ⟨init, z, rfl⟩
  · exact absurd hy List.not_mem_nil
  have hzx := hlast z List.getLast?_concat
  rcases List.mem_append.mp hy with hy' | hy'
  · have hyz := (List.pairwise_append.mp hsorted).2.2 y hy' z (List.mem_singleton_self z)
    exact h.trans (ha y hy) (ha z (List.mem_append_right _ (List.mem_singleton_self z))) hx hyz hzx
  · rw [List.mem_singleton.mp hy']
    exact hzx

/-- One more element, behind those that are not greater and before those that are. -/
theorem insert (h : PreorderOn cmp P) (hl : ∀ y ∈ l, P y) (hx : P x)
    (hs : Sorting cmp P l (a ++ b)) (hb : ∀ y ∈ b, 0 < cmp y x)
    (ha : ∀ y ∈ a.getLast?, cmp y x ≤ 0) : Sorting cmp P (l ++ [x]) (a ++ x :: b) := by
  have hP : ∀ y ∈ a ++ b, P y := fun y hy => hl y (hs.perm.mem_iff.mp hy)
  obtain ⟨hsa, hsb, hab⟩ := List.pairwise_append.mp hs.pairwise
  have hle := le_of_getLast h (fun y hy => hP y (List.mem_append_left _ hy)) hx hsa ha
  constructor
  case perm =>
    exact List.perm_middle.trans ((hs.perm.cons x).trans (List.perm_append_singleton x l).symm)
  case pairwise =>
    refine List.pairwise_append.mpr ⟨hsa, List.pairwise_cons.mpr ⟨?_, hsb⟩, ?_⟩
    · intro y hy
      exact h.le_of_gt (hP y (List.mem_append_right _ hy)) hx (hb y hy)
    · intro y hy z hz
      rcases List.mem_cons.mp hz with rfl | hz
      · exact hle y hy
      · exact hab y hy z hz
  case stable =>
    intro z hz
    have hrest := hs.stable z hz
    rw [List.filter_append] at hrest ⊢
    rw [List.filter_append, ← hrest]
    by_cases heq : cmp z x = 0
    · -- the elements behind are greater, so none of them compares equal
      have hnone : b.filter (fun y => cmp z y = 0) = [] := by
        rw [List.filter_eq_nil_iff]
        intro y hy hzy
        have hzy : cmp z y = 0 := of_decide_eq_true hzy
        have hy' := hP y (List.mem_append_right _ hy)
        have hyz := h.le_of_ge hz hy' (by omega)
        have := h.trans hy' hz hx hyz (by omega)
        have := hb y hy
        omega
      simp [heq, hnone]
    · simp [heq]

end Sorting

end OriaOS.Lib
