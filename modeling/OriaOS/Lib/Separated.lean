import Mathlib

/-!
# Lists of messages with a separator

A list that holds messages one behind the other, each closed by a separator, the
last one perhaps still open. The list is framed if no message in it is empty: it
does not start with a separator and no two separators are adjacent.
-/

namespace OriaOS.Lib

variable {α : Type*} {sep : α} {l : List α}

def Framed (sep : α) (l : List α) : Prop :=
  l.head? ≠ some sep ∧ l.IsChain fun a b => a ≠ sep ∨ b ≠ sep

theorem framed_nil (sep : α) : Framed sep [] := by
  simp [Framed]

/-- No two separators are adjacent where there are none. -/
theorem isChain_of_not_mem (h : sep ∉ l) : l.IsChain fun a b => a ≠ sep ∨ b ≠ sep := by
  induction l with
  | nil => exact .nil
  | cons a l ih =>
      obtain ⟨ha, hl⟩ := not_or.mp (mt List.mem_cons.mpr h)
      cases l with
      | nil => exact .singleton a
      | cons b l => exact List.isChain_cons_cons.mpr ⟨Or.inl fun he => ha he.symm, ih hl⟩

/-- A part of a message is appended. -/
theorem Framed.append {m : List α} (h : Framed sep l) (hm : sep ∉ m) : Framed sep (l ++ m) := by
  have hhead : m.head? ≠ some sep := fun he => hm (List.mem_of_mem_head? he)
  constructor
  · cases l with
    | nil => exact hhead
    | cons a l => exact h.1
  · refine List.isChain_append.mpr ⟨h.2, isChain_of_not_mem hm, ?_⟩
    intro a _ b hb
    exact Or.inr fun he => hm (he ▸ List.mem_of_mem_head? hb)

/-- A message that is not empty is closed. -/
theorem Framed.close {m : List α} (h : Framed sep l) (hm : sep ∉ m) (hne : m ≠ []) :
    Framed sep (l ++ m ++ [sep]) := by
  have happ := h.append hm
  have hlm : l ++ m ≠ [] := by simp [hne]
  constructor
  · rw [List.head?_append_of_ne_nil _ hlm]
    exact happ.1
  · refine List.isChain_append.mpr ⟨happ.2, .singleton sep, ?_⟩
    intro a ha b _
    left
    rintro rfl
    rw [List.getLast?_append_of_ne_nil _ hne] at ha
    exact hm (List.mem_of_mem_getLast? ha)

variable [DecidableEq α]

/-- The first message, without its separator. -/
def firstMessage (sep : α) (l : List α) : List α := l.takeWhile fun x => x ≠ sep

/-- What is left behind the first message and its separator. -/
def afterFirst (sep : α) (l : List α) : List α := (l.dropWhile fun x => x ≠ sep).tail

/-- The elements of the messages. -/
def payload (sep : α) (l : List α) : List α := l.filter fun x => x ≠ sep

theorem payload_eq (sep : α) (l : List α) :
    payload sep l = firstMessage sep l ++ payload sep (afterFirst sep l) := by
  induction l with
  | nil => rfl
  | cons a l ih =>
      unfold payload firstMessage afterFirst at *
      by_cases ha : a = sep
      · simp [ha]
      · simpa [ha] using ih

theorem payload_eq_self (h : sep ∉ l) : payload sep l = l := by
  apply List.filter_eq_self.mpr
  intro x hx
  simpa using fun he : x = sep => h (he ▸ hx)

@[simp] theorem payload_append (sep : α) (l m : List α) :
    payload sep (l ++ m) = payload sep l ++ payload sep m :=
  List.filter_append l m

/-- The first message of a framed list is not empty. -/
theorem Framed.first_ne_nil (h : Framed sep l) (hl : l ≠ []) : firstMessage sep l ≠ [] := by
  cases l with
  | nil => exact absurd rfl hl
  | cons a l =>
      have ha : a ≠ sep := fun he => h.1 (congrArg some he)
      simp [firstMessage, ha]

/-- Taking a message out leaves a framed list. -/
theorem Framed.afterFirst (h : Framed sep l) : Framed sep (afterFirst sep l) := by
  have hsuffix : l.dropWhile (fun x => x ≠ sep) <:+ l := List.dropWhile_suffix _
  have hchain := h.2.suffix hsuffix
  unfold Lib.afterFirst
  cases hd : l.dropWhile fun x => x ≠ sep with
  | nil => exact framed_nil sep
  | cons a rest =>
      rw [hd] at hchain
      have ha : a = sep := by
        have := List.head?_dropWhile_not (fun x => decide (x ≠ sep)) l
        rw [hd] at this
        simpa using this
      refine ⟨?_, hchain.tail⟩
      cases rest with
      | nil => simp
      | cons b rest =>
          rcases (List.isChain_cons_cons.mp hchain).1 with hne | hne
          · exact absurd ha hne
          · simpa using hne

end OriaOS.Lib
