import Mathlib.Data.List.Basic

/-!
# Computations that record events

A computation that records what it does, in order, and may end without a result. One stops at an
event when nothing is recorded behind it and the result shows it.
-/

namespace OriaOS.Lib

universe u v

/-- The events of a computation and its result. -/
structure Traced (ε : Type v) (α : Type u) where
  events : List ε
  result : Option α

namespace Traced

variable {ε : Type v} {α β : Type u}

/-- A result, and no event. -/
def ret (a : α) : Traced ε α := ⟨[], some a⟩

/-- No result. -/
def stuck : Traced ε α := ⟨[], none⟩

/-- One computation behind another. -/
def bind (x : Traced ε α) (f : α → Traced ε β) : Traced ε β :=
  match x.result with
  | none => ⟨x.events, none⟩
  | some a => ⟨x.events ++ (f a).events, (f a).result⟩

/-- Another form of the result. -/
def map (f : α → β) (x : Traced ε α) : Traced ε β := ⟨x.events, x.result.map f⟩

theorem bind_of_none {x : Traced ε α} {f : α → Traced ε β} (h : x.result = none) :
    x.bind f = ⟨x.events, none⟩ := by rw [bind, h]

theorem bind_of_some {x : Traced ε α} {f : α → Traced ε β} {a : α} (h : x.result = some a) :
    x.bind f = ⟨x.events ++ (f a).events, (f a).result⟩ := by rw [bind, h]

/-- The results of a sequence. -/
theorem result_bind (x : Traced ε α) (f : α → Traced ε β) :
    (x.bind f).result = x.result.bind fun a => (f a).result := by
  cases hx : x.result with
  | none => rw [bind_of_none hx, Option.bind_none]
  | some a => rw [bind_of_some hx, Option.bind_some]

/-- All events have a property. -/
def Records (P : ε → Prop) (x : Traced ε α) : Prop := ∀ e ∈ x.events, P e

section Records
variable {P : ε → Prop} {x : Traced ε α}

theorem records_of_nil (h : x.events = []) : x.Records P := by
  intro e he
  rw [h] at he
  exact absurd he List.not_mem_nil

theorem Records.bind {f : α → Traced ε β} (hx : x.Records P) (hf : ∀ a, (f a).Records P) :
    (x.bind f).Records P := by
  cases hres : x.result with
  | none =>
      rw [bind_of_none hres]
      exact hx
  | some a =>
      rw [bind_of_some hres]
      exact fun e he => (List.mem_append.mp he).elim (hx e) (hf a e)

theorem Records.mono {Q : ε → Prop} (hx : x.Records P) (h : ∀ e, P e → Q e) : x.Records Q :=
  fun e he => h e (hx e he)

end Records

/-- A bad event is the last one, and the result shows it. -/
structure StopsAt (bad : ε → Prop) (stopped : α → Prop) (x : Traced ε α) : Prop where
  last : x.events.Pairwise fun e _ => ¬bad e
  shows : ∀ a, x.result = some a → (∃ e ∈ x.events, bad e) → stopped a

section StopsAt
variable {bad : ε → Prop} {stopped : α → Prop} {stopped' : β → Prop} {x : Traced ε α}
  {f : α → Traced ε β}

/-- Without a bad event there is nothing to stop at. -/
theorem StopsAt.of_records (h : x.Records fun e => ¬bad e) : StopsAt bad stopped x where
  last := by
    have htrue : x.events.Pairwise fun _ _ => True := List.pairwise_of_forall fun _ _ => trivial
    exact htrue.imp_of_mem fun he _ _ => h _ he
  shows := fun _ _ ⟨e, he, hbad⟩ => absurd hbad (h e he)

/-- A sequence whose second part does nothing when the first has stopped. -/
theorem StopsAt.bind (hx : StopsAt bad stopped x)
    (hf : ∀ a, ¬stopped a → StopsAt bad stopped' (f a))
    (hstop : ∀ a, stopped a → (f a).events = [] ∧ ∀ b, (f a).result = some b → stopped' b) :
    StopsAt bad stopped' (x.bind f) := by
  cases hres : x.result with
  | none =>
      rw [bind_of_none hres]
      exact ⟨hx.last, nofun⟩
  | some a =>
      rw [bind_of_some hres]
      by_cases ha : stopped a
      · obtain ⟨hnone, hshows⟩ := hstop a ha
        refine ⟨?_, fun b hb _ => hshows b hb⟩
        rw [hnone, List.append_nil]
        exact hx.last
      · have hgood : ∀ e ∈ x.events, ¬bad e := fun e he hbad => ha (hx.shows a hres ⟨e, he, hbad⟩)
        refine ⟨List.pairwise_append.mpr ⟨hx.last, (hf a ha).last, fun e he _ _ => hgood e he⟩, ?_⟩
        rintro b hb ⟨e, he, hbad⟩
        obtain hfirst | hsecond := List.mem_append.mp he
        · exact absurd hbad (hgood e hfirst)
        · exact (hf a ha).shows b hb ⟨e, hsecond, hbad⟩

/-- A sequence whose first part has no bad event. -/
theorem StopsAt.bind_records (hx : x.Records fun e => ¬bad e)
    (hf : ∀ a, StopsAt bad stopped' (f a)) : StopsAt bad stopped' (x.bind f) := by
  have hnever : StopsAt bad (fun _ => False) x := StopsAt.of_records hx
  exact hnever.bind (fun a _ => hf a) fun _ => False.elim

theorem StopsAt.map {g : α → β} (hx : StopsAt bad stopped x)
    (h : ∀ a, stopped a → stopped' (g a)) : StopsAt bad stopped' (x.map g) where
  last := hx.last
  shows := by
    intro b hb hbad
    obtain ⟨a, ha, rfl⟩ := Option.map_eq_some_iff.mp hb
    exact h a (hx.shows a ha hbad)

end StopsAt

end Traced

end OriaOS.Lib
