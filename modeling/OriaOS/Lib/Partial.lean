import Mathlib.Data.Int.Init
import Mathlib.Data.List.Basic

/-!
# Computations that may go wrong

A computation in `Option` that has no value has gone wrong, for instance by an access
outside an array. Postconditions of such computations, with a rule for a sequence and one
for a loop, and the lists of indices that counting loops run through.
-/

namespace OriaOS.Lib

universe u

variable {α β ι : Type u}

/-- The computation has a value, and the value satisfies the postcondition. -/
def Returns (x : Option α) (P : α → Prop) : Prop := ∃ a, x = some a ∧ P a

theorem Returns.some {P : α → Prop} {a : α} (h : P a) : Returns (some a) P := ⟨a, rfl, h⟩

theorem Returns.mono {P Q : α → Prop} {x : Option α} (h : Returns x P) (himp : ∀ a, P a → Q a) :
    Returns x Q := by
  obtain ⟨a, hx, ha⟩ := h
  exact ⟨a, hx, himp a ha⟩

@[simp] theorem some_then (a : α) (f : α → Option β) : (some a >>= f) = f a := rfl

/-- A sequence of two computations. -/
theorem Returns.bind {P : α → Prop} {Q : β → Prop} {x : Option α} {f : α → Option β}
    (hx : Returns x P) (hf : ∀ a, P a → Returns (f a) Q) : Returns (x >>= f) Q := by
  obtain ⟨a, rfl, ha⟩ := hx
  exact hf a ha

/-- A loop that keeps an invariant. -/
theorem Returns.foldlM {I : β → Prop} {l : List ι} {f : β → ι → Option β}
    (hf : ∀ b, I b → ∀ i ∈ l, Returns (f b i) I) {b : β} (hb : I b) :
    Returns (l.foldlM f b) I := by
  induction l generalizing b with
  | nil => exact Returns.some hb
  | cons i l ih =>
      rw [List.foldlM_cons]
      apply (hf b hb i List.mem_cons_self).bind
      intro b' hb'
      exact ih (fun c hc j hj => hf c hc j (List.mem_cons_of_mem _ hj)) hb'

/-! ## Partial correctness -/

/-- If the computation has a value, the value satisfies the postcondition. -/
def Whenever (x : Option α) (P : α → Prop) : Prop := ∀ a, x = some a → P a

theorem Whenever.none {P : α → Prop} : Whenever none P := fun _ h => nomatch h

theorem Whenever.some {P : α → Prop} {a : α} (h : P a) : Whenever (some a) P := by
  rintro _ ⟨⟩
  exact h

theorem Whenever.mono {P Q : α → Prop} {x : Option α} (h : Whenever x P) (himp : ∀ a, P a → Q a) :
    Whenever x Q := fun a hx => himp a (h a hx)

/-- A sequence of two computations. -/
theorem Whenever.bind {P : α → Prop} {Q : β → Prop} {x : Option α} {f : α → Option β}
    (hx : Whenever x P) (hf : ∀ a, P a → Whenever (f a) Q) : Whenever (x.bind f) Q := by
  intro b hb
  obtain ⟨a, ha, hfa⟩ := Option.bind_eq_some_iff.mp hb
  exact hf a (hx a ha) b hfa

theorem Whenever.map {P : α → Prop} {Q : β → Prop} {x : Option α} {f : α → β}
    (hx : Whenever x P) (hf : ∀ a, P a → Q (f a)) : Whenever (x.map f) Q := by
  intro b hb
  obtain ⟨a, ha, rfl⟩ := Option.map_eq_some_iff.mp hb
  exact hf a (hx a ha)

/-! ## Fuel -/

section Fuel
variable {run run' : Nat → Option α} {a : α}

/-- With enough fuel the computation has the value. -/
def Settles (run : Nat → Option α) (a : α) : Prop := ∃ n, ∀ fuel, n ≤ fuel → run fuel = some a

theorem Settles.always (h : ∀ fuel, run (fuel + 1) = some a) : Settles run a := by
  refine ⟨1, ?_⟩
  intro fuel hfuel
  obtain ⟨k, rfl⟩ : ∃ k, fuel = k + 1 := ⟨fuel - 1, by omega⟩
  exact h k

/-- A call that passes its fuel on, less one. -/
theorem Settles.call (h : Settles run' a) (hrun : ∀ fuel, run (fuel + 1) = run' fuel) :
    Settles run a := by
  obtain ⟨n, hn⟩ := h
  refine ⟨n + 1, ?_⟩
  intro fuel hfuel
  obtain ⟨k, rfl⟩ : ∃ k, fuel = k + 1 := ⟨fuel - 1, by omega⟩
  rw [hrun, hn k (by omega)]

theorem Settles.bind {f : Nat → α → Option β} {b : β} (h : Settles run a)
    (hf : Settles (fun fuel => f fuel a) b) : Settles (fun fuel => (run fuel).bind (f fuel)) b := by
  obtain ⟨n, hn⟩ := h
  obtain ⟨m, hm⟩ := hf
  refine ⟨max n m, ?_⟩
  intro fuel hfuel
  dsimp only
  rw [hn fuel (by omega), Option.bind_some]
  exact hm fuel (by omega)

theorem Settles.map {f : α → β} (h : Settles run a) :
    Settles (fun fuel => (run fuel).map f) (f a) := by
  obtain ⟨n, hn⟩ := h
  exact ⟨n, fun fuel hfuel => congrArg (Option.map f) (hn fuel hfuel)⟩

/-- A value that more fuel does not change. -/
theorem Settles.of_eq (hmore : ∀ fuel a, run fuel = some a → run (fuel + 1) = some a) {n : Nat}
    (h : run n = some a) : Settles run a := by
  refine ⟨n, ?_⟩
  intro fuel hfuel
  obtain ⟨k, rfl⟩ := Nat.exists_eq_add_of_le hfuel
  clear hfuel
  induction k with
  | zero => exact h
  | succ k ih => exact hmore (n + k) a ih

theorem Settles.unique {a' : α} (h : Settles run a) (h' : Settles run a') : a = a' := by
  obtain ⟨n, hn⟩ := h
  obtain ⟨m, hm⟩ := h'
  exact Option.some.inj ((hn (max n m) (by omega)).symm.trans (hm (max n m) (by omega)))

end Fuel

/-! ## Counting loops -/

/-- The values of `i` in `for (i = a; i < b; i++)`. -/
def upTo (a b : Int) : List Int := (List.range (b - a).toNat).map fun k : Nat => a + k

/-- The values of `i` in `for (i = b; i > a; i--)`. -/
def downTo (b a : Int) : List Int := (List.range (b - a).toNat).map fun k : Nat => b - k

theorem mem_upTo {a b i : Int} : i ∈ upTo a b ↔ a ≤ i ∧ i < b := by
  unfold upTo
  rw [List.mem_map]
  constructor
  · rintro ⟨k, hk, rfl⟩
    have hk := List.mem_range.mp hk
    omega
  · rintro ⟨ha, hb⟩
    exact ⟨(i - a).toNat, List.mem_range.mpr (by omega), by omega⟩

theorem mem_downTo {b a i : Int} : i ∈ downTo b a ↔ a < i ∧ i ≤ b := by
  unfold downTo
  rw [List.mem_map]
  constructor
  · rintro ⟨k, hk, rfl⟩
    have hk := List.mem_range.mp hk
    omega
  · rintro ⟨ha, hb⟩
    exact ⟨(b - i).toNat, List.mem_range.mpr (by omega), by omega⟩

/-- The last turn of a loop that counts up. -/
theorem upTo_succ {a b : Int} (h : a ≤ b) : upTo a (b + 1) = upTo a b ++ [b] := by
  have hnat : (b + 1 - a).toNat = (b - a).toNat + 1 := by omega
  have hlast : a + ((b - a).toNat : Int) = b := by omega
  unfold upTo
  rw [hnat, List.range_succ, List.map_append, List.map_singleton, hlast]

/-- A loop that counts up, with an invariant that speaks of the index. -/
theorem Returns.upTo {I : Int → β → Prop} {a b : Int} {f : β → Int → Option β} (hab : a ≤ b)
    (hf : ∀ i, a ≤ i → i < b → ∀ x, I i x → Returns (f x i) (I (i + 1))) {x : β} (hx : I a x) :
    Returns ((upTo a b).foldlM f x) (I b) := by
  obtain ⟨n, rfl⟩ : ∃ n : Nat, b = a + n := ⟨(b - a).toNat, by omega⟩
  clear hab
  induction n with
  | zero =>
      rw [show Lib.upTo a (a + (0 : Nat)) = [] by simp [Lib.upTo]]
      exact Returns.some (by simpa using hx)
  | succ n ih =>
      have hend : a + ((n + 1 : Nat) : Int) = a + n + 1 := by omega
      rw [hend, upTo_succ (by omega), List.foldlM_append]
      apply (ih fun i hai hib => hf i hai (by omega)).bind
      intro y hy
      rw [List.foldlM_cons]
      exact (hf (a + n) (by omega) (by omega) y hy).bind fun z hz => Returns.some hz

end OriaOS.Lib
