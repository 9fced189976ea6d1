import OriaOS.Lib.Partial
import Mathlib.Logic.Function.Basic

/-!
# Computations that read bytes

A computation over bytes at places gives, for every content, the value it ends with, if it
ends, and the places it read, in order. Where it reads is a property of its own, with an
equivalence for each way such a computation is built, and so is ending with a result.
-/

namespace OriaOS.Lib

variable {bytes : List UInt8} {i : Nat}

/-- A computation that reads bytes: its value, unless it ran out of fuel, and the places it
read. -/
def Reading (ι α : Type) : Type := (ι → UInt8) → Option α × List ι

namespace Reading

variable {ι α β : Type} {mem : ι → UInt8} {P : ι → Prop}

/-- The value at the end, if there is one. -/
def value (x : Reading ι α) (mem : ι → UInt8) : Option α := (x mem).1

/-- The places read, in order. -/
def places (x : Reading ι α) (mem : ι → UInt8) : List ι := (x mem).2

/-- A computation that is out of fuel. -/
def stuck : Reading ι α := fun _ => (none, [])

/-- The byte at a place. -/
def byte (i : ι) : Reading ι UInt8 := fun mem => (some (mem i), [i])

instance : Monad (Reading ι) where
  pure a := fun _ => (some a, [])
  bind x f := fun mem =>
    match x mem with
    | (none, is) => (none, is)
    | (some a, is) =>
        let rest := f a mem
        (rest.1, is ++ rest.2)

/-- Two bytes, the first the more significant. -/
def be16 (i : Nat) : Reading Nat Nat := do
  let hi ← byte i
  let lo ← byte (i + 1)
  pure (hi.toNat * 256 + lo.toNat)

/-- Three bytes, the first the most significant. -/
def be24 (i : Nat) : Reading Nat Nat := do
  let a ← byte i
  let b ← byte (i + 1)
  let c ← byte (i + 2)
  pure (a.toNat * 65536 + b.toNat * 256 + c.toNat)

/-- A function that is handed places: all of them count as read. -/
def lend (is : List ι) (f : (ι → UInt8) → α) : Reading ι α := fun mem => (some (f mem), is)

section Value

@[simp] theorem value_pure (a : α) : (pure a : Reading ι α).value mem = some a := rfl

@[simp] theorem value_stuck : (stuck : Reading ι α).value mem = none := rfl

@[simp] theorem value_byte (i : ι) : (byte i).value mem = some (mem i) := rfl

@[simp] theorem value_bind (x : Reading ι α) (f : α → Reading ι β) :
    (x >>= f).value mem = (x.value mem).bind fun a => (f a).value mem := by
  change (match x mem with
    | (none, is) => (none, is)
    | (some a, is) => ((f a mem).1, is ++ (f a mem).2)).1 = _
  rw [value]
  rcases x mem with ⟨_ | a, is⟩ <;> rfl

@[simp] theorem value_ite (c : Prop) [Decidable c] (x y : Reading ι α) :
    (if c then x else y).value mem = if c then x.value mem else y.value mem := by
  split <;> rfl

@[simp] theorem value_be16 {mem : Nat → UInt8} (i : Nat) :
    (be16 i).value mem = some ((mem i).toNat * 256 + (mem (i + 1)).toNat) := rfl

@[simp] theorem value_be24 {mem : Nat → UInt8} (i : Nat) :
    (be24 i).value mem
      = some ((mem i).toNat * 65536 + (mem (i + 1)).toNat * 256 + (mem (i + 2)).toNat) := rfl

@[simp] theorem value_lend (is : List ι) (f : (ι → UInt8) → α) :
    (lend is f).value mem = some (f mem) := rfl

end Value

/-! ## Where a computation reads -/

/-- Every place read satisfies the predicate. -/
def Stays (P : ι → Prop) (x : Reading ι α) (mem : ι → UInt8) : Prop := ∀ i ∈ x.places mem, P i

@[simp] theorem stays_pure (a : α) : Stays P (pure a : Reading ι α) mem := nofun

@[simp] theorem stays_stuck : Stays P (stuck : Reading ι α) mem := nofun

@[simp] theorem stays_byte (i : ι) : Stays P (byte i) mem ↔ P i := List.forall_mem_singleton

@[simp] theorem stays_lend {is : List ι} {f : (ι → UInt8) → α} :
    Stays P (lend is f) mem ↔ ∀ i ∈ is, P i := Iff.rfl

/-- A range lies below a bound. -/
theorem range'_below {start n len : Nat} :
    (∀ i ∈ List.range' start n, i < len) ↔ n = 0 ∨ start + n ≤ len := by
  constructor
  · intro h
    apply Classical.or_iff_not_imp_left.mpr
    intro hn
    have := h (start + n - 1) (by rw [List.mem_range'_1]; omega)
    omega
  · intro h i hi
    rw [List.mem_range'_1] at hi
    omega

/-- A sequence reads what its first part reads, and what the rest reads for the first part's
value. -/
theorem stays_bind {x : Reading ι α} {f : α → Reading ι β} :
    Stays P (x >>= f) mem ↔
      Stays P x mem ∧ ∀ a, x.value mem = some a → Stays P (f a) mem := by
  change (∀ i ∈ (match x mem with
    | (none, is) => (none, is)
    | (some a, is) => ((f a mem).1, is ++ (f a mem).2)).2, P i) ↔ _
  rw [Stays, places, value]
  rcases x mem with ⟨_ | a, is⟩
  · simp
  · simp only [List.forall_mem_append, Option.some.injEq, forall_eq']
    exact Iff.rfl

/-- Behind a part whose value is known. -/
theorem stays_bind_value {x : Reading ι α} {f : α → Reading ι β} {a : α}
    (h : x.value mem = some a) : Stays P (x >>= f) mem ↔ Stays P x mem ∧ Stays P (f a) mem := by
  rw [stays_bind, h]
  simp only [Option.some.injEq, forall_eq']

@[simp] theorem stays_byte_bind {i : ι} {f : UInt8 → Reading ι β} :
    Stays P (byte i >>= f) mem ↔ P i ∧ Stays P (f (mem i)) mem := by
  simp [stays_bind]

@[simp] theorem stays_be16_bind {P : Nat → Prop} {mem : Nat → UInt8} {f : Nat → Reading Nat β} :
    Stays P (be16 i >>= f) mem ↔
      (P i ∧ P (i + 1)) ∧ Stays P (f ((mem i).toNat * 256 + (mem (i + 1)).toNat)) mem := by
  simp [stays_bind, be16]

@[simp] theorem stays_be24_bind {P : Nat → Prop} {mem : Nat → UInt8} {f : Nat → Reading Nat β} :
    Stays P (be24 i >>= f) mem ↔ (P i ∧ P (i + 1) ∧ P (i + 2)) ∧
      Stays P (f ((mem i).toNat * 65536 + (mem (i + 1)).toNat * 256 + (mem (i + 2)).toNat))
        mem := by
  simp [stays_bind, be24]

theorem stays_ite {c : Prop} [Decidable c] {x y : Reading ι α} :
    Stays P (if c then x else y) mem ↔ (c → Stays P x mem) ∧ (¬c → Stays P y mem) := by
  split <;> simp [*]

/-! ## Ending with a result -/

/-- The computation ends with a value that satisfies the postcondition, having read only
places that satisfy the predicate. -/
structure Ends (P : ι → Prop) (mem : ι → UInt8) (x : Reading ι α) (Q : α → Prop) : Prop where
  stays : Stays P x mem
  returns : Returns (x.value mem) Q

section Ends
variable {Q : α → Prop} {R : β → Prop}

theorem Ends.pure {a : α} (h : Q a) : Ends P mem (Pure.pure a) Q :=
  ⟨stays_pure a, Returns.some h⟩

theorem Ends.mono {Q' : α → Prop} {x : Reading ι α} (h : Ends P mem x Q) (himp : ∀ a, Q a → Q' a) :
    Ends P mem x Q' := ⟨h.stays, h.returns.mono himp⟩

theorem Ends.weaken {P' : ι → Prop} {x : Reading ι α} (h : Ends P mem x Q)
    (himp : ∀ i, P i → P' i) : Ends P' mem x Q :=
  ⟨fun i hi => himp i (h.stays i hi), h.returns⟩

/-- A sequence of two computations. -/
theorem Ends.bind {x : Reading ι α} {f : α → Reading ι β} (hx : Ends P mem x Q)
    (hf : ∀ a, Q a → Ends P mem (f a) R) : Ends P mem (x >>= f) R := by
  obtain ⟨a, ha, hQ⟩ := hx.returns
  constructor
  · apply stays_bind.mpr ⟨hx.stays, ?_⟩
    intro b hb
    obtain rfl := Option.some.inj (ha.symm.trans hb)
    exact (hf a hQ).stays
  · simpa [ha] using (hf a hQ).returns

/-- One byte in front of a computation. -/
theorem Ends.byte_bind {i : ι} {f : UInt8 → Reading ι β} (hi : P i)
    (hf : Ends P mem (f (mem i)) R) : Ends P mem (byte i >>= f) R :=
  ⟨stays_byte_bind.mpr ⟨hi, hf.stays⟩, by simpa using hf.returns⟩

/-- Two bytes in front of a computation. -/
theorem Ends.be16_bind {P : Nat → Prop} {mem : Nat → UInt8} {f : Nat → Reading Nat β} (hi : P i)
    (hi' : P (i + 1)) (hf : Ends P mem (f ((mem i).toNat * 256 + (mem (i + 1)).toNat)) R) :
    Ends P mem (be16 i >>= f) R :=
  ⟨stays_be16_bind.mpr ⟨⟨hi, hi'⟩, hf.stays⟩, by simpa using hf.returns⟩

theorem Ends.value_eq {x : Reading ι α} {a : α} (h : Ends P mem x (· = a)) :
    x.value mem = some a := by
  obtain ⟨b, hb, rfl⟩ := h.returns
  exact hb

/-- Behind a part that ends where it may read, only the rest counts. -/
theorem Ends.stays_bind {x : Reading ι α} {f : α → Reading ι β} {S : Prop}
    (hx : Ends P mem x Q) (hf : ∀ a, Q a → (Stays P (f a) mem ↔ S)) :
    Stays P (x >>= f) mem ↔ S := by
  obtain ⟨a, ha, hQ⟩ := hx.returns
  rw [stays_bind_value ha, ← hf a hQ]
  exact and_iff_right hx.stays

theorem Ends.ite {c : Prop} [Decidable c] {x y : Reading ι α} (hx : c → Ends P mem x Q)
    (hy : ¬c → Ends P mem y Q) : Ends P mem (if c then x else y) Q := by
  split
  · exact hx ‹_›
  · exact hy ‹_›

end Ends

end Reading

/-! ## Bytes in memory -/

/-- The bytes stand in memory from the position on. -/
def StandAt (mem : Nat → UInt8) (pos : Nat) (bytes : List UInt8) : Prop :=
  ∀ k, ∀ h : k < bytes.length, mem (pos + k) = bytes[k]

section StandAt
variable {mem : Nat → UInt8} {pos : Nat}

@[simp] theorem standAt_nil : StandAt mem pos [] := nofun

@[simp] theorem standAt_cons {b : UInt8} :
    StandAt mem pos (b :: bytes) ↔ mem pos = b ∧ StandAt mem (pos + 1) bytes := by
  constructor
  · intro h
    refine ⟨h 0 (Nat.zero_lt_succ _), ?_⟩
    intro k hk
    calc
      mem (pos + 1 + k) = mem (pos + (k + 1)) := by rw [Nat.add_assoc, Nat.add_comm 1]
      _ = bytes[k] := h (k + 1) (Nat.succ_lt_succ hk)
  · rintro ⟨hb, h⟩ k hk
    cases k with
    | zero => exact hb
    | succ k =>
        have hk : k < bytes.length := Nat.lt_of_succ_lt_succ hk
        calc
          mem (pos + (k + 1)) = mem (pos + 1 + k) := by rw [Nat.add_assoc, Nat.add_comm 1]
          _ = bytes[k] := h k hk

@[simp] theorem standAt_append {bytes' : List UInt8} :
    StandAt mem pos (bytes ++ bytes') ↔
      StandAt mem pos bytes ∧ StandAt mem (pos + bytes.length) bytes' := by
  induction bytes generalizing pos with
  | nil => simp
  | cons b bytes ih =>
      simp only [List.cons_append, standAt_cons, ih, List.length_cons, and_assoc]
      rw [Nat.add_assoc pos 1, Nat.add_comm 1]

/-- Memory that holds a list of bytes. -/
theorem exists_standAt (bytes : List UInt8) : ∃ mem, StandAt mem 0 bytes := by
  refine ⟨fun i => bytes.getD i 0, ?_⟩
  intro k hk
  simp [hk]

end StandAt

/-- Memory after bytes were stored one after the other from a position on. -/
def stored (mem : Nat → UInt8) (pos : Nat) : List UInt8 → Nat → UInt8
  | [] => mem
  | b :: bytes => stored (Function.update mem pos b) (pos + 1) bytes

section Stored
variable {mem : Nat → UInt8} {pos : Nat}

theorem stored_append (bytes bytes' : List UInt8) :
    stored mem pos (bytes ++ bytes')
      = stored (stored mem pos bytes) (pos + bytes.length) bytes' := by
  induction bytes generalizing mem pos with
  | nil => rfl
  | cons b bytes ih =>
      rw [List.cons_append, stored, ih, stored, List.length_cons, Nat.add_assoc pos,
        Nat.add_comm 1]

/-- Nothing else changes. -/
theorem stored_of_outside (hi : i < pos ∨ pos + bytes.length ≤ i) :
    stored mem pos bytes i = mem i := by
  induction bytes generalizing mem pos with
  | nil => rfl
  | cons b bytes ih =>
      rw [List.length_cons] at hi
      rw [stored, ih (by omega), Function.update_of_ne (by omega)]

theorem standAt_stored (bytes : List UInt8) : StandAt (stored mem pos bytes) pos bytes := by
  induction bytes generalizing mem pos with
  | nil => exact standAt_nil
  | cons b bytes ih =>
      rw [standAt_cons]
      refine ⟨?_, ih⟩
      rw [stored, stored_of_outside (Or.inl (Nat.lt_succ_self pos)), Function.update_self]

end Stored

end OriaOS.Lib
