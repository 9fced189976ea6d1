import Mathlib

/-!
# Ring buffers with one slot kept free

The head is the next slot to write, the tail the next to read, both wrapping
at `N`; equal indices mean empty, so at most `N - 1` elements are held. The
contents are the elements from tail to head. Pushing appends while there is
room and is dropped otherwise; popping removes from the front.
-/

namespace OriaOS.Lib

/-- A ring of `N` slots. The indices are in range by their type. -/
structure Ring (α : Type*) (N : Nat) where
  buf : Fin N → α
  head : Fin N
  tail : Fin N

namespace Ring

variable {α : Type*} {N : Nat} [NeZero N]

/-- The slot `k` places from slot zero, wrapping. -/
def slot (N : Nat) [NeZero N] (k : Nat) : Fin N := Fin.ofNat N k

@[simp] theorem slot_val (k : Nat) : (slot N k).val = k % N := rfl

theorem slot_fin (i : Fin N) : slot N i = i := by
  ext
  exact Nat.mod_eq_of_lt i.isLt

/-- The number of elements held. -/
def count (r : Ring α N) : Nat := (r.head + N - r.tail) % N

/-- The elements held, oldest first. -/
def contents (r : Ring α N) : List α :=
  (List.range r.count).map fun k => r.buf (slot N (r.tail + k))

/-- No slot is left to write. -/
def Full (r : Ring α N) : Prop := slot N (r.head + 1) = r.tail

instance (r : Ring α N) : Decidable r.Full := inferInstanceAs (Decidable (_ = _))

/-- Write one element without looking at the tail. -/
def write (r : Ring α N) (x : α) : Ring α N :=
  { r with buf := Function.update r.buf r.head x, head := slot N (r.head + 1) }

/-- Write elements without looking at the tail. -/
def writeAll (r : Ring α N) (xs : List α) : Ring α N := xs.foldl write r

/-- Write one element, or drop it when the ring is full. -/
def push (r : Ring α N) (x : α) : Ring α N := if r.Full then r else r.write x

/-- Write elements until one does not fit. -/
def pushAll (r : Ring α N) : List α → Ring α N
  | [] => r
  | x :: xs => if r.Full then r else (r.push x).pushAll xs

/-- Advance the tail by one element. -/
def pop (r : Ring α N) : Ring α N := { r with tail := slot N (r.tail + 1) }

/-- Read at most `n` elements. -/
def take (r : Ring α N) : Nat → List α × Ring α N
  | 0 => ([], r)
  | n + 1 =>
      if r.tail = r.head then ([], r)
      else
        let rest := r.pop.take n
        (r.buf r.tail :: rest.1, rest.2)

/-- Write one element, or report that there is no room. -/
def offer (r : Ring α N) (x : α) : Option (Ring α N) := if r.Full then none else some (r.write x)

/-- Read one element, or report that there is none. -/
def poll (r : Ring α N) : Option (α × Ring α N) :=
  if r.tail = r.head then none else some (r.buf r.tail, r.pop)

omit [NeZero N] in
theorem count_lt (r : Ring α N) : r.count < N :=
  Nat.mod_lt _ (Nat.lt_of_le_of_lt (Nat.zero_le _) r.head.isLt)

@[simp] theorem length_contents (r : Ring α N) : r.contents.length = r.count := by
  simp [contents]

/-- The head lies `count` places behind the tail. -/
theorem head_eq (r : Ring α N) : r.head = slot N (r.tail + r.count) := by
  have hh := r.head.isLt
  have ht := r.tail.isLt
  ext
  simp only [slot_val, count, Nat.add_mod_mod]
  rw [show r.tail.val + (r.head.val + N - r.tail.val) = r.head.val + N by omega,
    Nat.add_mod_right, Nat.mod_eq_of_lt hh]

omit [NeZero N] in
theorem count_eq_zero_iff (r : Ring α N) : r.count = 0 ↔ r.tail = r.head := by
  have hh := r.head.isLt
  have ht := r.tail.isLt
  rw [Fin.ext_iff, count]
  constructor
  · intro h
    by_cases hle : r.tail.val ≤ r.head.val
    · rw [show r.head.val + N - r.tail.val = r.head.val - r.tail.val + N by omega,
        Nat.add_mod_right, Nat.mod_eq_of_lt (by omega)] at h
      omega
    · rw [Nat.mod_eq_of_lt (by omega)] at h
      omega
  · intro h
    rw [show r.head.val + N - r.tail.val = N by omega, Nat.mod_self]

theorem contents_eq_nil {r : Ring α N} (h : r.tail = r.head) : r.contents = [] := by
  apply List.length_eq_zero_iff.mp
  rw [length_contents, count_eq_zero_iff]
  exact h

/-- Two places in one lap are the same slot only if they are equal. -/
theorem slot_inj {a j k : Nat} (hj : j < N) (hk : k < N)
    (h : slot N (a + j) = slot N (a + k)) : j = k := by
  have hmod : (a + j) % N = (a + k) % N := congrArg Fin.val h
  have hjk : j ≡ k [MOD N] := Nat.ModEq.add_left_cancel' a hmod
  exact Nat.ModEq.eq_of_lt_of_lt hjk hj hk

theorem full_iff (r : Ring α N) : r.Full ↔ r.count + 1 = N := by
  have hlt := r.count_lt
  have hN : 0 < N := Nat.pos_of_ne_zero (NeZero.ne N)
  have hnext : slot N (r.head + 1) = slot N (r.tail + (r.count + 1)) := by
    rw [r.head_eq]
    ext
    simp [Nat.add_assoc]
  unfold Full
  rw [hnext]
  constructor
  · intro h
    by_contra hne
    have := slot_inj (N := N) (a := r.tail) (j := r.count + 1) (k := 0) (by omega) hN
      (h.trans (slot_fin r.tail).symm)
    omega
  · intro h
    rw [h]
    ext
    simp [Nat.mod_eq_of_lt r.tail.isLt]

theorem count_write {r : Ring α N} (h : ¬ r.Full) (x : α) :
    (r.write x).count = r.count + 1 := by
  have hlt := r.count_lt
  have hfull : r.count + 1 ≠ N := fun he => h (r.full_iff.mpr he)
  have heq := head_eq (r.write x)
  have hnext : slot N (r.head + 1) = slot N (r.tail + (r.count + 1)) := by
    rw [r.head_eq]
    ext
    simp [Nat.add_assoc]
  exact slot_inj (count_lt _) (by omega) (heq.symm.trans hnext)

/-- Writing into a ring with room appends one element. -/
theorem contents_write {r : Ring α N} (h : ¬ r.Full) (x : α) :
    (r.write x).contents = r.contents ++ [x] := by
  have hlt := r.count_lt
  unfold contents
  rw [count_write h, List.range_succ, List.map_append]
  congr 1
  · apply List.map_congr_left
    intro k hk
    have hk : k < r.count := List.mem_range.mp hk
    apply Function.update_of_ne
    intro heq
    rw [r.head_eq] at heq
    have := slot_inj (by omega) hlt heq
    omega
  · simp [write, ← r.head_eq]

theorem not_full_of_count {r : Ring α N} {n : Nat} (h : r.count + (n + 1) < N) : ¬ r.Full := by
  rw [full_iff]
  omega

/-- Elements that fit are all appended. -/
theorem contents_writeAll {r : Ring α N} {xs : List α} (h : r.count + xs.length < N) :
    (r.writeAll xs).contents = r.contents ++ xs := by
  induction xs generalizing r with
  | nil => simp [writeAll]
  | cons x xs ih =>
      have hfull : ¬ r.Full := not_full_of_count h
      have hrest := ih (r := r.write x) (by
        rw [count_write hfull]
        simp only [List.length_cons] at h
        omega)
      simp only [writeAll, List.foldl_cons] at hrest ⊢
      rw [hrest, contents_write hfull]
      simp

/-- Pushing elements that fit is writing them. -/
theorem pushAll_eq_writeAll {r : Ring α N} {xs : List α} (h : r.count + xs.length < N) :
    r.pushAll xs = r.writeAll xs := by
  induction xs generalizing r with
  | nil => rfl
  | cons x xs ih =>
      have hfull : ¬ r.Full := not_full_of_count h
      simp only [pushAll, push, if_neg hfull, writeAll, List.foldl_cons]
      apply ih
      rw [count_write hfull]
      simp only [List.length_cons] at h
      omega

theorem contents_pushAll {r : Ring α N} {xs : List α} (h : r.count + xs.length < N) :
    (r.pushAll xs).contents = r.contents ++ xs := by
  rw [pushAll_eq_writeAll h, contents_writeAll h]

/-- Popping removes the oldest element. -/
theorem contents_pop {r : Ring α N} (h : r.tail ≠ r.head) :
    r.contents = r.buf r.tail :: r.pop.contents := by
  have hlt := r.count_lt
  have hpos : r.count ≠ 0 := fun h0 => h (r.count_eq_zero_iff.mp h0)
  have hcount : r.pop.count = r.count - 1 := by
    have heq := head_eq r.pop
    have hhead : r.pop.head = slot N (r.pop.tail + (r.count - 1)) := by
      change r.head = slot N (slot N (r.tail + 1) + (r.count - 1))
      rw [r.head_eq]
      ext
      simp only [slot_val, Nat.mod_add_mod]
      congr 1
      omega
    exact slot_inj (count_lt _) (by omega) (heq.symm.trans hhead)
  obtain ⟨c, hc⟩ : ∃ c, r.count = c + 1 := ⟨r.count - 1, by omega⟩
  unfold contents
  rw [hcount, hc, List.range_succ_eq_map, List.map_cons, List.map_map]
  congr 1
  · rw [Nat.add_zero, slot_fin]
  · apply List.map_congr_left
    intro k _
    change r.buf _ = r.buf (slot N (slot N (r.tail + 1) + k))
    congr 1
    ext
    simp only [slot_val, Nat.mod_add_mod]
    congr 1
    simp only [Nat.succ_eq_add_one]
    omega

theorem contents_offer {r r' : Ring α N} {x : α} (h : r.offer x = some r') :
    r'.contents = r.contents ++ [x] := by
  unfold offer at h
  split at h
  · cases h
  · next hfull =>
    cases h
    exact contents_write hfull x

theorem contents_of_poll_none {r : Ring α N} (h : r.poll = none) : r.contents = [] := by
  unfold poll at h
  split at h
  · next hempty => exact contents_eq_nil hempty
  · cases h

theorem contents_of_poll_some {r r' : Ring α N} {x : α} (h : r.poll = some (x, r')) :
    r.contents = x :: r'.contents := by
  unfold poll at h
  split at h
  · cases h
  · next hne =>
    cases h
    exact contents_pop hne

theorem take_spec (r : Ring α N) (n : Nat) :
    (r.take n).1 = r.contents.take n ∧ (r.take n).2.contents = r.contents.drop n := by
  induction n generalizing r with
  | zero => simp [take]
  | succ n ih =>
      by_cases h : r.tail = r.head
      · simp [take, h, contents_eq_nil h]
      · obtain ⟨h1, h2⟩ := ih r.pop
        simp only [take, if_neg h, contents_pop h, List.take_succ_cons, List.drop_succ_cons]
        exact ⟨by rw [h1], h2⟩

end Ring

end OriaOS.Lib
