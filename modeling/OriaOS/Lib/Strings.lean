import OriaOS.Lib.Bytes

/-!
# Strings one behind the other

A list of strings laid out with one zero behind each, and where the walk over the zeros
finds the next string in memory.
-/

namespace OriaOS.Lib

/-- The strings, each with its terminator. -/
def serial (args : List CString) : List UInt8 := args.flatMap fun s => s.bytes ++ [0]

/-- Where the string of an index starts. -/
def start (args : List CString) (k : Nat) : Nat := (serial (args.take k)).length

section Layout
variable {args : List CString}

@[simp] theorem serial_cons (s : CString) (args : List CString) :
    serial (s :: args) = s.bytes ++ 0 :: serial args := by
  simp [serial]

theorem length_serial_cons (s : CString) (args : List CString) :
    (serial (s :: args)).length = s.length + 1 + (serial args).length := by
  rw [serial_cons, List.length_append, List.length_cons, CString.length]
  omega

theorem serial_head {s : CString} {i : Nat} (hi : i < s.length) :
    (serial (s :: args)).getD i 0 = s.bytes[i] := by
  rw [serial_cons, List.getD_append _ _ _ _ hi]
  exact List.getD_eq_getElem _ _ hi

theorem serial_head_end (s : CString) (args : List CString) :
    (serial (s :: args)).getD s.length 0 = 0 := by
  simp [CString.length]

theorem serial_tail (s : CString) (args : List CString) (j : Nat) :
    (serial (s :: args)).getD (s.length + 1 + j) 0 = (serial args).getD j 0 := by
  have hshift : s.length + 1 + j = s.bytes.length + (j + 1) := by
    rw [CString.length]
    omega
  rw [serial_cons, hshift, List.getD_append_right _ _ _ _ (Nat.le_add_right _ _),
    Nat.add_sub_cancel_left, List.getD_cons_succ]

@[simp] theorem start_zero (args : List CString) : start args 0 = 0 := by
  simp [start, serial]

theorem start_length (args : List CString) : start args args.length = (serial args).length := by
  rw [start, List.take_length]

theorem start_cons_succ (s : CString) (args : List CString) (k : Nat) :
    start (s :: args) (k + 1) = s.length + 1 + start args k := by
  simp only [start, List.take_succ_cons, serial_cons, List.length_append, List.length_cons,
    CString.length]
  omega

/-- A string and its terminator lie between two starts. -/
theorem start_succ {k : Nat} (hk : k < args.length) :
    start args (k + 1) = start args k + args[k].length + 1 := by
  induction args generalizing k with
  | nil => exact absurd hk (Nat.not_lt_zero k)
  | cons s args ih =>
      cases k with
      | zero => simp [start_cons_succ]
      | succ k =>
          have hk' : k < args.length := Nat.lt_of_succ_lt_succ hk
          rw [start_cons_succ, start_cons_succ, ih hk', List.getElem_cons_succ]
          omega

theorem start_mono {j k : Nat} (hjk : j ≤ k) (hk : k ≤ args.length) :
    start args j ≤ start args k := by
  induction k, hjk using Nat.le_induction with
  | base => exact Nat.le_refl _
  | succ k _ ih =>
      have hle := ih (Nat.le_of_succ_le hk)
      rw [start_succ hk]
      omega

theorem start_le_size {k : Nat} (hk : k ≤ args.length) : start args k ≤ (serial args).length := by
  rw [← start_length]
  exact start_mono hk (Nat.le_refl _)

theorem start_take {k n : Nat} (hk : k ≤ n) : start (args.take n) k = start args k := by
  rw [start, List.take_take, Nat.min_eq_left hk, start]

/-- The bytes of a string in the layout. -/
theorem serial_byte {k i : Nat} (hk : k < args.length) (hi : i < args[k].length) :
    (serial args).getD (start args k + i) 0 = args[k].bytes[i] := by
  induction args generalizing k with
  | nil => exact absurd hk (Nat.not_lt_zero k)
  | cons s args ih =>
      cases k with
      | zero =>
          rw [start_zero, Nat.zero_add]
          exact serial_head hi
      | succ k =>
          rw [start_cons_succ, Nat.add_assoc, serial_tail]
          exact ih (Nat.lt_of_succ_lt_succ hk) hi

/-- The terminator of a string in the layout. -/
theorem serial_end {k : Nat} (hk : k < args.length) :
    (serial args).getD (start args k + args[k].length) 0 = 0 := by
  induction args generalizing k with
  | nil => exact absurd hk (Nat.not_lt_zero k)
  | cons s args ih =>
      cases k with
      | zero =>
          rw [start_zero, Nat.zero_add]
          exact serial_head_end s args
      | succ k =>
          rw [List.getElem_cons_succ, start_cons_succ, Nat.add_assoc, serial_tail]
          exact ih (Nat.lt_of_succ_lt_succ hk)

/-- Every zero of the layout is the terminator of a string. -/
theorem serial_zero {i : Nat} (hi : i < (serial args).length)
    (hz : (serial args).getD i 0 = 0) :
    ∃ k, ∃ h : k < args.length, i = start args k + args[k].length := by
  induction args generalizing i with
  | nil => exact absurd hi (Nat.not_lt_zero i)
  | cons s args ih =>
      rcases Nat.lt_trichotomy i s.length with hlt | rfl | hgt
      · rw [serial_head hlt] at hz
        exact absurd (hz ▸ List.getElem_mem hlt) s.nonzero
      · exact ⟨0, Nat.succ_pos _, by simp⟩
      · obtain ⟨j, rfl⟩ := Nat.exists_eq_add_of_le (Nat.succ_le_of_lt hgt)
        rw [Nat.succ_eq_add_one, serial_tail] at hz
        rw [length_serial_cons] at hi
        obtain ⟨k, hk, hj⟩ := ih (Nat.lt_of_add_lt_add_left hi) hz
        refine ⟨k + 1, Nat.succ_lt_succ hk, ?_⟩
        rw [start_cons_succ, List.getElem_cons_succ, hj, Nat.add_assoc (s.length + 1)]

/-- Two zeros in a row: an empty string behind another one. -/
theorem empty_of_two_zeros {i : Nat} (hi : i + 1 < (serial args).length)
    (hz : (serial args).getD i 0 = 0) (hz' : (serial args).getD (i + 1) 0 = 0) :
    ∃ k, ∃ h : k < args.length, 1 ≤ k ∧ args[k].length = 0 ∧ i + 1 = start args k := by
  obtain ⟨j, hj, hij⟩ := serial_zero (Nat.lt_of_succ_lt hi) hz
  obtain ⟨k, hk, hik⟩ := serial_zero hi hz'
  have hsj := start_succ hj
  have hlt : j < k := by
    by_contra hge
    have hmono := start_mono (Nat.succ_le_succ (Nat.le_of_not_lt hge)) (Nat.succ_le_of_lt hj)
    rw [hsj, start_succ hk] at hmono
    omega
  have hmono : start args (j + 1) ≤ start args k := start_mono hlt (Nat.le_of_lt hk)
  exact ⟨k, hk, by omega, by omega, by omega⟩

end Layout

/-! ## The next string in memory -/

theorem CString.head?_read {mem : Nat → UInt8} {fuel a : Nat} (h : mem a ≠ 0) :
    (CString.read mem (fuel + 1) a).bytes.head? = some (mem a) := by
  simp [CString.read, CString.readBytes, h]

/-- Behind the string at `p` the next one starts at `q`. -/
structure NextString (mem : Nat → UInt8) (p q : Nat) : Prop where
  lt : p < q
  zero : mem (q - 1) = 0
  nonzero : ∀ k, p ≤ k → k + 1 < q → mem k ≠ 0

section Next
variable {mem : Nat → UInt8} {p q z : Nat}

/-- The string ends at the first zero. -/
theorem NextString.of_zero (hpz : p ≤ z) (hz : mem z = 0)
    (hne : ∀ k, p ≤ k → k < z → mem k ≠ 0) : NextString mem p (z + 1) :=
  ⟨Nat.lt_succ_of_le hpz, hz, fun k hk hlt => hne k hk (Nat.lt_of_succ_lt_succ hlt)⟩

theorem NextString.unique {q' : Nat} (h : NextString mem p q) (h' : NextString mem p q') :
    q = q' := by
  have hp := h.lt
  have hp' := h'.lt
  rcases Nat.lt_trichotomy q q' with hlt | heq | hgt
  · exact absurd h.zero (h'.nonzero (q - 1) (by omega) (by omega))
  · exact heq
  · exact absurd h'.zero (h.nonzero (q' - 1) (by omega) (by omega))

/-- A zero at or behind the start bounds the string. -/
theorem NextString.le (h : NextString mem p q) (hpz : p ≤ z) (hz : mem z = 0) : q ≤ z + 1 := by
  by_contra hlt
  exact h.nonzero z hpz (by omega) hz

theorem NextString.exists_of_zero (hpz : p ≤ z) (hz : mem z = 0) : ∃ q, NextString mem p q := by
  have hex : ∃ k, p ≤ k ∧ mem k = 0 := ⟨z, hpz, hz⟩
  classical
  obtain ⟨hle, hzero⟩ := Nat.find_spec hex
  exact ⟨Nat.find hex + 1, .of_zero hle hzero fun k hk hlt hmem => Nat.find_min hex hlt ⟨hk, hmem⟩⟩

/-- The walk from string to string, as long as there is a next one. -/
theorem exists_walk (mem : Nat → UInt8) (p : Nat) : ∃ ps : Nat → Nat, ps 0 = p ∧
    ∀ k, (∃ q, NextString mem (ps k) q) → NextString mem (ps k) (ps (k + 1)) := by
  classical
  let next : Nat → Nat := fun a => if h : ∃ q, NextString mem a q then h.choose else a
  refine ⟨fun k => next^[k] p, rfl, ?_⟩
  intro k h
  have hnext : next (next^[k] p) = h.choose := dif_pos h
  have hstep : next^[k + 1] p = h.choose := (Function.iterate_succ_apply' next k p).trans hnext
  dsimp only
  rw [hstep]
  exact h.choose_spec

end Next

end OriaOS.Lib
