import Mathlib.Data.List.TakeWhile
import OriaOS.Lib.Faults

/-!
# Buffers of a fixed size

A text goes into a buffer byte by byte. A loop whose limit is within the size of the buffer
stores nothing outside it, whatever the text.
-/

namespace OriaOS.Lib.Faulting

universe u

variable {limit size : Nat}
variable {α : Type u}

/-- `buf[n++] = c` in a buffer of a size, behind the `n` elements that are stored. -/
def push (size : Nat) (buf : List α) (c : α) : Faulting (List α) :=
  if buf.length < size then pure (buf ++ [c]) else .error .outside

/-- `buf[n] = '\0'`. -/
def close (size : Nat) (buf : List α) : Faulting (List α) :=
  if buf.length < size then pure buf else .error .outside

/-- `while (p(*t) && n < limit) buf[n++] = *t++`: the buffer, and what is left of the text. -/
def fill (size limit : Nat) (p : α → Bool) : List α → List α → Faulting (List α × List α)
  | buf, [] => pure (buf, [])
  | buf, c :: text =>
      if p c ∧ buf.length < limit then do
        let buf ← push size buf c
        fill size limit p buf text
      else pure (buf, c :: text)

/-- `while (*t && n < limit) buf[n++] = *t++`. -/
def append (size limit : Nat) (buf text : List α) : Faulting (List α) := do
  let r ← fill size limit (fun _ => true) buf text
  pure r.1

/-- `while (*t) buf[n++] = *t++`. -/
def store (size : Nat) : List α → List α → Faulting (List α)
  | buf, [] => pure buf
  | buf, c :: text => do
      let buf ← push size buf c
      store size buf text

theorem push_of_lt {buf : List α} (h : buf.length < size) (c : α) :
    push size buf c = pure (buf ++ [c]) := if_pos h

theorem close_of_lt {buf : List α} (h : buf.length < size) : close size buf = pure buf := if_pos h

theorem store_of_le {buf text : List α} (h : buf.length + text.length ≤ size) :
    store size buf text = pure (buf ++ text) := by
  induction text generalizing buf with
  | nil => rw [store, List.append_nil]
  | cons c text ih =>
      rw [List.length_cons] at h
      rw [store, push_of_lt (by omega), pure_bind,
        ih (by rw [List.length_append, List.length_singleton]; omega), List.append_assoc,
        List.singleton_append]

/-- What a loop stores. -/
def filled (limit : Nat) (p : α → Bool) (buf text : List α) : List α :=
  (text.takeWhile p).take (limit - buf.length)

theorem fill_eq (h : limit ≤ size) (p : α → Bool) (buf text : List α) :
    fill size limit p buf text =
      pure (buf ++ filled limit p buf text, text.drop (filled limit p buf text).length) := by
  induction text generalizing buf with
  | nil =>
      unfold filled
      rw [fill, List.takeWhile_nil, List.take_nil, List.append_nil, List.drop_nil]
  | cons c text ih =>
      unfold fill
      split
      · rename_i hc
        have hstep : filled limit p buf (c :: text) = c :: filled limit p (buf ++ [c]) text := by
          have hlen : limit - buf.length = limit - (buf ++ [c]).length + 1 := by
            rw [List.length_append, List.length_singleton]
            omega
          unfold filled
          rw [List.takeWhile_cons_of_pos hc.1, hlen, List.take_succ_cons]
        rw [push_of_lt (Nat.lt_of_lt_of_le hc.2 h), pure_bind, ih, hstep, List.append_assoc,
          List.singleton_append, List.length_cons, List.drop_succ_cons]
      · rename_i hc
        have hnone : filled limit p buf (c :: text) = [] := by
          unfold filled
          obtain hp | hfull := not_and_or.mp hc
          · rw [List.takeWhile_cons_of_neg hp, List.take_nil]
          · rw [Nat.sub_eq_zero_of_le (Nat.le_of_not_lt hfull), List.take_zero]
        rw [hnone, List.append_nil, List.length_nil, List.drop_zero]

/-- An empty buffer gets a text cut at the limit. -/
theorem fill_nil (h : limit ≤ size) (p : α → Bool) (text : List α) :
    fill size limit p [] text = pure ((text.takeWhile p).take limit,
      text.drop ((text.takeWhile p).take limit).length) := by
  rw [fill_eq h]
  rfl

/-- A buffer cut below its size has room for the zero byte. -/
theorem close_take (h : limit < size) (text : List α) :
    close size (text.take limit) = pure (text.take limit) :=
  close_of_lt (Nat.lt_of_le_of_lt (List.length_take_le _ _) h)

theorem append_eq (h : limit ≤ size) (buf text : List α) :
    append size limit buf text = pure (buf ++ text.take (limit - buf.length)) := by
  have hall : text.takeWhile (fun _ => true) = text :=
    List.takeWhile_eq_self_iff.mpr fun _ _ => rfl
  rw [append, fill_eq h, pure_bind, filled, hall]

/-- One text behind another, cut at one limit. -/
theorem take_append_rest (limit : Nat) (buf text : List α) :
    buf.take limit ++ text.take (limit - (buf.take limit).length) = (buf ++ text).take limit := by
  have hrest : limit - (buf.take limit).length = limit - buf.length := by
    rw [List.length_take]
    omega
  rw [hrest, List.take_append]

theorem append_take (h : limit ≤ size) (buf text : List α) :
    append size limit (buf.take limit) text = pure ((buf ++ text).take limit) := by
  rw [append_eq h, take_append_rest]

theorem append_nil (h : limit ≤ size) (text : List α) :
    append size limit [] text = pure (text.take limit) := append_eq h [] text

end OriaOS.Lib.Faulting
