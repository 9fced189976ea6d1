import OriaOS.Lib.Ring
import OriaOS.Lib.Separated

/-!
# Pipes

The ring buffer of `pipe.c` with its end-of-file flag and its count of writers. The
source reads at `head` and writes at `tail`; the ring of the library has the two
names the other way round.

A message is closed by a zero byte. A read that finds the ring empty waits until
there is data or the end of the file; the queue of waiting readers is left out, and
a read that has to wait is one that does not take place yet.
-/

namespace OriaOS.Ipc

open OriaOS.Lib

/-- `PIPE_BUF`. -/
abbrev pipeBuf : Nat := 256

instance : NeZero pipeBuf := ⟨by decide⟩

/-- `writeRefs` is an `int8_t`. -/
structure Pipe where
  ring : Ring UInt8 pipeBuf
  used : Bool
  eof : Bool
  writeRefs : Int

/-- The stores of `pipe_alloc` on the slot it finds. -/
def pipeReset (p : Pipe) : Pipe where
  ring := { p.ring with head := 0, tail := 0 }
  used := true
  eof := false
  writeRefs := 0

/-- The store of `pipe_free`. -/
def pipeFree (p : Pipe) : Pipe := { p with used := false }

def pipeWriterAttach (p : Pipe) : Pipe :=
  if p.used then { p with writeRefs := Int.bmod (p.writeRefs + 1) 256 } else p

def pipeWriterDetach (p : Pipe) : Pipe :=
  if p.used then
    let refs := if 0 < p.writeRefs then p.writeRefs - 1 else p.writeRefs
    { p with writeRefs := refs, eof := p.eof || decide (refs = 0) }
  else p

/-- The loop of `pipe_write` over a string, with the number of bytes written. -/
def pipeWriteLoop (r : Ring UInt8 pipeBuf) : List UInt8 → Ring UInt8 pipeBuf × Nat
  | [] => (r, 0)
  | c :: str =>
      if c = 0 then (r, 0)
      else
        match r.offer c with
        | none => (r, 0)
        | some r' =>
            let rest := pipeWriteLoop r' str
            (rest.1, rest.2 + 1)

/-- `pipe_write`: the string and, if it still fits, its separator. -/
def pipeWrite (p : Pipe) (str : List UInt8) : Pipe × Int :=
  if p.used then
    let out := pipeWriteLoop p.ring str
    ({ p with ring := out.1.push 0 }, out.2)
  else (p, -1)

/-- The loop of `pipe_read`, for at most `n` bytes. -/
def pipeReadLoop : Nat → Ring UInt8 pipeBuf → List UInt8 × Ring UInt8 pipeBuf
  | 0, r => ([], r)
  | n + 1, r =>
      match r.poll with
      | none => ([], r)
      | some (c, r') =>
          if c = 0 then ([], r')
          else
            let rest := pipeReadLoop n r'
            (c :: rest.1, rest.2)

/-- A result of a read: what it returns, the bytes it stores, and the pipe behind
it. -/
structure ReadResult where
  ret : Int
  stored : List UInt8
  pipe : Pipe

/-- `pipe_read`, if it need not wait. It stores a zero byte behind the message. -/
def pipeRead (p : Pipe) : Option ReadResult :=
  if p.used = false then some ⟨-1, [], p⟩
  else if p.ring.tail ≠ p.ring.head then
    let out := pipeReadLoop (pipeBuf - 1) p.ring
    some ⟨out.1.length, out.1 ++ [0], { p with ring := out.2 }⟩
  else if p.eof then some ⟨0, [], p⟩
  else none

def pipeHasData (p : Pipe) : Bool := p.used && p.ring.tail != p.ring.head

/-! ## What the ring holds -/

section Ring
variable {r : Ring UInt8 pipeBuf} {str : List UInt8}

/-- The loop appends as many bytes as it says, and stops early only if the ring is
full. -/
theorem pipeWriteLoop_spec (h : 0 ∉ str) :
    (pipeWriteLoop r str).2 ≤ str.length ∧
      (pipeWriteLoop r str).1.contents = r.contents ++ str.take (pipeWriteLoop r str).2 ∧
      ((pipeWriteLoop r str).2 < str.length → (pipeWriteLoop r str).1.Full) := by
  induction str generalizing r with
  | nil => simp [pipeWriteLoop]
  | cons c str ih =>
      obtain ⟨hc, hstr⟩ := not_or.mp (mt List.mem_cons.mpr h)
      rw [pipeWriteLoop, if_neg fun he => hc he.symm]
      cases ho : r.offer c with
      | none =>
          have hfull : r.Full := by
            by_contra hfull
            rw [Ring.offer, if_neg hfull] at ho
            cases ho
          simp [hfull]
      | some r' =>
          obtain ⟨hle, hcontents, hfull⟩ := ih (r := r') hstr
          refine ⟨Nat.succ_le_succ hle, ?_, fun hlt => hfull (Nat.lt_of_succ_lt_succ hlt)⟩
          rw [hcontents, Ring.contents_offer ho]
          simp

/-- A write appends a part of the string, or all of it with its separator. -/
theorem push_pipeWriteLoop (h : 0 ∉ str) :
    ((pipeWriteLoop r str).1.push 0).contents =
        r.contents ++ str.take (pipeWriteLoop r str).2 ∨
      (pipeWriteLoop r str).2 = str.length ∧
        ((pipeWriteLoop r str).1.push 0).contents = r.contents ++ str ++ [0] := by
  obtain ⟨hle, hcontents, hfull⟩ := pipeWriteLoop_spec (r := r) h
  unfold Ring.push
  split
  · exact Or.inl hcontents
  · next hnot =>
    have heq : (pipeWriteLoop r str).2 = str.length := by
      by_contra hne
      exact hnot (hfull (Nat.lt_of_le_of_ne hle hne))
    refine Or.inr ⟨heq, ?_⟩
    rw [Ring.contents_write hnot, hcontents, heq, List.take_length]

/-- The loop takes out the first message and its separator. -/
theorem pipeReadLoop_spec {n : Nat} (h : r.contents.length ≤ n) :
    (pipeReadLoop n r).1 = firstMessage 0 r.contents ∧
      (pipeReadLoop n r).2.contents = afterFirst 0 r.contents := by
  induction n generalizing r with
  | zero =>
      have hnil : r.contents = [] := List.length_eq_zero_iff.mp (Nat.le_zero.mp h)
      simp [pipeReadLoop, hnil, firstMessage, afterFirst]
  | succ n ih =>
      rw [pipeReadLoop]
      split
      · next hpoll =>
        rw [Ring.contents_of_poll_none hpoll]
        exact ⟨rfl, rfl⟩
      · next c r' hpoll =>
        have hcontents := Ring.contents_of_poll_some hpoll
        rw [hcontents] at h ⊢
        split
        · next hc => simp [firstMessage, afterFirst, hc]
        · next hc =>
          obtain ⟨hfirst, hafter⟩ := ih (r := r') (Nat.le_of_succ_le_succ h)
          simp [firstMessage, afterFirst, hc, hfirst, hafter]

theorem contents_length_le (r : Ring UInt8 pipeBuf) : r.contents.length ≤ pipeBuf - 1 := by
  rw [Ring.length_contents]
  exact Nat.le_pred_of_lt r.count_lt

theorem contents_ne_nil (h : r.tail ≠ r.head) : r.contents ≠ [] := by
  rw [Ring.contents_pop h]
  exact List.cons_ne_nil _ _

end Ring

end OriaOS.Ipc
