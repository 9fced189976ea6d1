import OriaOS.Lib.Bytes
import OriaOS.Lib.Reach
import OriaOS.Ipc.Pipe

/-!
# The pipe ring as a queue of characters

`pipe_write` and `pipe_read` on one allocated pipe. Both run with interrupts off, so
each call is one step. `accepted` are the characters the writes have counted,
`returned` those the reads have handed out, `widest` the most bytes a read has stored.
-/

namespace OriaOS.Ipc

open OriaOS.Lib

structure Queue where
  pipe : Pipe
  accepted : List UInt8
  returned : List UInt8
  widest : Nat

inductive QueueOp where
  | write (str : CString)
  | read
  deriving DecidableEq

def queueStep (s : Queue) : QueueOp → Queue
  | .write str =>
      let out := pipeWrite s.pipe str.bytes
      { s with pipe := out.1, accepted := s.accepted ++ str.bytes.take out.2.toNat }
  | .read =>
      match pipeRead s.pipe with
      | none => s
      | some out =>
          { s with
            pipe := out.pipe
            returned := s.returned ++ out.stored.take out.ret.toNat
            widest := max s.widest out.stored.length }

/-- The pipe as `pipe_alloc` leaves it. -/
structure QueueStart (s : Queue) : Prop where
  pipe : ∃ p, s.pipe = pipeReset p
  accepted : s.accepted = []
  returned : s.returned = []
  widest : s.widest = 0

/-- A read is called when there is something to read. -/
def queueGuard (s : Queue) : QueueOp → Prop
  | .write _ => True
  | .read => pipeHasData s.pipe = true

instance (s : Queue) (op : QueueOp) : Decidable (queueGuard s op) :=
  match op with
  | .write _ => isTrue trivial
  | .read => inferInstanceAs (Decidable (_ = true))

/-- What was handed out, and behind it the characters in the ring, are the characters
the writes have counted. -/
structure QueueOk (s : Queue) : Prop where
  order : s.returned ++ payload 0 s.pipe.ring.contents = s.accepted
  bounded : s.widest ≤ pipeBuf

structure QueueInv (s : Queue) : Prop extends QueueOk s where
  used : s.pipe.used = true

theorem QueueStart.inv {s : Queue} (h : QueueStart s) : QueueInv s := by
  obtain ⟨p, hp⟩ := h.pipe
  have hempty : s.pipe.ring.contents = [] := by
    rw [hp]
    exact Ring.contents_eq_nil rfl
  constructor
  case toQueueOk =>
    constructor
    · rw [hempty, h.returned, h.accepted]
      rfl
    · rw [h.widest]
      exact Nat.zero_le _
  case used =>
    rw [hp]
    rfl

section Steps
variable {s : Queue}

/-- A write adds to the characters in the ring exactly those it counts. -/
theorem payload_pipeWrite {p : Pipe} (hu : p.used = true) (str : CString) :
    payload 0 (pipeWrite p str.bytes).1.ring.contents =
      payload 0 p.ring.contents ++ str.bytes.take (pipeWrite p str.bytes).2.toNat := by
  have hpart : ∀ n, (0 : UInt8) ∉ str.bytes.take n :=
    fun n hm => str.nonzero (List.mem_of_mem_take hm)
  rw [pipeWrite, if_pos hu]
  simp only [Int.toNat_natCast]
  rcases push_pipeWriteLoop (r := p.ring) str.nonzero with hpush | ⟨hall, hpush⟩
  · rw [hpush, payload_append, payload_eq_self (hpart _)]
  · have hsep : payload (0 : UInt8) [0] = [] := rfl
    rw [hpush, hall, List.take_length, payload_append, payload_append,
      payload_eq_self str.nonzero, hsep, List.append_nil]

theorem QueueInv.write (h : QueueInv s) (str : CString) :
    QueueInv (queueStep s (.write str)) := by
  constructor
  case toQueueOk =>
    constructor
    · change s.returned ++ payload 0 (pipeWrite s.pipe str.bytes).1.ring.contents = _
      rw [payload_pipeWrite h.used, ← List.append_assoc, h.order]
      rfl
    · exact h.bounded
  case used =>
    change (pipeWrite s.pipe str.bytes).1.used = true
    rw [pipeWrite, if_pos h.used]
    exact h.used

/-- A read of a ring that is not empty hands out the first message. -/
theorem pipeRead_message {p : Pipe} (hd : pipeHasData p = true) :
    ∃ r, pipeRead p = some
        ⟨(firstMessage 0 p.ring.contents).length, firstMessage 0 p.ring.contents ++ [0],
          { p with ring := r }⟩ ∧
      r.contents = afterFirst 0 p.ring.contents := by
  obtain ⟨hu, hne⟩ := Bool.and_eq_true_iff.mp hd
  obtain ⟨hfirst, hafter⟩ := pipeReadLoop_spec (contents_length_le p.ring)
  refine ⟨_, ?_, hafter⟩
  rw [pipeRead, if_neg (by simp [hu]), if_pos (bne_iff_ne.mp hne), ← hfirst]

/-- A read with data in the ring hands out the characters in front of the first
separator, and takes these and the separator out. -/
theorem read_takes_message (hd : pipeHasData s.pipe = true) :
    ∃ r, queueStep s .read =
        { s with
          pipe := { s.pipe with ring := r }
          returned := s.returned ++ firstMessage 0 s.pipe.ring.contents
          widest := max s.widest ((firstMessage 0 s.pipe.ring.contents).length + 1) } ∧
      r.contents = afterFirst 0 s.pipe.ring.contents := by
  obtain ⟨r, hread, hrest⟩ := pipeRead_message hd
  refine ⟨r, ?_, hrest⟩
  rw [queueStep, hread]
  simp only [Int.toNat_natCast, List.take_left, List.length_append, List.length_singleton]

theorem QueueInv.read (h : QueueInv s) (hd : pipeHasData s.pipe = true) :
    QueueInv (queueStep s .read) := by
  obtain ⟨r, hread, hrest⟩ := read_takes_message hd
  have hlen : (firstMessage 0 s.pipe.ring.contents).length ≤ pipeBuf - 1 :=
    ((List.takeWhile_prefix _).length_le).trans (contents_length_le s.pipe.ring)
  rw [hread]
  constructor
  case toQueueOk =>
    constructor
    · calc
        (s.returned ++ firstMessage 0 s.pipe.ring.contents) ++ payload 0 r.contents
          = s.returned ++ (firstMessage 0 s.pipe.ring.contents ++
              payload 0 (afterFirst 0 s.pipe.ring.contents)) := by
            rw [hrest, List.append_assoc]
        _ = s.returned ++ payload 0 s.pipe.ring.contents := by rw [← payload_eq]
        _ = s.accepted := h.order
    · exact max_le h.bounded (Nat.add_le_of_le_sub (by decide) hlen)
  case used => exact h.used

theorem queueStep_inv (h : QueueInv s) {op : QueueOp} (hg : queueGuard s op) :
    QueueInv (queueStep s op) := by
  cases op with
  | write str => exact h.write str
  | read => exact h.read hg

end Steps

/-- The ring of a pipe is a queue of characters: over every sequence of writes and
reads nothing is lost, duplicated or reordered, and no read stores more than
`PIPE_BUF` bytes. -/
theorem ring_is_queue {s : Queue} (r : Reach QueueStart queueGuard queueStep s) : QueueOk s :=
  (r.invariant (fun _ h => h.inv) fun _ _ h hg => queueStep_inv h hg).toQueueOk

theorem nonzero_ab : (0 : UInt8) ∉ [(97 : UInt8), 98] := by decide

theorem nonzero_c : (0 : UInt8) ∉ [(99 : UInt8)] := by decide

/-- A pipe behind `pipe_alloc`. -/
def newQueue : Queue where
  pipe := pipeReset ⟨⟨fun _ => 0, 0, 0⟩, false, false, 0⟩
  accepted := []
  returned := []
  widest := 0

def twoWritesOneRead : List QueueOp :=
  [.write ⟨[97, 98], nonzero_ab⟩, .write ⟨[99], nonzero_c⟩, .read]

theorem ring_is_queue_two_writes :
    QueueOk (twoWritesOneRead.foldl queueStep newQueue) := by
  apply ring_is_queue
  apply (Reach.start ⟨⟨_, rfl⟩, rfl, rfl, rfl⟩ :
    Reach QueueStart queueGuard queueStep newQueue).guarded
  decide

end OriaOS.Ipc
