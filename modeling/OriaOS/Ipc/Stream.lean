import OriaOS.Lib.Reach
import OriaOS.Ipc.Pipe

/-!
# Pipe descriptors as a byte stream

`vfs_write` and `vfs_read` on the two ends of one pipe. `vfs_write` hands its buffer
to `pipe_write` in chunks of at most 255 bytes, each a step of its own, until all
bytes are taken; a read or the close of the write end is one step.

`accepted` are the bytes the writes have counted as written, `delivered` the bytes
the reads have returned. `overrun` and `falseEnd` record a read that stored more than
it was asked for, and one that returned 0 without cause.
-/

namespace OriaOS.Ipc

open OriaOS.Lib

/-- `VFS_EAGAIN`. -/
def vfsEagain : Int := -11

/-- `vfs_read` on a read end, if it need not wait. -/
def vfsRead (p : Pipe) (len : Int) (nonblock : Bool) : Option ReadResult :=
  if len ≤ 0 then some ⟨0, [], p⟩
  else if nonblock && !pipeHasData p then some ⟨vfsEagain, [], p⟩
  else
    (pipeRead p).map fun out =>
      { out with ret := if out.ret < len then out.ret else len }

/-- `writing` is the part of the buffer of `vfs_write` that is still to be written;
`writer` tells whether the write end is open. -/
structure Stream where
  pipe : Pipe
  writing : List UInt8
  writer : Bool
  accepted : List UInt8
  delivered : List UInt8
  overrun : Bool
  falseEnd : Bool

namespace Stream

/-- One turn of the loop of `vfs_write`. -/
def chunk (s : Stream) : Stream :=
  let out := pipeWrite s.pipe (s.writing.take 255)
  if out.2 < 0 then { s with writing := [] }
  else
    { s with
      pipe := out.1
      writing := s.writing.drop out.2.toNat
      accepted := s.accepted ++ s.writing.take out.2.toNat }

/-- The read takes place and is recorded. -/
def record (s : Stream) (len : Int) (out : ReadResult) : Stream :=
  { s with
    pipe := out.pipe
    delivered := s.delivered ++ out.stored.take out.ret.toNat
    overrun := s.overrun || decide (len.toNat < out.stored.length)
    falseEnd := s.falseEnd ||
      decide (out.ret = 0 ∧ 0 < len ∧ ¬ (s.pipe.ring.contents = [] ∧ s.writer = false)) }

end Stream

inductive StreamOp where
  | write (buf : List UInt8)
  | chunk
  | read (len : Int) (nonblock : Bool)
  | close

def streamStep (s : Stream) : StreamOp → Stream
  | .write buf => if s.writer = true ∧ s.writing = [] then { s with writing := buf } else s
  | .chunk => if s.writing = [] then s else s.chunk
  | .read len nonblock =>
      match vfsRead s.pipe len nonblock with
      | none => s
      | some out => s.record len out
  | .close =>
      if s.writer = true ∧ s.writing = [] then
        { s with writer := false, pipe := pipeWriterDetach s.pipe }
      else s

/-- The pipe as `vfs_pipe` leaves it. -/
structure StreamStart (s : Stream) : Prop where
  pipe : ∃ p, s.pipe = pipeWriterAttach (pipeReset p)
  writing : s.writing = []
  writer : s.writer = true
  accepted : s.accepted = []
  delivered : s.delivered = []
  overrun : s.overrun = false
  falseEnd : s.falseEnd = false

/-! ## What the descriptors promise -/

structure StreamOk (s : Stream) : Prop where
  bounded : s.overrun = false
  inOrder : s.delivered <+: s.accepted
  trueEnd : s.falseEnd = false

/-- The condition on the calls: no zero byte is written, and a read asks for more
bytes than the first message in the ring has. -/
def streamGuard (s : Stream) : StreamOp → Prop
  | .write buf => 0 ∉ buf
  | .read len _ => len ≤ 0 ∨ (firstMessage 0 s.pipe.ring.contents).length < len
  | _ => True

instance (s : Stream) (op : StreamOp) : Decidable (streamGuard s op) :=
  match op with
  | .write buf => inferInstanceAs (Decidable (0 ∉ buf))
  | .read len _ =>
      inferInstanceAs (Decidable (len ≤ 0 ∨ (firstMessage 0 s.pipe.ring.contents).length < len))
  | .chunk | .close => isTrue trivial

/-- The bytes in the ring are those accepted and not yet delivered, in messages none
of which is empty. -/
structure StreamInv (s : Stream) : Prop where
  used : s.pipe.used = true
  refs : s.pipe.writeRefs = if s.writer then 1 else 0
  eof : s.pipe.eof = !s.writer
  framed : Framed 0 s.pipe.ring.contents
  nonzero : 0 ∉ s.writing
  stream : s.accepted = s.delivered ++ payload 0 s.pipe.ring.contents
  overrun : s.overrun = false
  falseEnd : s.falseEnd = false

theorem StreamInv.ok {s : Stream} (h : StreamInv s) : StreamOk s where
  bounded := h.overrun
  inOrder := ⟨_, h.stream.symm⟩
  trueEnd := h.falseEnd

theorem StreamStart.inv {s : Stream} (h : StreamStart s) : StreamInv s := by
  obtain ⟨p, hp⟩ := h.pipe
  have hempty : s.pipe.ring.contents = [] := by
    rw [hp]
    exact Ring.contents_eq_nil rfl
  constructor
  case used => rw [hp]; rfl
  case refs => rw [hp, h.writer]; rfl
  case eof => rw [hp, h.writer]; rfl
  case framed => rw [hempty]; exact framed_nil 0
  case nonzero => simp [h.writing]
  case stream => rw [hempty, h.accepted, h.delivered]; rfl
  case overrun => exact h.overrun
  case falseEnd => exact h.falseEnd

section Steps
variable {s : Stream}

/-- A turn of `vfs_write` moves bytes from the buffer into the ring. -/
theorem chunk_inv (h : StreamInv s) (hw : s.writing ≠ []) : StreamInv s.chunk := by
  have hz : 0 ∉ s.writing.take 255 := fun hm => h.nonzero (List.mem_of_mem_take hm)
  have hne : s.writing.take 255 ≠ [] := by simp [hw]
  have hout : pipeWrite s.pipe (s.writing.take 255) =
      ({ s.pipe with ring := (pipeWriteLoop s.pipe.ring (s.writing.take 255)).1.push 0 },
        ((pipeWriteLoop s.pipe.ring (s.writing.take 255)).2 : Int)) := by
    rw [pipeWrite, if_pos h.used]
  obtain ⟨hle, -, -⟩ := pipeWriteLoop_spec (r := s.pipe.ring) hz
  have hpush := push_pipeWriteLoop (r := s.pipe.ring) hz
  unfold Stream.chunk
  rw [hout]
  generalize (pipeWriteLoop s.pipe.ring (s.writing.take 255)).2 = n at hle hpush
  have hn : ¬ ((n : Int) < 0) := by omega
  simp only [if_neg hn, Int.toNat_natCast]
  have htake : (s.writing.take 255).take n = s.writing.take n := by
    rw [List.take_take, Nat.min_eq_left]
    exact hle.trans (List.length_take_le _ _)
  have hpart : 0 ∉ s.writing.take n := fun hm => h.nonzero (List.mem_of_mem_take hm)
  have hall : n = (s.writing.take 255).length → s.writing.take 255 = s.writing.take n := by
    intro hlen
    rw [← htake, hlen, List.take_length]
  constructor
  case used => exact h.used
  case refs => exact h.refs
  case eof => exact h.eof
  case framed =>
    rcases hpush with hpush | ⟨-, hpush⟩
    · rw [hpush, htake]
      exact h.framed.append hpart
    · rw [hpush]
      exact h.framed.close hz hne
  case nonzero => exact fun hm => h.nonzero (List.mem_of_mem_drop hm)
  case stream =>
    have hpayload : payload 0 ((pipeWriteLoop s.pipe.ring (s.writing.take 255)).1.push 0).contents =
        payload 0 s.pipe.ring.contents ++ s.writing.take n := by
      rcases hpush with hpush | ⟨hlen, hpush⟩
      · rw [hpush, htake, payload_append, payload_eq_self hpart]
      · have hsep : payload (0 : UInt8) [0] = [] := rfl
        rw [hpush, hall hlen, payload_append, payload_append, payload_eq_self hpart, hsep,
          List.append_nil]
    rw [hpayload, h.stream, List.append_assoc]
  case overrun => exact h.overrun
  case falseEnd => exact h.falseEnd

/-- A read that stores nothing leaves the stream as it is. -/
theorem record_nothing {len ret : Int} (h : StreamInv s)
    (hret : ret = 0 → 0 < len → s.pipe.ring.contents = [] ∧ s.writer = false) :
    StreamInv (s.record len ⟨ret, [], s.pipe⟩) where
  used := h.used
  refs := h.refs
  eof := h.eof
  framed := h.framed
  nonzero := h.nonzero
  stream := by simpa [Stream.record] using h.stream
  overrun := by simpa [Stream.record] using h.overrun
  falseEnd := by
    simp only [Stream.record, h.falseEnd, Bool.false_or, decide_eq_false_iff_not]
    rintro ⟨h0, hpos, hnot⟩
    exact hnot (hret h0 hpos)

/-- A read takes the first message out. -/
theorem record_message {len : Int} (h : StreamInv s) (hdata : s.pipe.ring.tail ≠ s.pipe.ring.head)
    (hlen : (firstMessage 0 s.pipe.ring.contents).length < len) :
    StreamInv (s.record len ⟨(firstMessage 0 s.pipe.ring.contents).length,
      firstMessage 0 s.pipe.ring.contents ++ [0],
      { s.pipe with ring := (pipeReadLoop (pipeBuf - 1) s.pipe.ring).2 }⟩) := by
  obtain ⟨-, hafter⟩ := pipeReadLoop_spec (contents_length_le s.pipe.ring)
  have hfirst := h.framed.first_ne_nil (contents_ne_nil hdata)
  constructor
  case used => exact h.used
  case refs => exact h.refs
  case eof => exact h.eof
  case framed =>
    change Framed 0 (pipeReadLoop (pipeBuf - 1) s.pipe.ring).2.contents
    rw [hafter]
    exact h.framed.afterFirst
  case nonzero => exact h.nonzero
  case stream =>
    change s.accepted = s.delivered ++ List.take _ _ ++
      payload 0 (pipeReadLoop (pipeBuf - 1) s.pipe.ring).2.contents
    rw [hafter, Int.toNat_natCast, List.take_left, h.stream, List.append_assoc, ← payload_eq]
  case overrun =>
    simp only [Stream.record, h.overrun, Bool.false_or, decide_eq_false_iff_not,
      List.length_append, List.length_singleton]
    omega
  case falseEnd =>
    simp only [Stream.record, h.falseEnd, Bool.false_or, decide_eq_false_iff_not]
    rintro ⟨h0, -, -⟩
    exact hfirst (List.length_eq_zero_iff.mp (Int.natCast_eq_zero.mp h0))

theorem read_inv {len : Int} {nonblock : Bool} (h : StreamInv s)
    (hg : len ≤ 0 ∨ (firstMessage 0 s.pipe.ring.contents).length < len) {out : ReadResult}
    (hout : vfsRead s.pipe len nonblock = some out) : StreamInv (s.record len out) := by
  unfold vfsRead at hout
  split at hout
  · next hle =>
    cases hout
    exact record_nothing h fun _ hpos => absurd hpos (Int.not_lt.mpr hle)
  · next hpos =>
    have hlen := hg.resolve_left hpos
    split at hout
    · cases hout
      exact record_nothing h fun h0 => absurd h0 (by decide)
    · rw [pipeRead, if_neg (by simp [h.used])] at hout
      split at hout
      · next hdata =>
        obtain ⟨hfirst, -⟩ := pipeReadLoop_spec (contents_length_le s.pipe.ring)
        simp only [Option.map_some, Option.some.injEq, hfirst] at hout
        rw [if_pos hlen] at hout
        rw [← hout]
        exact record_message h hdata hlen
      · next hempty =>
        split at hout
        · next heof =>
          rw [Option.map_some, Option.some.injEq] at hout
          rw [← hout, if_pos (Int.not_le.mp hpos)]
          refine record_nothing h fun _ _ => ⟨Ring.contents_eq_nil (not_not.mp hempty), ?_⟩
          rw [h.eof] at heof
          simpa using heof
        · cases hout

theorem close_inv (h : StreamInv s) (hw : s.writer = true) :
    StreamInv { s with writer := false, pipe := pipeWriterDetach s.pipe } := by
  have hdetach : pipeWriterDetach s.pipe = { s.pipe with writeRefs := 0, eof := true } := by
    have hrefs := h.refs
    rw [hw, if_pos rfl] at hrefs
    simp [pipeWriterDetach, h.used, hrefs]
  rw [hdetach]
  exact ⟨h.used, rfl, rfl, h.framed, h.nonzero, h.stream, h.overrun, h.falseEnd⟩

theorem streamStep_inv (h : StreamInv s) {op : StreamOp} (hg : streamGuard s op) :
    StreamInv (streamStep s op) := by
  cases op with
  | write buf =>
      simp only [streamStep]
      split
      · exact ⟨h.used, h.refs, h.eof, h.framed, hg, h.stream, h.overrun, h.falseEnd⟩
      · exact h
  | chunk =>
      simp only [streamStep]
      split
      · exact h
      · next hw => exact chunk_inv h hw
  | read len nonblock =>
      simp only [streamStep]
      split
      · exact h
      · next out hout => exact read_inv h hg hout
  | close =>
      simp only [streamStep]
      split
      · next hc => exact close_inv h hc.1
      · exact h

end Steps

/-- In every run of writes without zero bytes and reads with room for the next
message, the descriptors are a byte stream. -/
theorem byte_stream {s : Stream} (r : Reach StreamStart streamGuard streamStep s) :
    StreamOk s := by
  apply StreamInv.ok
  exact r.invariant (fun _ h => h.inv) fun _ _ h hg => streamStep_inv h hg

/-- A new pipe on zeroed memory. -/
def newStream : Stream where
  pipe := pipeWriterAttach (pipeReset ⟨⟨fun _ => 0, 0, 0⟩, false, false, 0⟩)
  writing := []
  writer := true
  accepted := []
  delivered := []
  overrun := false
  falseEnd := false

theorem newStream_start : StreamStart newStream :=
  ⟨⟨_, rfl⟩, rfl, rfl, rfl, rfl, rfl, rfl⟩

/-- Two messages are written and read, then the writer closes. -/
def twoMessages : List StreamOp :=
  [.read 4 true, .write [104, 105], .chunk, .write [33], .chunk, .read 64 false, .read 2 false,
    .close, .read 64 false]

theorem byte_stream_two_messages : StreamOk (twoMessages.foldl streamStep newStream) :=
  byte_stream ((Reach.start newStream_start).guarded (by decide +kernel))

/-- A message of three bytes is read into a buffer of one. -/
def shortRead : List StreamOp := [.write [97, 98, 99], .chunk, .read 1 false]

theorem short_read_overruns : ¬ ∀ s, Reach StreamStart anyInput streamStep s → StreamOk s := by
  intro h
  have hs := (h _ ((Reach.start newStream_start).foldl shortRead)).bounded
  revert hs
  decide +kernel

end OriaOS.Ipc
