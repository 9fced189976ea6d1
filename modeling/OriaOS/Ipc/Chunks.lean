import OriaOS.Ipc.Terminals

/-!
# Writing in chunks

The loops of `vfs_write` on a write end and on a terminal. Each turn copies at most 255
bytes to a string and hands it to `pipe_write`; what `pipe_write` says it has stored counts
as written, and the loop goes on with the rest. No other task touches the pipe meanwhile.

A turn that stores nothing is repeated. This is what becomes of a full ring, and of a byte
zero, which ends the string.
-/

namespace OriaOS.Ipc

open OriaOS.Lib OriaOS.Sched

/-- `pipe_write` with its range check. -/
def pipeWriteTo (ps : PipeId → Pipe) (id : Int) (str : List UInt8) : (PipeId → Pipe) × Int :=
  match FdSys.pipeOf id with
  | none => (ps, -1)
  | some p => (Function.update ps p (pipeWrite (ps p) str).1, (pipeWrite (ps p) str).2)

/-- The chunk loop of `vfs_write`, at most `fuel` turns of it: the pipes and the number of
bytes written when the loop is left. -/
def chunkLoop (id : Int) : Nat → (PipeId → Pipe) → List UInt8 → Option ((PipeId → Pipe) × Nat)
  | 0, _, _ => none
  | fuel + 1, ps, rest =>
      if rest = [] then some (ps, 0)
      else
        let r := pipeWriteTo ps id (rest.take 255)
        if r.2 < 0 then some (r.1, 0)
        else
          (chunkLoop id fuel r.1 (rest.drop r.2.toNat)).map fun out =>
            (out.1, r.2.toNat + out.2)

/-- The pipe a descriptor writes to: that of a write end or of a terminal. -/
def SlotSys.writesTo (s : SlotSys) (t : Tid) (j : Fd) : Option Int :=
  if (s.base.fds t j).used = false then none
  else
    match (s.base.fds t j).kind with
    | .writeEnd id => some id
    | .none => (s.ttyId t j).map fun q => ((s.ttys q).pipeId : Nat)
    | _ => none

/-- The part of `vfs_write` for the ends of pipes and for terminals; a read end is refused. -/
def SlotSys.vfsWriteChunks (s : SlotSys) (t : Tid) (j : Fd) (buf : List UInt8) (fuel : Nat) :
    Option (SlotSys × Int) :=
  match s.writesTo t j with
  | none => some (s, -1)
  | some id =>
      (chunkLoop id fuel s.base.pipes buf).map fun out =>
        ({ s with base := { s.base with pipes := out.1 } }, (out.2 : Int))

/-- The call returns after finitely many turns of its loop. -/
def WriteEnds (s : SlotSys) (t : Tid) (j : Fd) (buf : List UInt8) : Prop :=
  ∃ fuel, s.vfsWriteChunks t j buf fuel ≠ none

/-! ## One turn -/

section Turn
variable {r : Ring UInt8 pipeBuf} {str : List UInt8}

/-- The loop of `pipe_write` stores a beginning of the string without a zero in it. -/
theorem pipeWriteLoop_prefix (r : Ring UInt8 pipeBuf) (str : List UInt8) :
    (pipeWriteLoop r str).2 ≤ str.length ∧ 0 ∉ str.take (pipeWriteLoop r str).2 ∧
      (pipeWriteLoop r str).1.contents = r.contents ++ str.take (pipeWriteLoop r str).2 := by
  induction str generalizing r with
  | nil => simp [pipeWriteLoop]
  | cons c str ih =>
      rw [pipeWriteLoop]
      by_cases hc : c = 0
      · simp [hc]
      · rw [if_neg hc]
        cases ho : r.offer c with
        | none => simp
        | some r' =>
            obtain ⟨hle, hzero, hcontents⟩ := ih r'
            dsimp only
            rw [List.take_succ_cons, hcontents, Ring.contents_offer ho, List.mem_cons, not_or]
            exact ⟨Nat.succ_le_succ hle, ⟨fun h => hc h.symm, hzero⟩, by simp⟩

/-- A string that fits is stored whole. -/
theorem pipeWriteLoop_fits (hzero : 0 ∉ str) (hroom : r.count + str.length < pipeBuf) :
    (pipeWriteLoop r str).2 = str.length := by
  obtain ⟨hle, hcontents, hfull⟩ := pipeWriteLoop_spec (r := r) hzero
  by_contra hne
  have hlt : (pipeWriteLoop r str).2 < str.length := Nat.lt_of_le_of_ne hle hne
  have hcount := congrArg List.length hcontents
  rw [Ring.length_contents, List.length_append, Ring.length_contents, List.length_take] at hcount
  have hmax := (Ring.full_iff _).mp (hfull hlt)
  omega

theorem count_push_le (r : Ring UInt8 pipeBuf) (c : UInt8) : r.count ≤ (r.push c).count := by
  unfold Ring.push
  split
  · exact Nat.le_refl _
  · next h =>
    rw [Ring.count_write h]
    exact Nat.le_succ _

end Turn

/-- A write to an open pipe stores a beginning of the string without a zero in it. -/
theorem pipeWrite_prefix {p : Pipe} (hu : p.used = true) (str : List UInt8) :
    ∃ w : Nat, (pipeWrite p str).2 = w ∧ w ≤ str.length ∧ 0 ∉ str.take w ∧
      (pipeWrite p str).1.used = true ∧ p.ring.count + w ≤ (pipeWrite p str).1.ring.count := by
  obtain ⟨hle, hzero, hcontents⟩ := pipeWriteLoop_prefix p.ring str
  have hlen := congrArg List.length hcontents
  rw [Ring.length_contents, List.length_append, Ring.length_contents, List.length_take] at hlen
  have hpush := count_push_le (pipeWriteLoop p.ring str).1 0
  rw [pipeWrite, if_pos hu]
  refine ⟨_, rfl, hle, hzero, hu, ?_⟩
  dsimp only
  omega

/-! ## Runs of the loop -/

section Loop
variable {ps : PipeId → Pipe} {id : Int} {p : PipeId} {rest : List UInt8}

theorem pipeWriteTo_of_some (h : FdSys.pipeOf id = some p) (str : List UInt8) :
    pipeWriteTo ps id str =
      (Function.update ps p (pipeWrite (ps p) str).1, (pipeWrite (ps p) str).2) := by
  rw [pipeWriteTo, h]

/-- What is left of the buffer will never have been written: a zero stands in it, or the
ring has not enough room. -/
structure Stuck (q : Pipe) (rest : List UInt8) : Prop where
  used : q.used = true
  blocked : 0 ∈ rest ∨ pipeBuf ≤ q.ring.count + rest.length

theorem Stuck.ne_nil {q : Pipe} (h : Stuck q rest) : rest ≠ [] := by
  rintro rfl
  have hlt := q.ring.count_lt
  rcases h.blocked with hzero | hfull
  · cases hzero
  · rw [List.length_nil] at hfull
    omega

/-- A turn on a buffer that is stuck leaves it stuck. -/
theorem Stuck.turn {q : Pipe} (h : Stuck q rest) :
    ∃ w : Nat, (pipeWrite q (rest.take 255)).2 = w ∧
      Stuck (pipeWrite q (rest.take 255)).1 (rest.drop w) := by
  obtain ⟨w, hw, hle, hzero, hu, hcount⟩ := pipeWrite_prefix h.used (rest.take 255)
  rw [List.length_take] at hle
  rw [List.take_take, Nat.min_eq_left (by omega)] at hzero
  refine ⟨w, hw, hu, h.blocked.imp ?_ ?_⟩
  · -- The zero is not among the bytes that have been stored.
    intro hmem
    rw [← List.take_append_drop w rest, List.mem_append] at hmem
    exact hmem.resolve_left hzero
  · intro hfull
    rw [List.length_drop]
    omega

theorem chunkLoop_of_stuck (hid : FdSys.pipeOf id = some p) (h : Stuck (ps p) rest) (fuel : Nat) :
    chunkLoop id fuel ps rest = none := by
  induction fuel generalizing ps rest with
  | zero => rfl
  | succ fuel ih =>
      obtain ⟨w, hw, hstuck⟩ := h.turn
      rw [chunkLoop, if_neg h.ne_nil, pipeWriteTo_of_some hid]
      dsimp only
      rw [hw, if_neg (by omega), Int.toNat_natCast, ih (by simpa using hstuck), Option.map_none]

/-- A buffer that fits is written in one turn. -/
theorem chunkLoop_of_fits (hid : FdSys.pipeOf id = some p) (hu : (ps p).used = true)
    (hzero : 0 ∉ rest) (hroom : (ps p).ring.count + rest.length < pipeBuf) :
    chunkLoop id 2 ps rest ≠ none := by
  have hchunk : rest.take 255 = rest := List.take_of_length_le (by simp only [pipeBuf] at hroom; omega)
  have hwritten : (pipeWrite (ps p) rest).2 = rest.length := by
    rw [pipeWrite, if_pos hu]
    exact congrArg Nat.cast (pipeWriteLoop_fits hzero hroom)
  rw [chunkLoop, hchunk, pipeWriteTo_of_some hid]
  dsimp only
  rw [hwritten, if_neg (show ¬ (rest.length : Int) < 0 by omega), Int.toNat_natCast,
    List.drop_length]
  split_ifs
  · simp
  · simp [chunkLoop]

/-- No write to a pipe that is not open. -/
theorem chunkLoop_of_closed (h : ∀ p, FdSys.pipeOf id = some p → (ps p).used = false) :
    chunkLoop id 1 ps rest ≠ none := by
  have hret (str : List UInt8) : (pipeWriteTo ps id str).2 = -1 := by
    unfold pipeWriteTo
    cases hid : FdSys.pipeOf id with
    | none => rfl
    | some p => simp [pipeWrite, h p hid]
  rw [chunkLoop]
  dsimp only
  rw [hret, if_pos (show (-1 : Int) < 0 by decide)]
  split_ifs
  · simp
  · simp

end Loop

/-- The loop comes to an end exactly when there is nothing to write, the pipe is not open, or
the buffer holds no zero and fits the ring. -/
theorem write_ends_iff (s : SlotSys) (t : Tid) (j : Fd) (buf : List UInt8) :
    WriteEnds s t j buf ↔ buf = [] ∨
      ∀ id p, s.writesTo t j = some id → FdSys.pipeOf id = some p →
        (s.base.pipes p).used = true →
          0 ∉ buf ∧ (s.base.pipes p).ring.count + buf.length < pipeBuf := by
  unfold WriteEnds SlotSys.vfsWriteChunks
  cases hto : s.writesTo t j with
  | none => simp
  | some id =>
      simp only [ne_eq, Option.map_eq_none_iff, Option.some.injEq]
      constructor
      · rintro ⟨fuel, hfuel⟩
        rw [or_iff_not_imp_left]
        rintro - _ p rfl hid hu
        by_contra hblocked
        refine hfuel (chunkLoop_of_stuck hid ⟨hu, ?_⟩ fuel)
        rw [not_and_or, not_not, Nat.not_lt] at hblocked
        exact hblocked
      · rintro (rfl | h)
        · exact ⟨1, by simp [chunkLoop]⟩
        · by_cases hopen : ∃ p, FdSys.pipeOf id = some p ∧ (s.base.pipes p).used = true
          · obtain ⟨p, hid, hu⟩ := hopen
            obtain ⟨hzero, hroom⟩ := h id p rfl hid hu
            exact ⟨2, chunkLoop_of_fits hid hu hzero hroom⟩
          · refine ⟨1, chunkLoop_of_closed ?_⟩
            intro p hid
            by_contra hu
            exact hopen ⟨p, hid, Bool.eq_true_of_not_eq_false hu⟩

/-- Descriptor 3 of task 1 is the write end of an empty pipe. -/
def emptyPipe : SlotSys where
  base :=
    { tasks := fun _ => Task.empty
      fds := fun _ _ => ⟨true, .writeEnd 0⟩
      pipes := fun _ => ⟨⟨fun _ => 0, 0, 0⟩, true, false, 1⟩
      had := fun _ => true }
  ttyId := fun _ _ => none
  ttys := fun _ => ⟨false, 0⟩
  named := fun _ => ⟨CString.empty, 0, false⟩

/-- A write of a single zero byte does not return. -/
theorem zero_byte_never_written : ¬ ∀ s t j buf, WriteEnds s t j buf := by
  intro h
  obtain ⟨fuel, hfuel⟩ := h emptyPipe 1 3 [0]
  have hstuck : Stuck (emptyPipe.base.pipes 0) [0] := ⟨rfl, Or.inl (by decide)⟩
  refine hfuel (Option.map_eq_none_iff.mpr ?_)
  exact chunkLoop_of_stuck (p := 0) (by decide) hstuck fuel

end OriaOS.Ipc
