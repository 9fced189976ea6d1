import OriaOS.Ipc.Stream
import OriaOS.Ipc.Terminals

/-!
# Readiness and reads

`vfs_fd_ready` beside `vfs_read`, over the descriptors of all types. The fields of a
descriptor that do not go with its type stand in `data`. What a file holds and what
a read of a connection, a device or an entry of `/proc` gives is given from outside.

A read that has to wait does not take place yet. `VFS_O_NONBLOCK` puts `VFS_EAGAIN`
("the operation would block") in the place of the wait, and changes nothing else.
-/

namespace OriaOS.Ipc

open OriaOS.Lib OriaOS.Sched

/-- `KEY_BUFFER_SIZE`. -/
abbrev keyBufferSize : Nat := 64

scoped instance : NeZero keyBufferSize := ⟨by decide⟩

/-- `VFS_O_RDONLY`. -/
def oRdonly : UInt8 := 1

/-- `VFS_O_WRONLY`. -/
def oWronly : UInt8 := 2

/-- `VFS_O_RDWR`. -/
def oRdwr : UInt8 := 3

/-- `VFS_O_NONBLOCK`. -/
def oNonblock : UInt8 := 8

/-- `POLLIN`. -/
def pollIn : UInt16 := 1

/-- `POLLOUT`. -/
def pollOut : UInt16 := 2

/-- `POLLERR`. -/
def pollErr : UInt16 := 4

structure FdData where
  flags : UInt8
  offset : UInt32
  name : CString

/-- `files` is what `fs_read_bin` finds, `others` the result of a read of a connection,
a device or an entry of `/proc`. -/
structure PollSys where
  slots : SlotSys
  data : Tid → Fd → FdData
  keys : Ring UInt8 keyBufferSize
  files : CString → Option (List UInt8)
  others : Tid → Fd → Int → Int × List UInt8

/-- A read that returns: the tables behind it, its result and the bytes it stores. -/
structure FdRead where
  sys : PollSys
  ret : Int
  buf : List UInt8

/-- The flags of a descriptor that `vfs_open` or `vfs_net_open` makes. -/
def Opened.mode (mode : UInt8) : Opened → UInt8
  | file | dev => mode
  | proc => oRdonly
  | net => oRdwr

/-- A read finds neither data nor a reason to wait. -/
def PipeEnded (p : Pipe) : Prop := p.used = false ∨ p.ring.tail = p.ring.head ∧ p.eof = true

instance (p : Pipe) : Decidable (PipeEnded p) := inferInstanceAs (Decidable (_ ∨ _))

namespace PollSys
variable (s : PollSys) (t : Tid) (j : Fd)

def fd : VfsFd := s.slots.base.fds t j

def nonblock : Bool := (s.data t j).flags &&& oNonblock != 0

def pipe (p : PipeId) : Pipe := s.slots.base.pipes p

def setPipe (p : PipeId) (q : Pipe) : PollSys :=
  { s with slots := { s.slots with base := s.slots.base.setPipe p q } }

def setData (d : FdData) : PollSys :=
  { s with data := Function.update s.data t (Function.update (s.data t) j d) }

/-- The pipe of a terminal. -/
def ttyPipe (q : TtyId) : PipeId := (s.slots.ttys q).pipeId

/-- `pipe_has_data`, with its range check. -/
def hasData (id : Int) : Bool :=
  match FdSys.pipeOf id with
  | none => false
  | some p => pipeHasData (s.pipe p)

/-! ## The reads of the types -/

def readStdin (len : Int) : Option FdRead :=
  if len < 1 then some ⟨s, 0, []⟩
  else
    match s.keys.poll with
    | none => if s.nonblock t j then some ⟨s, vfsEagain, []⟩ else none
    | some (c, keys) => some ⟨{ s with keys := keys }, 1, [c]⟩

/-- A read of a file always returns. Bytes behind the end of the file, where a seek to
a negative offset leads, are not followed. -/
def readFile (len : Int) : FdRead :=
  let d := s.data t j
  if d.flags &&& (oRdonly ||| oRdwr) = 0 then ⟨s, -1, []⟩
  else
    match s.files d.name with
    | none => ⟨s, 0, []⟩
    | some bytes =>
        let pos := Int.bmod d.offset.toNat 4294967296
        let remaining := Int.bmod (Int.bmod bytes.length 4294967296 - pos) 4294967296
        if bytes = [] ∨ remaining ≤ 0 then ⟨s, 0, []⟩
        else
          let n := if remaining < len then remaining else len
          ⟨s.setData t j { d with offset := d.offset + UInt32.ofInt n }, n,
            (bytes.drop d.offset.toNat).take n.toNat⟩

def readPipe (id len : Int) : Option FdRead :=
  match FdSys.pipeOf id with
  | none =>
      if len ≤ 0 then some ⟨s, 0, []⟩
      else if s.nonblock t j then some ⟨s, vfsEagain, []⟩
      else some ⟨s, -1, []⟩
  | some p =>
      (vfsRead (s.pipe p) len (s.nonblock t j)).map fun r =>
        ⟨s.setPipe p r.pipe, r.ret, r.stored⟩

/-- The read of a terminal does not look at the length. -/
def readTty (q : TtyId) : Option FdRead :=
  if s.nonblock t j && !pipeHasData (s.pipe (s.ttyPipe q)) then some ⟨s, vfsEagain, []⟩
  else
    (pipeRead (s.pipe (s.ttyPipe q))).map fun r =>
      ⟨s.setPipe (s.ttyPipe q) r.pipe, r.ret, r.stored⟩

/-- `vfs_read`, if it need not wait. -/
def vfsRead (len : Int) : Option FdRead :=
  if (s.fd t j).used = false then some ⟨s, -1, []⟩
  else
    match (s.fd t j).kind with
    | .stdin => s.readStdin t j len
    | .file => some (s.readFile t j len)
    | .readEnd id => s.readPipe t j id len
    | .writeEnd _ | .stdout => some ⟨s, -1, []⟩
    | .net | .proc | .dev =>
        let r := s.others t j len
        some ⟨s, r.1, r.2⟩
    | .none =>
        match s.slots.ttyId t j with
        | none => some ⟨s, -1, []⟩
        | some q => s.readTty t j q

/-! ## Readiness -/

/-- The branches of `vfs_fd_ready` that set `POLLIN`. -/
def readyIn : Bool :=
  match (s.fd t j).kind with
  | .stdin => s.keys.tail != s.keys.head
  | .readEnd id => s.hasData id
  | .file => true
  | .none =>
      match s.slots.ttyId t j with
      | none => false
      | some q => pipeHasData (s.pipe (s.ttyPipe q))
  | _ => false

/-- The branches that set `POLLOUT`. -/
def readyOut : Bool :=
  match (s.fd t j).kind with
  | .writeEnd _ | .stdout | .file | .net => true
  | _ => false

/-- `vfs_fd_ready`. -/
def vfsFdReady (events : UInt16) : UInt16 :=
  if (s.fd t j).used = false then pollErr
  else
    (if events &&& pollIn ≠ 0 ∧ s.readyIn t j = true then pollIn else 0) |||
      (if events &&& pollOut ≠ 0 ∧ s.readyOut t j = true then pollOut else 0)

/-! ## Calls -/

/-- The fields that a call stores in the descriptors it makes: `mode`, `path` and
`offset` are those of `vfs_open` and of the redirections to a file. -/
def made (s : SlotSys) (mode : UInt8) (path : CString) (offset : UInt32) :
    SlotOp → List (Tid × Fd × FdData)
  | .pipe t =>
      match s.base.freeFds t with
      | r :: w :: _ => [(t, r, ⟨oRdonly, 0, path⟩), (t, w, ⟨oWronly, 0, path⟩)]
      | _ => []
  | .ttyOpen t => (s.base.freeFds t).head?.toList.map fun j => (t, j, ⟨oRdwr, 0, path⟩)
  | .opened t o =>
      (s.base.freeFds t).head?.toList.map fun j => (t, j, ⟨o.mode mode, offset, path⟩)
  | .redirectOutPipe t _ => [(t, 1, ⟨oWronly, 0, path⟩)]
  | .redirectOut t => [(t, 1, ⟨oWronly, offset, path⟩), (t, 2, ⟨oWronly, offset, path⟩)]
  | .redirectInPipe t _ => [(t, 0, ⟨oRdonly, 0, path⟩)]
  | .redirectIn t => [(t, 0, ⟨oRdonly, 0, path⟩)]
  | .exec t => standard t
  | .create c =>
      match c, c.slot s.base.tasks with
      | .user _, some id => standard id
      | _, _ => []
  | _ => []
where
  /-- The descriptors of `vfs_init_task`. -/
  standard (t : Tid) : List (Tid × Fd × FdData) :=
    [(t, 0, ⟨oRdonly, 0, path⟩), (t, 1, ⟨oWronly, 0, path⟩), (t, 2, ⟨oWronly, 0, path⟩)]

/-- A call that fails stores nothing: its descriptors are not in use. -/
def store (x : Tid × Fd × FdData) : PollSys :=
  if (s.fd x.1 x.2.1).used then s.setData x.1 x.2.1 x.2.2 else s

/-- The tables of a thread and of a forked child are those of the parent. -/
def inherit (c : Creation) : PollSys :=
  match c, c.slot s.slots.base.tasks with
  | .thread parent, some id | .fork parent _, some id =>
      { s with data := Function.update s.data id (s.data parent) }
  | _, _ => s

/-- One turn of the loops of `vfs_write` over a pipe and over a terminal. -/
def writeChunk (buf : List UInt8) : PollSys :=
  if (s.fd t j).used = false then s
  else
    match (s.fd t j).kind with
    | .writeEnd id =>
        match FdSys.pipeOf id with
        | none => s
        | some p => s.setPipe p (pipeWrite (s.pipe p) (buf.take 255)).1
    | .none =>
        match s.slots.ttyId t j with
        | none => s
        | some q => s.setPipe (s.ttyPipe q) (pipeWrite (s.pipe (s.ttyPipe q)) (buf.take 255)).1
    | _ => s

end PollSys

inductive PollOp where
  | call (op : SlotOp) (mode : UInt8) (path : CString) (offset : UInt32)
  | read (t : Tid) (j : Fd) (len : Int)
  | write (t : Tid) (j : Fd) (buf : List UInt8)
  | setFlags (t : Tid) (j : Fd) (flags : UInt8)
  | seek (t : Tid) (j : Fd) (offset : UInt32)
  | key (c : UInt8)
  /-- The files, and what the other reads give, change. -/
  | world (files : CString → Option (List UInt8))
      (others : Tid → Fd → Int → Int × List UInt8)

def pollStep (s : PollSys) : PollOp → PollSys
  | .call op mode path offset =>
      let s' :=
        match op with
        | .create c => s.inherit c
        | _ => s
      (PollSys.made s.slots mode path offset op).foldl PollSys.store
        { s' with slots := slotStep s.slots op }
  | .read t j len =>
      match s.vfsRead t j len with
      | none => s
      | some r => r.sys
  | .write t j buf => s.writeChunk t j buf
  | .setFlags t j flags =>
      if (s.fd t j).used then s.setData t j { s.data t j with flags := flags } else s
  | .seek t j offset =>
      if (s.fd t j).used then s.setData t j { s.data t j with offset := offset } else s
  | .key c => { s with keys := s.keys.push c }
  | .world files others => { s with files := files, others := others }

/-- The tables behind `vfs_init` and `pipe_init_all`. -/
def PollStart (s : PollSys) : Prop := SlotStart s.slots

/-! ## Agreement -/

namespace PollSys
variable (s : PollSys) (t : Tid) (j : Fd)

/-- An open descriptor of a file, the read end of a pipe, a terminal, or the keyboard. -/
def Polled : Prop :=
  (s.fd t j).used = true ∧
    ((s.fd t j).kind = .stdin ∨ (s.fd t j).kind = .file ∨
      (∃ id, (s.fd t j).kind = .readEnd id) ∨ ∃ q, s.slots.ttyOf t j = some q)

/-- The descriptor without `VFS_O_NONBLOCK`. -/
def blocking : PollSys :=
  s.setData t j { s.data t j with flags := (s.data t j).flags &&& ~~~oNonblock }

/-- A read of one byte has not to wait: there is data, or the end of the file. -/
def Returns : Prop := ((s.blocking t j).vfsRead t j 1).isSome = true

/-- `vfs_fd_ready` reports `POLLIN`. -/
def Reports : Prop := s.vfsFdReady t j pollIn = pollIn

/-- The pipe behind the descriptor is empty and at its end, or not in use. -/
def Ended : Prop :=
  match (s.fd t j).kind with
  | .readEnd id => ∀ p, FdSys.pipeOf id = some p → PipeEnded (s.pipe p)
  | .none => ∃ q, s.slots.ttyId t j = some q ∧ PipeEnded (s.pipe (s.ttyPipe q))
  | _ => False

end PollSys

/-! ## One source of input -/

/-- A read of a pipe waits when it finds neither data nor the end. -/
theorem pipeRead_isSome (p : Pipe) :
    (pipeRead p).isSome = true ↔ pipeHasData p = true ∨ PipeEnded p := by
  unfold pipeRead pipeHasData PipeEnded
  split
  · next hfree => simp [hfree]
  · next hused =>
    rw [Bool.not_eq_false] at hused
    split
    · next hdata => simp [hused, hdata]
    · next hempty =>
      rw [not_not] at hempty
      split
      · next heof => simp [hempty, heof]
      · next heof => simp [hused, hempty, heof]

/-- A pipe with data is not at its end. -/
theorem PipeEnded.no_data {p : Pipe} (h : PipeEnded p) : pipeHasData p = false := by
  rcases h with hfree | ⟨hempty, -⟩
  · simp [pipeHasData, hfree]
  · simp [pipeHasData, hempty]

/-- Of a pipe, the test for data and the read agree unless the pipe is at its end. -/
theorem hasData_iff_returns (p : Pipe) :
    (pipeHasData p = true ↔ (pipeRead p).isSome = true) ↔ ¬ PipeEnded p := by
  rw [pipeRead_isSome]
  constructor
  · intro h hended
    have hdata := h.mpr (Or.inr hended)
    rw [hended.no_data] at hdata
    cases hdata
  · intro hnot
    simp [hnot]

/-- With data a read returns, and not with an error. -/
theorem pipeRead_of_data {p : Pipe} (h : pipeHasData p = true) :
    ∃ r, pipeRead p = some r ∧ 0 ≤ r.ret := by
  simp only [pipeHasData, Bool.and_eq_true, bne_iff_ne] at h
  have hread : pipeRead p = some ⟨(pipeReadLoop (pipeBuf - 1) p.ring).1.length,
      (pipeReadLoop (pipeBuf - 1) p.ring).1 ++ [0],
      { p with ring := (pipeReadLoop (pipeBuf - 1) p.ring).2 }⟩ := by
    rw [pipeRead, if_neg (by simp [h.1]), if_pos h.2]
  exact ⟨_, hread, Int.natCast_nonneg _⟩

section Descriptors
variable {s : PollSys} {t : Tid} {j : Fd}

theorem reports_iff (hused : (s.fd t j).used = true) :
    s.Reports t j ↔ s.readyIn t j = true := by
  have hout : pollIn &&& pollOut = 0 := by decide
  simp only [PollSys.Reports, PollSys.vfsFdReady, hused, hout]
  cases s.readyIn t j <;> simp [pollIn]

theorem nonblock_blocking : (s.blocking t j).nonblock t j = false := by
  simp only [PollSys.nonblock, PollSys.blocking, PollSys.setData, Function.update_self, oNonblock]
  rw [UInt8.and_assoc]
  simp

/-- Apart from the flag the descriptors and the pipes are the same. -/
theorem blocking_same :
    (s.blocking t j).fd t j = s.fd t j ∧ (s.blocking t j).pipe = s.pipe ∧
      (s.blocking t j).slots = s.slots ∧ (s.blocking t j).keys = s.keys :=
  ⟨rfl, rfl, rfl, rfl⟩

/-- The keyboard. -/
theorem stdin_agrees (hkind : (s.fd t j).kind = .stdin) (hused : (s.fd t j).used = true) :
    s.Returns t j ↔ s.readyIn t j = true := by
  simp only [PollSys.Returns, PollSys.vfsRead, blocking_same, hused, hkind, PollSys.readStdin,
    nonblock_blocking, PollSys.readyIn, Ring.poll]
  by_cases hempty : s.keys.tail = s.keys.head <;> simp [hempty]

/-- A file. -/
theorem file_agrees (hkind : (s.fd t j).kind = .file) (hused : (s.fd t j).used = true) :
    s.Returns t j ↔ s.readyIn t j = true := by
  simp [PollSys.Returns, PollSys.vfsRead, blocking_same, hused, hkind, PollSys.readyIn]

/-- The read end of a pipe. -/
theorem readEnd_returns {id : Int} (hkind : (s.fd t j).kind = .readEnd id)
    (hused : (s.fd t j).used = true) :
    s.Returns t j ↔ ∀ p, FdSys.pipeOf id = some p → (pipeRead (s.pipe p)).isSome = true := by
  simp only [PollSys.Returns, PollSys.vfsRead, blocking_same, hused, hkind, PollSys.readPipe]
  cases FdSys.pipeOf id with
  | none => simp [nonblock_blocking]
  | some p => simp [nonblock_blocking, vfsRead]

/-- The type of a terminal. -/
theorem kind_of_tty {q : TtyId} (htty : s.slots.ttyOf t j = some q) :
    (s.fd t j).kind = .none ∧ s.slots.ttyId t j = some q := by
  unfold SlotSys.ttyOf at htty
  split at htty
  · next hkind => exact ⟨hkind, htty⟩
  · cases htty

/-- A terminal. -/
theorem tty_returns {q : TtyId} (htty : s.slots.ttyOf t j = some q)
    (hused : (s.fd t j).used = true) :
    s.Returns t j ↔ (pipeRead (s.pipe (s.ttyPipe q))).isSome = true := by
  obtain ⟨hkind, hid⟩ := kind_of_tty htty
  simp only [PollSys.Returns, PollSys.vfsRead, blocking_same, hused, hkind, hid,
    PollSys.readTty, nonblock_blocking]
  simp [PollSys.ttyPipe, blocking_same]

end Descriptors

/-- In every state, reachable or not, `vfs_fd_ready` reports `POLLIN` exactly when a read
of one byte returns, unless the pipe behind the descriptor is at its end. -/
theorem poll_agrees (s : PollSys) (t : Tid) (j : Fd) (h : s.Polled t j) :
    (s.Reports t j ↔ s.Returns t j) ↔ ¬ s.Ended t j := by
  obtain ⟨hused, htype⟩ := h
  rw [reports_iff hused]
  rcases htype with hkind | hkind | ⟨id, hkind⟩ | ⟨q, htty⟩
  · simp [stdin_agrees hkind hused, PollSys.Ended, hkind]
  · simp [file_agrees hkind hused, PollSys.Ended, hkind]
  · rw [readEnd_returns hkind hused]
    simp only [PollSys.readyIn, PollSys.Ended, PollSys.hasData, hkind]
    cases FdSys.pipeOf id with
    | none => simp
    | some p => simpa using hasData_iff_returns (s.pipe p)
  · obtain ⟨hkind, hid⟩ := kind_of_tty htty
    rw [tty_returns htty hused]
    simp only [PollSys.readyIn, PollSys.Ended, hkind, hid]
    simpa using hasData_iff_returns (s.pipe (s.ttyPipe q))

/-- With `VFS_O_NONBLOCK` a read of one byte is refused exactly when nothing is
reported: also at the end of a pipe, which it does not tell from an empty one. -/
theorem nonblock_refuses (s : PollSys) (t : Tid) (j : Fd) (h : s.Polled t j)
    (hfile : (s.fd t j).kind ≠ .file) (hnonblock : s.nonblock t j = true) :
    (s.vfsRead t j 1).map FdRead.ret = some vfsEagain ↔ ¬ s.Reports t j := by
  obtain ⟨hused, htype⟩ := h
  rw [reports_iff hused]
  rcases htype with hkind | hkind | ⟨id, hkind⟩ | ⟨q, htty⟩
  · simp only [PollSys.vfsRead, PollSys.readStdin, PollSys.readyIn, Ring.poll, hused, hkind,
      hnonblock]
    by_cases hempty : s.keys.tail = s.keys.head <;> simp [hempty, vfsEagain]
  · exact absurd hkind hfile
  · simp only [PollSys.vfsRead, PollSys.readPipe, PollSys.readyIn, PollSys.hasData, hused, hkind,
      hnonblock]
    cases FdSys.pipeOf id with
    | none => simp
    | some p =>
        cases hdata : pipeHasData (s.pipe p) with
        | false => simp [vfsRead, hdata]
        | true =>
            obtain ⟨r, hr, hret⟩ := pipeRead_of_data hdata
            have hne : (if r.ret < 1 then r.ret else 1) ≠ vfsEagain := by
              unfold vfsEagain
              omega
            simp [vfsRead, hdata, hr, hne]
  · obtain ⟨hkind, hid⟩ := kind_of_tty htty
    simp only [PollSys.vfsRead, PollSys.readTty, PollSys.readyIn, hused, hkind, hid, hnonblock]
    cases hdata : pipeHasData (s.pipe (s.ttyPipe q)) with
    | false => simp
    | true =>
        obtain ⟨r, hr, hret⟩ := pipeRead_of_data hdata
        have hne : r.ret ≠ vfsEagain := by
          unfold vfsEagain
          omega
        simp [hr, hne]

/-- A task with the descriptors of `vfs_init_task`. -/
def shellPoll : PollSys where
  slots := shellSlots
  data := fun _ _ => ⟨0, 0, CString.empty⟩
  keys := ⟨fun _ => 0, 0, 0⟩
  files := fun _ => none
  others := fun _ _ _ => (0, [])

theorem shellPoll_start : PollStart shellPoll := shellSlots_start

def call (op : SlotOp) : PollOp := .call op 0 CString.empty 0

/-- A message is written to a pipe. -/
def writtenPipe : List PollOp := [call (.pipe 0), .write 0 4 [65]]

/-- The read end of a pipe with a message. -/
theorem poll_agrees_written :
    (writtenPipe.foldl pollStep shellPoll).Reports 0 3 ↔
      (writtenPipe.foldl pollStep shellPoll).Returns 0 3 := by
  have hkind : (writtenPipe.foldl pollStep shellPoll).fd 0 3 = ⟨true, .readEnd 0⟩ := by
    decide +kernel
  refine (poll_agrees _ _ _ ⟨congrArg VfsFd.used hkind, ?_⟩).mpr ?_
  · exact Or.inr (Or.inr (Or.inl ⟨0, congrArg VfsFd.kind hkind⟩))
  · rw [PollSys.Ended, hkind]
    decide +kernel

/-- A pipe is opened and its write end closed. -/
def endedPipe : List PollOp := [call (.pipe 0), call (.close 0 4)]

/-- At the end of a pipe a read returns 0, and nothing is reported. -/
theorem end_not_reported : ¬ ∀ s, Reach PollStart anyInput pollStep s →
    ∀ t j, s.Polled t j → (s.Reports t j ↔ s.Returns t j) := by
  intro h
  have hreach : Reach PollStart anyInput pollStep (endedPipe.foldl pollStep shellPoll) :=
    (Reach.start shellPoll_start).foldl endedPipe
  have hkind : (endedPipe.foldl pollStep shellPoll).fd 0 3 = ⟨true, .readEnd 0⟩ := by
    decide +kernel
  have hpolled : (endedPipe.foldl pollStep shellPoll).Polled 0 3 :=
    ⟨congrArg VfsFd.used hkind, Or.inr (Or.inr (Or.inl ⟨0, congrArg VfsFd.kind hkind⟩))⟩
  have hreturns : (endedPipe.foldl pollStep shellPoll).Returns 0 3 := by
    unfold PollSys.Returns
    decide +kernel
  have hreports : ¬ (endedPipe.foldl pollStep shellPoll).Reports 0 3 := by
    unfold PollSys.Reports
    decide +kernel
  exact hreports ((h _ hreach 0 3 hpolled).mpr hreturns)

end OriaOS.Ipc
