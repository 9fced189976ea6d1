import OriaOS.Lib.Bytes
import OriaOS.Ipc.Writers

/-!
# Who holds the slots of pipes and terminals

The descriptor tables with the terminals of `vfs.c` and the named pipes of `pipe.c`
beside them. A pipe slot is given back by `pipe_free`, which only the close of a
terminal and the close of a named pipe call: a slot stays in use when the last
descriptor that refers to it goes any other way.
-/

namespace OriaOS.Ipc

open OriaOS.Lib OriaOS.Sched

variable {j : Fd} {base' : FdSys} {t u : Tid}

/-- `VFS_TTY_MAX`. -/
abbrev ttyMax : Nat := 4

/-- `NAMED_PIPE_MAX`. -/
abbrev namedPipeMax : Nat := 8

abbrev TtyId := Fin ttyMax
abbrev NamedId := Fin namedPipeMax

structure TtySlot where
  used : Bool
  pipeId : PipeId

structure NamedPipe where
  name : CString
  pipeId : PipeId
  used : Bool

/-- The tables of pipes, terminals and descriptors. A descriptor of a terminal has no
kind in `base`; its `tty_id` stands in `ttyId`. -/
structure SlotSys where
  base : FdSys
  ttyId : Tid → Fd → Option TtyId
  ttys : TtyId → TtySlot
  named : NamedId → NamedPipe

namespace SlotSys

/-- The terminal of a descriptor of type `VFS_TYPE_TTY`. -/
def ttyOf (s : SlotSys) (t : Tid) (j : Fd) : Option TtyId :=
  match (s.base.fds t j).kind with
  | .none => s.ttyId t j
  | _ => none

def setTty (s : SlotSys) (q : TtyId) (tty : TtySlot) : SlotSys :=
  { s with ttys := Function.update s.ttys q tty }

def free (s : SlotSys) (p : PipeId) : SlotSys :=
  { s with base := s.base.setPipe p (pipeFree (s.base.pipes p)) }

def vfsTtyOpen (s : SlotSys) (t : Tid) : SlotSys :=
  match (List.finRange ttyMax).find? fun q => !(s.ttys q).used with
  | none => s
  | some q =>
      match s.base.pipeAlloc with
      | none => s
      | some (p, base) =>
          let s := { s with base := base }.setTty q ⟨true, p⟩
          match s.base.freeFds t with
          | j :: _ =>
              { s with
                base := s.base.setFd t j ⟨true, .none⟩
                ttyId := Function.update s.ttyId t (Function.update (s.ttyId t) j (some q)) }
          | [] => (s.free p).setTty q ⟨false, p⟩

/-- The part of `vfs_close` for terminals. -/
def closeTty (s : SlotSys) (t : Tid) (j : Fd) : SlotSys :=
  match s.ttyOf t j with
  | none => s
  | some q =>
      if (s.ttys q).used then
        (s.free (s.ttys q).pipeId).setTty q { s.ttys q with used := false }
      else s

def vfsClose (s : SlotSys) (t : Tid) (j : Fd) : SlotSys :=
  if 3 ≤ (j : Nat) ∧ (s.base.fds t j).used = true then
    let s := s.closeTty t j
    { s with base := s.base.closeFd t j }
  else s

def vfsCloseAll (s : SlotSys) (t : Tid) : SlotSys := { s with base := s.base.vfsCloseAll t }

/-- A creation; the tables of a thread and of a forked child are those of the parent. -/
def create (s : SlotSys) (c : Creation) : SlotSys :=
  let s' := { s with base := s.base.create c }
  match c, c.slot s.base.tasks with
  | .thread parent, some id | .fork parent _, some id =>
      { s' with ttyId := Function.update s.ttyId id (s.ttyId parent) }
  | _, _ => s'

/-- `named_pipe_open`. The stored name has at most 15 bytes; the search compares whole
names. -/
def namedPipeOpen (s : SlotSys) (name : CString) : SlotSys :=
  match (List.finRange namedPipeMax).find? fun n =>
      (s.named n).used && (s.named n).name == name with
  | some _ => s
  | none =>
      match (List.finRange namedPipeMax).find? fun n => !(s.named n).used with
      | none => s
      | some n =>
          match s.base.pipeAlloc with
          | none => s
          | some (p, base) =>
              { s with base := base, named := Function.update s.named n ⟨name.cut 15, p, true⟩ }

/-- `named_pipe_close`. -/
def namedPipeClose (s : SlotSys) (name : CString) : SlotSys :=
  match (List.finRange namedPipeMax).find? fun n =>
      (s.named n).used && (s.named n).name == name with
  | none => s
  | some n =>
      let s' := s.free (s.named n).pipeId
      { s' with
        named := Function.update s.named n
          { s.named n with used := false, name := (s.named n).name.cut 0 } }

end SlotSys

inductive SlotOp where
  | pipe (t : Tid)
  | ttyOpen (t : Tid)
  | redirectOutPipe (t : Tid) (id : Int)
  | redirectInPipe (t : Tid) (id : Int)
  | redirectOut (t : Tid)
  | redirectIn (t : Tid)
  | opened (t : Tid) (o : Opened)
  | close (t : Tid) (j : Fd)
  | closeAll (t : Tid)
  | exec (t : Tid)
  | create (c : Creation)
  | exit (t : Tid)
  | kill (id : Tid)
  | namedOpen (name : CString)
  | namedClose (name : CString)

def slotStep (s : SlotSys) : SlotOp → SlotSys
  | .pipe t => { s with base := fdStep s.base (.pipe t) }
  | .ttyOpen t => if (s.base.tasks t).used then s.vfsTtyOpen t else s
  | .redirectOutPipe t id => { s with base := fdStep s.base (.redirectOutPipe t id) }
  | .redirectInPipe t id => { s with base := fdStep s.base (.redirectInPipe t id) }
  | .redirectOut t => { s with base := fdStep s.base (.redirectOut t) }
  | .redirectIn t => { s with base := fdStep s.base (.redirectIn t) }
  | .opened t o => { s with base := fdStep s.base (.opened t o) }
  | .close t j => s.vfsClose t j
  | .closeAll t => s.vfsCloseAll t
  | .exec t => { s with base := fdStep s.base (.exec t) }
  | .create c => s.create c
  | .exit t => { s with base := fdStep s.base (.exit t) }
  | .kill id => { s with base := fdStep s.base (.kill id) }
  | .namedOpen name => s.namedPipeOpen name
  | .namedClose name => s.namedPipeClose name

/-! ## Who refers to a slot -/

namespace SlotSys
variable (s : SlotSys) (keep : Tid → Fd → Prop)

/-- An open descriptor of a live task. -/
def Open (t : Tid) (j : Fd) : Prop :=
  (s.base.tasks t).used = true ∧ (s.base.fds t j).used = true

/-- The descriptor is an end of the pipe. -/
def EndOf (t : Tid) (j : Fd) (p : PipeId) : Prop :=
  (s.base.fds t j).kind = .readEnd (p : Nat) ∨ (s.base.fds t j).kind = .writeEnd (p : Nat)

/-- Some open descriptor is an end of the pipe. -/
def EndKept (p : PipeId) : Prop := ∃ t j, s.Open t j ∧ keep t j ∧ s.EndOf t j p

/-- Some open descriptor refers to the terminal. -/
def TtyKept (q : TtyId) : Prop := ∃ t j, s.Open t j ∧ keep t j ∧ s.ttyOf t j = some q

/-- The pipe is that of a terminal in use some open descriptor refers to. -/
def TtyHolds (p : PipeId) : Prop :=
  ∃ q, (s.ttys q).used = true ∧ (s.ttys q).pipeId = p ∧ s.TtyKept keep q

/-- The pipe is that of a named pipe. -/
def NameHolds (p : PipeId) : Prop := ∃ n, (s.named n).used = true ∧ (s.named n).pipeId = p

/-- Something refers to the pipe, among the descriptors that are kept. -/
def Held (p : PipeId) : Prop := s.EndKept keep p ∨ s.TtyHolds keep p ∨ s.NameHolds p

end SlotSys

/-- Every slot in use is referred to. -/
structure SlotsOk (s : SlotSys) : Prop where
  pipes : ∀ p, (s.base.pipes p).used = true → s.Held (fun _ _ => True) p
  ttys : ∀ q, (s.ttys q).used = true → s.TtyKept (fun _ _ => True) q

/-- The tables behind `vfs_init` and `pipe_init_all`. -/
structure SlotStart (s : SlotSys) : Prop where
  pipes : ∀ p, (s.base.pipes p).used = false
  ttys : ∀ q, (s.ttys q).used = false

/-- The descriptors that a call gives up or overwrites. -/
def drops (s : SlotSys) : SlotOp → Tid → Fd → Prop
  | .close u k, t, j => t = u ∧ j = k ∧ 3 ≤ (k : Nat)
  | .closeAll u, t, _ | .exec u, t, _ => t = u
  | .exit u, t, _ => (s.base.tasks u).used = true ∧ EndsWith s.base.tasks u t
  | .kill u, t, _ => t = u ∧ u ≠ 0
  | .redirectOutPipe u _, t, j => t = u ∧ j = 1
  | .redirectInPipe u _, t, j | .redirectIn u, t, j => t = u ∧ j = 0
  | .redirectOut u, t, j => t = u ∧ (j = 1 ∨ j = 2)
  | _, _, _ => False

/-- The descriptor that a redirection makes is an end of the pipe. -/
def makesEnd (s : SlotSys) : SlotOp → PipeId → Prop
  | .redirectOutPipe u id, p | .redirectInPipe u id, p =>
      (s.base.tasks u).used = true ∧ Int.bmod id 65536 = (p : Nat)
  | _, _ => False

/-- The close of its last descriptor gives back a terminal. -/
def givesBack : SlotOp → Prop
  | .close .. => True
  | _ => False

/-- The last descriptor of a slot in use goes only by the close of a terminal. -/
structure slotGuard (s : SlotSys) (op : SlotOp) : Prop where
  pipes : ∀ p, (s.base.pipes p).used = true →
    (∃ t j, s.Open t j ∧ drops s op t j ∧ s.EndOf t j p) →
    s.Held (fun t j => ¬ drops s op t j) p ∨ makesEnd s op p
  ttys : ∀ q, (s.ttys q).used = true →
    (∃ t j, s.Open t j ∧ drops s op t j ∧ s.ttyOf t j = some q) →
    s.TtyKept (fun t j => ¬ drops s op t j) q ∨ givesBack op

/-! ## What a call keeps -/

/-- What is shown of every call: how it treats the slots and the descriptors that it
does not give up. -/
structure SlotFrame (s : SlotSys) (op : SlotOp) (s' : SlotSys) : Prop where
  pipes : ∀ p, (s'.base.pipes p).used = true →
    (s.base.pipes p).used = true ∨ s'.Held (fun _ _ => True) p
  fds : ∀ t j, s.Open t j → ¬ drops s op t j →
    s'.Open t j ∧ (s'.base.fds t j).kind = (s.base.fds t j).kind ∧ s'.ttyOf t j = s.ttyOf t j
  made : ∀ p, makesEnd s op p → s'.EndKept (fun _ _ => True) p
  ttys : ∀ q, (s'.ttys q).used = true →
    (s.ttys q).used = true ∨ s'.TtyKept (fun _ _ => True) q
  given : ∀ q, givesBack op → (∃ t j, s.Open t j ∧ drops s op t j ∧ s.ttyOf t j = some q) →
    (s'.ttys q).used = false
  tty : ∀ q, (s.ttys q).used = true → s'.ttys q = s.ttys q ∨
    (s'.ttys q).used = false ∧ (s'.base.pipes (s.ttys q).pipeId).used = false
  named : ∀ n, (s.named n).used = true →
    s'.named n = s.named n ∨ (s'.base.pipes (s.named n).pipeId).used = false

section Frame
variable {s s' : SlotSys} {op : SlotOp}

theorem SlotFrame.ttyKept (f : SlotFrame s op s') {q : TtyId}
    (h : s.TtyKept (fun t j => ¬ drops s op t j) q) : s'.TtyKept (fun _ _ => True) q := by
  obtain ⟨t, j, hopen, hkeep, htty⟩ := h
  obtain ⟨hopen', -, htty'⟩ := f.fds t j hopen hkeep
  exact ⟨t, j, hopen', trivial, htty'.trans htty⟩

theorem SlotFrame.held (f : SlotFrame s op s') {p : PipeId}
    (hp : (s'.base.pipes p).used = true) (h : s.Held (fun t j => ¬ drops s op t j) p) :
    s'.Held (fun _ _ => True) p := by
  rcases h with ⟨t, j, hopen, hkeep, hend⟩ | ⟨q, hq, rfl, hkept⟩ | ⟨n, hn, rfl⟩
  · obtain ⟨hopen', hkind, -⟩ := f.fds t j hopen hkeep
    refine Or.inl ⟨t, j, hopen', trivial, ?_⟩
    rwa [SlotSys.EndOf, hkind]
  · rcases f.tty q hq with hsame | ⟨-, hfree⟩
    · exact Or.inr (Or.inl ⟨q, hsame ▸ hq, congrArg TtySlot.pipeId hsame, f.ttyKept hkept⟩)
    · rw [hfree] at hp
      cases hp
  · rcases f.named n hn with hsame | hfree
    · exact Or.inr (Or.inr ⟨n, hsame ▸ hn, congrArg NamedPipe.pipeId hsame⟩)
    · rw [hfree] at hp
      cases hp

/-- The invariant under a call that does not give up the last reference to a slot. -/
theorem SlotsOk.step (h : SlotsOk s) (hg : slotGuard s op) (f : SlotFrame s op s') :
    SlotsOk s' := by
  -- A terminal that stays in use keeps a descriptor.
  have htty : ∀ q, (s.ttys q).used = true → (s'.ttys q).used = true →
      s.TtyKept (fun t j => ¬ drops s op t j) q := by
    intro q hq hq'
    obtain ⟨t, j, hopen, -, hfd⟩ := h.ttys q hq
    by_cases hdrop : drops s op t j
    · rcases hg.ttys q hq ⟨t, j, hopen, hdrop, hfd⟩ with hkept | hback
      · exact hkept
      · rw [f.given q hback ⟨t, j, hopen, hdrop, hfd⟩] at hq'
        cases hq'
    · exact ⟨t, j, hopen, hdrop, hfd⟩
  constructor
  case pipes =>
    intro p hp
    rcases f.pipes p hp with hold | hnew
    · rcases h.pipes p hold with ⟨t, j, hopen, -, hend⟩ | ⟨q, hq, rfl, -⟩ | hname
      · by_cases hdrop : drops s op t j
        · rcases hg.pipes p hold ⟨t, j, hopen, hdrop, hend⟩ with hheld | hmade
          · exact f.held hp hheld
          · exact Or.inl (f.made p hmade)
        · exact f.held hp (Or.inl ⟨t, j, hopen, hdrop, hend⟩)
      · rcases f.tty q hq with hsame | ⟨-, hfree⟩
        · exact f.held hp (Or.inr (Or.inl ⟨q, hq, rfl, htty q hq (hsame ▸ hq)⟩))
        · rw [hfree] at hp
          cases hp
      · exact f.held hp (Or.inr (Or.inr hname))
    · exact hnew
  case ttys =>
    intro q hq
    rcases f.ttys q hq with hold | hnew
    · exact f.ttyKept (htty q hold hq)
    · exact hnew

/-- A call that changes no terminal and no named pipe. -/
theorem SlotFrame.of_fds (hpipes : ∀ p, (s'.base.pipes p).used = true →
      (s.base.pipes p).used = true ∨ s'.Held (fun _ _ => True) p)
    (htty : s'.ttys = s.ttys) (hnamed : s'.named = s.named) (hback : ¬ givesBack op)
    (hfds : ∀ t j, s.Open t j → ¬ drops s op t j →
      s'.Open t j ∧ (s'.base.fds t j).kind = (s.base.fds t j).kind ∧ s'.ttyOf t j = s.ttyOf t j)
    (hmade : ∀ p, makesEnd s op p → s'.EndKept (fun _ _ => True) p) : SlotFrame s op s' where
  pipes := hpipes
  fds := hfds
  made := hmade
  ttys := fun _ hq => Or.inl (htty ▸ hq)
  given := fun _ h => absurd h hback
  tty := fun q _ => Or.inl (congrFun htty q)
  named := fun n _ => Or.inl (congrFun hnamed n)

/-- A call that fails. -/
theorem SlotFrame.refl (hback : ¬ givesBack op) (hmade : ∀ p, ¬ makesEnd s op p) :
    SlotFrame s op s :=
  .of_fds (fun _ hp => Or.inl hp) rfl rfl hback (fun _ _ hopen _ => ⟨hopen, rfl, rfl⟩)
    fun p h => absurd h (hmade p)

/-- A descriptor that stays, with the table of terminals. -/
theorem kept_fd (hopen : s.Open t j) (hlive : (base'.tasks t).used = (s.base.tasks t).used)
    (hfd : base'.fds t j = s.base.fds t j) : SlotSys.Open { s with base := base' } t j ∧
      (base'.fds t j).kind = (s.base.fds t j).kind ∧
      SlotSys.ttyOf { s with base := base' } t j = s.ttyOf t j := by
  refine ⟨⟨hlive ▸ hopen.1, hfd ▸ hopen.2⟩, congrArg VfsFd.kind hfd, ?_⟩
  simp only [SlotSys.ttyOf, hfd]

end Frame

/-! ## The calls on the tables below -/

section Base
variable (s : FdSys)

theorem attach_spec (id : Int) : (s.attach id).tasks = s.tasks ∧ (s.attach id).fds = s.fds ∧
    ∀ p, ((s.attach id).pipes p).used = (s.pipes p).used := by
  unfold FdSys.attach
  split
  · exact ⟨rfl, rfl, fun _ => rfl⟩
  · next p _ =>
    refine ⟨rfl, rfl, ?_⟩
    intro p'
    by_cases hp : p' = p
    · subst hp
      simp only [FdSys.setPipe, Function.update_self, pipeWriterAttach]
      split <;> rfl
    · simp [FdSys.setPipe, hp]

theorem detach_used (id : Int) (p : PipeId) :
    ((s.detach id).pipes p).used = (s.pipes p).used := by
  unfold FdSys.detach
  split
  · rfl
  · next p' _ =>
    by_cases hp : p = p'
    · subst hp
      simp only [FdSys.setPipe, Function.update_self, pipeWriterDetach]
      split <;> rfl
    · simp [FdSys.setPipe, hp]

theorem closeFd_used (t : Tid) (j : Fd) (p : PipeId) :
    ((s.closeFd t j).pipes p).used = (s.pipes p).used := by
  unfold FdSys.closeFd
  dsimp only
  split
  · split
    · exact detach_used s _ p
    · rfl
  · rfl

theorem vfsCloseAll_used (t : Tid) (p : PipeId) :
    ((s.vfsCloseAll t).pipes p).used = (s.pipes p).used := by
  unfold FdSys.vfsCloseAll
  generalize List.finRange vfsMaxFd = l
  induction l generalizing s with
  | nil => rfl
  | cons j l ih => exact (ih (s.closeFd t j)).trans (closeFd_used s t j p)

theorem create_used (c : Creation) : (s.create c).pipes = s.pipes := by
  unfold FdSys.create
  split
  · rfl
  · cases c <;> rfl

/-- A creation leaves the tables of the other tasks. -/
theorem create_other {c : Creation} (h : ∀ id, c.slot s.tasks = some id → u ≠ id) :
    (s.create c).fds u = s.fds u ∧ (s.create c).tasks u = s.tasks u := by
  unfold FdSys.create
  split
  · exact ⟨rfl, rfl⟩
  · next id hid =>
    have hu := h id hid
    have htask : modify s.tasks id (c.init s.tasks) u = s.tasks u := modify_of_ne hu _
    cases c with
    | kernel => exact ⟨rfl, htask⟩
    | user | thread | fork => exact ⟨Function.update_of_ne hu .., htask⟩

theorem pipeAlloc_some {s s' : FdSys} {p : PipeId} (h : s.pipeAlloc = some (p, s')) :
    s'.tasks = s.tasks ∧ s'.fds = s.fds ∧ ∀ p', p' ≠ p → s'.pipes p' = s.pipes p' := by
  unfold FdSys.pipeAlloc at h
  obtain ⟨q, -, he⟩ := Option.map_eq_some_iff.mp h
  rw [Prod.mk.injEq] at he
  obtain ⟨rfl, rfl⟩ := he
  exact ⟨rfl, rfl, fun p' hp => Function.update_of_ne hp ..⟩

theorem freeFds_used {s : FdSys} (h : j ∈ s.freeFds t) : (s.fds t j).used = false := by
  have := (List.mem_filter.mp h).2
  simp only [Bool.and_eq_true, Bool.not_eq_true'] at this
  exact this.2

end Base

section Calls
variable {s : SlotSys}

/-- An open descriptor is not a free one. -/
theorem open_ne_free {k : Fd} (h : s.Open t j) (hk : (s.base.fds u k).used = false) :
    (t, j) ≠ (u, k) := by
  rintro he
  rw [Prod.mk.injEq] at he
  obtain ⟨rfl, rfl⟩ := he
  rw [h.2] at hk
  cases hk

/-- One descriptor is overwritten. -/
theorem frame_setFd {op : SlotOp} {k : Fd} {f : VfsFd} (hback : ¬ givesBack op)
    (htasks : base'.tasks = s.base.tasks) (hfds : base'.fds = (s.base.setFd u k f).fds)
    (hused : ∀ p, (base'.pipes p).used = (s.base.pipes p).used)
    (hdrop : ∀ t j, s.Open t j → ¬ drops s op t j → (t, j) ≠ (u, k))
    (hmade : ∀ p, makesEnd s op p →
      (s.base.tasks u).used = true ∧ f.used = true ∧ (f.kind = .readEnd (p : Nat) ∨
      f.kind = .writeEnd (p : Nat))) :
    SlotFrame s op { s with base := base' } := by
  refine SlotFrame.of_fds (fun p hp => Or.inl (hused p ▸ hp)) rfl rfl hback ?_ ?_
  · intro t j hopen hkeep
    refine kept_fd hopen ?_ ?_
    · rw [htasks]
    · rw [hfds, setFd_of_ne (hdrop t j hopen hkeep)]
  · intro p hp
    obtain ⟨hlive, hfused, hkind⟩ := hmade p hp
    have hself : base'.fds u k = f := by rw [hfds, setFd_self]
    refine ⟨u, k, ⟨?_, ?_⟩, trivial, ?_⟩
    · change (base'.tasks u).used = true
      rw [htasks, hlive]
    · change (base'.fds u k).used = true
      rw [hself, hfused]
    · change (base'.fds u k).kind = _ ∨ (base'.fds u k).kind = _
      rw [hself]
      exact hkind

theorem frame_redirectOutPipe (s : SlotSys) (t : Tid) (id : Int) :
    SlotFrame s (.redirectOutPipe t id) (slotStep s (.redirectOutPipe t id)) := by
  obtain ⟨htasks, hfds, hused⟩ := attach_spec
    (s.base.setFd t 1 ⟨true, .writeEnd (Int.bmod id 65536)⟩) id
  refine frame_setFd (f := ⟨true, .writeEnd (Int.bmod id 65536)⟩) ?_ htasks hfds hused ?_ ?_
  · exact not_false
  · rintro u j - hkeep he
    rw [Prod.mk.injEq] at he
    exact hkeep he
  · rintro p ⟨hlive, hid⟩
    exact ⟨hlive, rfl, Or.inr (congrArg FdKind.writeEnd hid)⟩

theorem frame_redirectInPipe (s : SlotSys) (t : Tid) (id : Int) :
    SlotFrame s (.redirectInPipe t id) (slotStep s (.redirectInPipe t id)) := by
  refine frame_setFd (u := t) (k := 0) (f := ⟨true, .readEnd (Int.bmod id 65536)⟩) ?_ rfl rfl
    (fun _ => rfl) ?_ ?_
  · exact not_false
  · rintro u j - hkeep he
    rw [Prod.mk.injEq] at he
    exact hkeep he
  · rintro p ⟨hlive, hid⟩
    exact ⟨hlive, rfl, Or.inl (congrArg FdKind.readEnd hid)⟩

theorem frame_redirectIn (s : SlotSys) (t : Tid) :
    SlotFrame s (.redirectIn t) (slotStep s (.redirectIn t)) := by
  refine frame_setFd (u := t) (k := 0) (f := ⟨true, .file⟩) ?_ rfl rfl (fun _ => rfl) ?_ ?_
  · exact not_false
  · rintro u j - hkeep he
    rw [Prod.mk.injEq] at he
    exact hkeep he
  · exact fun _ h => h.elim

theorem frame_redirectOut (s : SlotSys) (t : Tid) :
    SlotFrame s (.redirectOut t) (slotStep s (.redirectOut t)) := by
  refine SlotFrame.of_fds (fun _ hp => Or.inl hp) rfl rfl not_false ?_ fun _ h => h.elim
  intro u j hopen hkeep
  have h1 : (u, j) ≠ (t, 1) := by
    rintro he
    rw [Prod.mk.injEq] at he
    exact hkeep ⟨he.1, Or.inl he.2⟩
  have h2 : (u, j) ≠ (t, 2) := by
    rintro he
    rw [Prod.mk.injEq] at he
    exact hkeep ⟨he.1, Or.inr he.2⟩
  refine kept_fd hopen rfl ?_
  change (((s.base.setFd t 1 _).setFd t 2 _).fds u j) = _
  rw [setFd_of_ne h2, setFd_of_ne h1]

theorem frame_opened (s : SlotSys) (t : Tid) (o : Opened) :
    SlotFrame s (.opened t o) (slotStep s (.opened t o)) := by
  cases hfree : s.base.freeFds t with
  | nil =>
      have hsame : slotStep s (.opened t o) = s := by
        simp only [slotStep, fdStep, FdSys.vfsOpen, hfree]
      rw [hsame]
      exact SlotFrame.refl not_false fun _ h => h.elim
  | cons j rest =>
      have hset : slotStep s (.opened t o) =
          { s with base := s.base.setFd t j ⟨true, o.kind⟩ } := by
        simp only [slotStep, fdStep, FdSys.vfsOpen, hfree]
      have hj : (s.base.fds t j).used = false := freeFds_used (by rw [hfree]; simp)
      rw [hset]
      refine frame_setFd (f := ⟨true, o.kind⟩) not_false rfl rfl (fun _ => rfl) ?_
        fun _ h => h.elim
      exact fun u k hopen _ => open_ne_free hopen hj

/-- Tasks that stay alive keep their tables. -/
theorem frame_tasks {op : SlotOp} (hback : ¬ givesBack op) (hmakes : ∀ p, ¬ makesEnd s op p)
    (hused : ∀ p, (base'.pipes p).used = (s.base.pipes p).used)
    (hkeep : ∀ t j, s.Open t j → ¬ drops s op t j →
      (base'.tasks t).used = true ∧ base'.fds t j = s.base.fds t j) :
    SlotFrame s op { s with base := base' } := by
  refine SlotFrame.of_fds (fun p hp => Or.inl (hused p ▸ hp)) rfl rfl hback ?_
    fun p h => absurd h (hmakes p)
  intro t j hopen hd
  obtain ⟨hlive, hfd⟩ := hkeep t j hopen hd
  exact kept_fd hopen (hlive.trans hopen.1.symm) hfd

theorem frame_closeAll (s : SlotSys) (t : Tid) :
    SlotFrame s (.closeAll t) (slotStep s (.closeAll t)) := by
  refine frame_tasks not_false (fun _ => not_false) (vfsCloseAll_used s.base t) ?_
  intro u j hopen hkeep
  have hut : u ≠ t := hkeep
  rw [vfsCloseAll_tasks, vfsCloseAll_fds, if_neg hut]
  exact ⟨hopen.1, rfl⟩

theorem frame_exec (s : SlotSys) (t : Tid) : SlotFrame s (.exec t) (slotStep s (.exec t)) := by
  refine frame_tasks not_false (fun _ => not_false) ?_ ?_
  · intro p
    simp only [fdStep]
    split
    · exact vfsCloseAll_used s.base t p
    · rfl
  · intro u j hopen hkeep
    have hut : u ≠ t := hkeep
    simp only [fdStep]
    split
    · refine ⟨?_, ?_⟩
      · change ((s.base.vfsCloseAll t).tasks u).used = true
        rw [vfsCloseAll_tasks]
        exact hopen.1
      · simp only [FdSys.exec, FdSys.setTable, Function.update_of_ne hut]
        rw [vfsCloseAll_fds, if_neg hut]
    · exact ⟨hopen.1, rfl⟩

theorem frame_exit (s : SlotSys) (t : Tid) : SlotFrame s (.exit t) (slotStep s (.exit t)) := by
  refine frame_tasks not_false (fun _ => not_false) ?_ ?_
  · intro p
    simp only [fdStep, FdSys.exit]
    split
    · split
      · rfl
      · exact vfsCloseAll_used s.base t p
    · rfl
  · intro u j hopen hkeep
    simp only [fdStep]
    split
    · next hlive =>
      have hend : ¬ EndsWith s.base.tasks t u := fun he => hkeep ⟨hlive, he⟩
      have hut : u ≠ t := fun he => hend (Or.inl he)
      have hused := (taskExitCode_used s.base.tasks t u).mpr ⟨hopen.1, hend⟩
      simp only [FdSys.exit]
      split
      · exact ⟨hused, rfl⟩
      · rw [vfsCloseAll_tasks, vfsCloseAll_fds, if_neg hut]
        exact ⟨hused, rfl⟩
    · exact ⟨hopen.1, rfl⟩

theorem frame_kill (s : SlotSys) (id : Tid) : SlotFrame s (.kill id) (slotStep s (.kill id)) := by
  refine frame_tasks not_false (fun _ => not_false) ?_ ?_
  · intro p
    simp only [fdStep]
    split <;> rfl
  · intro u j hopen hkeep
    simp only [fdStep]
    split
    · exact ⟨hopen.1, rfl⟩
    · next hid =>
      have hu : u ≠ id := fun he => hkeep ⟨he, fun hz => hid (Or.inl hz)⟩
      refine ⟨?_, rfl⟩
      change (modify s.base.tasks id killSlot u).used = true
      rw [modify_of_ne hu]
      exact hopen.1

/-- The new pipe has two ends, or its slot is given back. -/
theorem frame_pipe (s : SlotSys) (t : Tid) : SlotFrame s (.pipe t) (slotStep s (.pipe t)) := by
  have hstay : SlotFrame s (.pipe t) s := SlotFrame.refl not_false fun _ h => h.elim
  simp only [slotStep, fdStep]
  split
  · next hlive =>
    cases ha : s.base.pipeAlloc with
    | none =>
        simp only [FdSys.vfsPipe, ha]
        exact hstay
    | some r =>
        obtain ⟨p, base⟩ := r
        obtain ⟨htasks, hfds, hother⟩ := pipeAlloc_some ha
        simp only [FdSys.vfsPipe, ha]
        split
        · next r w rest hfree =>
          have hr : (base.fds t r).used = false := freeFds_used (by rw [hfree]; simp)
          have hw : (base.fds t w).used = false := freeFds_used (by rw [hfree]; simp)
          rw [hfds] at hr hw
          obtain ⟨hta, hfa, hua⟩ := attach_spec
            ((base.setFd t r ⟨true, .readEnd p⟩).setFd t w ⟨true, .writeEnd p⟩) p
          generalize hb : ((base.setFd t r ⟨true, .readEnd p⟩).setFd t w
            ⟨true, .writeEnd p⟩).attach p = base' at hta hfa hua ⊢
          have hself : base'.fds t w = ⟨true, .writeEnd p⟩ := by rw [hfa, setFd_self]
          refine SlotFrame.of_fds ?_ rfl rfl not_false ?_ fun _ h => h.elim
          · intro p' hp'
            by_cases hp : p' = p
            · subst hp
              refine Or.inr (Or.inl ⟨t, w, ⟨?_, ?_⟩, trivial, Or.inr ?_⟩)
              · rw [hta]
                change (base.tasks t).used = true
                rw [htasks]
                exact hlive
              · rw [hself]
              · rw [hself]
            · left
              rw [hua] at hp'
              change (base.pipes p').used = true at hp'
              rwa [hother p' hp] at hp'
          · intro u j hopen _
            refine kept_fd hopen ?_ ?_
            · rw [hta]
              change (base.tasks u).used = _
              rw [htasks]
            · rw [hfa, setFd_of_ne (open_ne_free hopen hw), setFd_of_ne (open_ne_free hopen hr),
                hfds]
        · refine SlotFrame.of_fds ?_ rfl rfl not_false ?_ fun _ h => h.elim
          · intro p' hp'
            by_cases hp : p' = p
            · subst hp
              simp [FdSys.setPipe, pipeFree] at hp'
            · left
              simpa [FdSys.setPipe, hp, hother p' hp] using hp'
          · intro u j hopen _
            exact kept_fd hopen (by rw [FdSys.setPipe, htasks]) (by rw [FdSys.setPipe, hfds])
  · exact hstay

/-- The two tables of descriptors are all that is read of one. -/
theorem kept_of_eq {s' : SlotSys} (hopen : s.Open t j)
    (hlive : (s'.base.tasks t).used = (s.base.tasks t).used)
    (hfd : s'.base.fds t j = s.base.fds t j) (htty : s'.ttyId t j = s.ttyId t j) :
    s'.Open t j ∧ (s'.base.fds t j).kind = (s.base.fds t j).kind ∧ s'.ttyOf t j = s.ttyOf t j := by
  refine ⟨⟨hlive ▸ hopen.1, hfd ▸ hopen.2⟩, congrArg VfsFd.kind hfd, ?_⟩
  simp only [SlotSys.ttyOf, hfd, htty]

theorem frame_create (s : SlotSys) (c : Creation) :
    SlotFrame s (.create c) (slotStep s (.create c)) := by
  have hbase : (s.create c).base = s.base.create c := by
    unfold SlotSys.create
    dsimp only
    split <;> rfl
  have hslots : (s.create c).ttys = s.ttys ∧ (s.create c).named = s.named := by
    unfold SlotSys.create
    dsimp only
    split <;> exact ⟨rfl, rfl⟩
  have htty : ∀ u, (∀ id, c.slot s.base.tasks = some id → u ≠ id) →
      (s.create c).ttyId u = s.ttyId u := by
    intro u hu
    unfold SlotSys.create
    dsimp only
    split
    · next h => exact Function.update_of_ne (hu _ h) ..
    · next h => exact Function.update_of_ne (hu _ h) ..
    · rfl
  refine SlotFrame.of_fds ?_ hslots.1 hslots.2 not_false ?_ fun _ h => h.elim
  · intro p hp
    left
    change ((s.create c).base.pipes p).used = true at hp
    rwa [hbase, create_used] at hp
  · intro u j hopen _
    -- The slot that is filled was that of no live task.
    have hu : ∀ id, c.slot s.base.tasks = some id → u ≠ id := by
      rintro id hid rfl
      have hlive := hopen.1
      rw [(Creation.slot_spec hid).2] at hlive
      cases hlive
    obtain ⟨hfds, htask⟩ := create_other s.base hu
    refine kept_of_eq hopen ?_ ?_ (congrFun (htty u hu) j)
    · change ((s.create c).base.tasks u).used = _
      rw [hbase, htask]
    · change (s.create c).base.fds u j = _
      rw [hbase, hfds]

theorem frame_ttyOpen (s : SlotSys) (t : Tid) :
    SlotFrame s (.ttyOpen t) (slotStep s (.ttyOpen t)) := by
  have hstay : SlotFrame s (.ttyOpen t) s := SlotFrame.refl not_false fun _ h => h.elim
  simp only [slotStep]
  split
  · next hlive =>
    unfold SlotSys.vfsTtyOpen
    split
    · exact hstay
    · next q hq =>
      have hqfree : (s.ttys q).used = false := by simpa using List.find?_some hq
      split
      · exact hstay
      · next p base ha =>
        obtain ⟨htasks, hfds, hother⟩ := pipeAlloc_some ha
        have hold : ∀ {q'}, (s.ttys q').used = true → q' ≠ q := by
          rintro q' hq' rfl
          rw [hqfree] at hq'
          cases hq'
        dsimp only
        split
        · next j rest hfree =>
          have hj : (s.base.fds t j).used = false := by
            rw [← hfds]
            have hmem : j ∈ base.freeFds t := by
              rw [show base.freeFds t = j :: rest from hfree]
              exact List.mem_cons_self
            exact freeFds_used hmem
          have hkept : SlotSys.TtyKept
              { s.setTty q ⟨true, p⟩ with
                base := base.setFd t j ⟨true, .none⟩
                ttyId := Function.update s.ttyId t (Function.update (s.ttyId t) j (some q)) }
              (fun _ _ => True) q := by
            refine ⟨t, j, ⟨?_, ?_⟩, trivial, ?_⟩
            · change (base.tasks t).used = true
              rw [htasks, hlive]
            · exact congrArg VfsFd.used (setFd_self base t j _)
            · simp [SlotSys.ttyOf, setFd_self]
          constructor
          case pipes =>
            intro p' hp'
            by_cases hp : p' = p
            · subst hp
              refine Or.inr (Or.inr (Or.inl ⟨q, ?_, ?_, hkept⟩))
              · simp [SlotSys.setTty]
              · simp [SlotSys.setTty]
            · left
              change (base.pipes p').used = true at hp'
              rwa [hother p' hp] at hp'
          case fds =>
            intro u k hopen _
            have hne := open_ne_free hopen hj
            refine kept_of_eq hopen ?_ ?_ ?_
            · change (base.tasks u).used = _
              rw [htasks]
            · change (base.setFd t j _).fds u k = _
              rw [setFd_of_ne hne, hfds]
            · change Function.update s.ttyId t _ u k = _
              by_cases hut : u = t
              · subst hut
                rw [Function.update_self]
                exact Function.update_of_ne (fun hk => hne (congrArg (Prod.mk u) hk)) ..
              · rw [Function.update_of_ne hut]
          case made => exact fun _ h => h.elim
          case ttys =>
            intro q' hq'
            by_cases he : q' = q
            · subst he
              exact Or.inr hkept
            · left
              simpa [SlotSys.setTty, he] using hq'
          case given => exact fun _ h => h.elim
          case tty =>
            intro q' hq'
            left
            simp [SlotSys.setTty, hold hq']
          case named => exact fun _ _ => Or.inl rfl
        · constructor
          case pipes =>
            intro p' hp'
            left
            by_cases hp : p' = p
            · subst hp
              simp [SlotSys.setTty, SlotSys.free, FdSys.setPipe, pipeFree] at hp'
            · simpa [SlotSys.setTty, SlotSys.free, FdSys.setPipe, hp, hother p' hp] using hp'
          case fds =>
            intro u k hopen _
            refine kept_of_eq hopen ?_ ?_ rfl
            · change (base.tasks u).used = _
              rw [htasks]
            · change base.fds u k = _
              rw [hfds]
          case made => exact fun _ h => h.elim
          case ttys =>
            intro q' hq'
            left
            by_cases he : q' = q
            · subst he
              simp [SlotSys.setTty] at hq'
            · simpa [SlotSys.setTty, SlotSys.free, he] using hq'
          case given => exact fun _ h => h.elim
          case tty =>
            intro q' hq'
            left
            simp [SlotSys.setTty, SlotSys.free, hold hq']
          case named => exact fun _ _ => Or.inl rfl
  · exact hstay

/-- The close of a terminal gives back its slot and its pipe. -/
theorem closeTty_spec (s : SlotSys) (t : Tid) (j : Fd) :
    (s.closeTty t j).base.tasks = s.base.tasks ∧ (s.closeTty t j).base.fds = s.base.fds ∧
      (s.closeTty t j).ttyId = s.ttyId ∧ (s.closeTty t j).named = s.named ∧
      (∀ p, ((s.closeTty t j).base.pipes p).used = true → (s.base.pipes p).used = true) ∧
      (∀ q, (s.ttys q).used = true → (s.closeTty t j).ttys q = s.ttys q ∨
        ((s.closeTty t j).ttys q).used = false ∧
          ((s.closeTty t j).base.pipes (s.ttys q).pipeId).used = false) ∧
      (∀ q, ((s.closeTty t j).ttys q).used = true → (s.ttys q).used = true) ∧
      ∀ q, s.ttyOf t j = some q → ((s.closeTty t j).ttys q).used = false := by
  unfold SlotSys.closeTty
  split
  · next hnone =>
    refine ⟨rfl, rfl, rfl, rfl, fun _ hp => hp, fun _ _ => Or.inl rfl, fun _ hq => hq, ?_⟩
    intro q hq
    rw [hnone] at hq
    cases hq
  · next q hq =>
    split
    · refine ⟨rfl, rfl, rfl, rfl, ?_, ?_, ?_, ?_⟩
      · intro p hp
        by_cases hpq : p = (s.ttys q).pipeId
        · simp [SlotSys.setTty, SlotSys.free, FdSys.setPipe, pipeFree, hpq] at hp
        · simpa [SlotSys.setTty, SlotSys.free, FdSys.setPipe, hpq] using hp
      · intro q' _
        by_cases hqq : q' = q
        · subst hqq
          right
          simp [SlotSys.setTty, SlotSys.free, FdSys.setPipe, pipeFree]
        · left
          simp [SlotSys.setTty, SlotSys.free, hqq]
      · intro q' hq'
        by_cases hqq : q' = q
        · subst hqq
          simp [SlotSys.setTty] at hq'
        · simpa [SlotSys.setTty, SlotSys.free, hqq] using hq'
      · intro q' hq'
        cases hq.symm.trans hq'
        simp [SlotSys.setTty]
    · next hfree =>
      refine ⟨rfl, rfl, rfl, rfl, fun _ hp => hp, fun _ _ => Or.inl rfl, fun _ hq => hq, ?_⟩
      intro q' hq'
      cases hq.symm.trans hq'
      simpa using hfree

theorem frame_close (s : SlotSys) (t : Tid) (j : Fd) :
    SlotFrame s (.close t j) (slotStep s (.close t j)) := by
  simp only [slotStep]
  unfold SlotSys.vfsClose
  split
  · next hj =>
    obtain ⟨htasks, hfds, hid, hnamed, hpipes, htty, httys, hgone⟩ := closeTty_spec s t j
    constructor
    case pipes =>
      intro p hp
      left
      rw [closeFd_used] at hp
      exact hpipes p hp
    case fds =>
      intro u k hopen hkeep
      refine kept_of_eq hopen ?_ ?_ ?_
      · rw [closeFd_tasks, htasks]
      · rw [closeFd_fds, if_neg fun he => hkeep ⟨he.1, he.2, hj.1⟩, hfds]
      · rw [hid]
    case made => exact fun _ h => h.elim
    case ttys => exact fun q hq => Or.inl (httys q hq)
    case given =>
      rintro q - ⟨u, k, -, ⟨rfl, rfl, -⟩, hq⟩
      exact hgone q hq
    case tty =>
      intro q hq
      rcases htty q hq with hsame | ⟨hu, hp⟩
      · exact Or.inl hsame
      · exact Or.inr ⟨hu, (closeFd_used _ t j _).trans hp⟩
    case named => exact fun n _ => Or.inl (congrFun hnamed n)
  · next hj =>
    constructor
    case pipes => exact fun _ hp => Or.inl hp
    case fds => exact fun _ _ hopen _ => ⟨hopen, rfl, rfl⟩
    case made => exact fun _ h => h.elim
    case ttys => exact fun _ hq => Or.inl hq
    case given =>
      rintro q - ⟨u, k, hopen, ⟨rfl, rfl, h3⟩, -⟩
      exact absurd ⟨h3, hopen.2⟩ hj
    case tty => exact fun _ _ => Or.inl rfl
    case named => exact fun _ _ => Or.inl rfl

theorem frame_namedOpen (s : SlotSys) (name : CString) :
    SlotFrame s (.namedOpen name) (slotStep s (.namedOpen name)) := by
  have hstay : SlotFrame s (.namedOpen name) s := SlotFrame.refl not_false fun _ h => h.elim
  simp only [slotStep]
  unfold SlotSys.namedPipeOpen
  split
  · exact hstay
  · split
    · exact hstay
    · next n hn =>
      have hnfree : (s.named n).used = false := by simpa using List.find?_some hn
      split
      · exact hstay
      · next p base ha =>
        obtain ⟨htasks, hfds, hother⟩ := pipeAlloc_some ha
        constructor
        case pipes =>
          intro p' hp'
          by_cases hp : p' = p
          · subst hp
            refine Or.inr (Or.inr (Or.inr ⟨n, ?_, ?_⟩))
            · simp
            · simp
          · left
            change (base.pipes p').used = true at hp'
            rwa [hother p' hp] at hp'
        case fds =>
          intro u k hopen _
          exact kept_of_eq hopen (by rw [htasks]) (by rw [hfds]) rfl
        case made => exact fun _ h => h.elim
        case ttys => exact fun _ hq => Or.inl hq
        case given => exact fun _ h => h.elim
        case tty => exact fun _ _ => Or.inl rfl
        case named =>
          intro n' hn'
          left
          apply Function.update_of_ne
          rintro rfl
          rw [hnfree] at hn'
          cases hn'

theorem frame_namedClose (s : SlotSys) (name : CString) :
    SlotFrame s (.namedClose name) (slotStep s (.namedClose name)) := by
  simp only [slotStep]
  unfold SlotSys.namedPipeClose
  split
  · exact SlotFrame.refl not_false fun _ h => h.elim
  · next n _ =>
    constructor
    case pipes =>
      intro p hp
      left
      by_cases hpn : p = (s.named n).pipeId
      · simp [SlotSys.free, FdSys.setPipe, pipeFree, hpn] at hp
      · simpa [SlotSys.free, FdSys.setPipe, hpn] using hp
    case fds => exact fun _ _ hopen _ => ⟨hopen, rfl, rfl⟩
    case made => exact fun _ h => h.elim
    case ttys => exact fun _ hq => Or.inl hq
    case given => exact fun _ h => h.elim
    case tty => exact fun _ _ => Or.inl rfl
    case named =>
      intro n' _
      by_cases hn : n' = n
      · subst hn
        right
        simp [SlotSys.free, FdSys.setPipe, pipeFree]
      · left
        simp [hn]

end Calls

theorem slotStep_frame (s : SlotSys) (op : SlotOp) : SlotFrame s op (slotStep s op) := by
  cases op with
  | pipe t => exact frame_pipe s t
  | ttyOpen t => exact frame_ttyOpen s t
  | redirectOutPipe t id => exact frame_redirectOutPipe s t id
  | redirectInPipe t id => exact frame_redirectInPipe s t id
  | redirectOut t => exact frame_redirectOut s t
  | redirectIn t => exact frame_redirectIn s t
  | opened t o => exact frame_opened s t o
  | close t j => exact frame_close s t j
  | closeAll t => exact frame_closeAll s t
  | exec t => exact frame_exec s t
  | create c => exact frame_create s c
  | exit t => exact frame_exit s t
  | kill id => exact frame_kill s id
  | namedOpen name => exact frame_namedOpen s name
  | namedClose name => exact frame_namedClose s name

/-- In every run in which no call gives up the last reference to a slot in use, but for
the close of a terminal, every slot in use is referred to. -/
theorem slots_ok {s : SlotSys} (r : Reach SlotStart slotGuard slotStep s) : SlotsOk s := by
  apply r.invariant (P := SlotsOk)
  · intro s h
    constructor
    · intro p hp
      rw [h.pipes p] at hp
      cases hp
    · intro q hq
      rw [h.ttys q] at hq
      cases hq
  · exact fun s op h hg => h.step hg (slotStep_frame s op)

/-- No open descriptor of a live task is an end of a pipe or a terminal, and no pipe has
a name. -/
structure AllClosed (s : SlotSys) : Prop where
  fds : ∀ t j, s.Open t j → s.ttyOf t j = none ∧ ∀ p, ¬ s.EndOf t j p
  named : ∀ n, (s.named n).used = false

/-- Once all is closed, every slot can be had again. -/
theorem SlotsOk.reclaimed {s : SlotSys} (h : SlotsOk s) (hc : AllClosed s) :
    (∀ p, (s.base.pipes p).used = false) ∧ ∀ q, (s.ttys q).used = false := by
  have htty : ∀ q, ¬ s.TtyKept (fun _ _ => True) q := by
    rintro q ⟨t, j, hopen, -, hq⟩
    rw [(hc.fds t j hopen).1] at hq
    cases hq
  constructor
  · intro p
    by_contra hp
    rcases h.pipes p (by simpa using hp) with ⟨t, j, hopen, -, hend⟩ | ⟨q, -, -, hq⟩ | ⟨n, hn, -⟩
    · exact (hc.fds t j hopen).2 p hend
    · exact htty q hq
    · rw [hc.named n] at hn
      cases hn
  · intro q
    by_contra hq
    exact htty q (h.ttys q (by simpa using hq))

/-- The shell, with no slot in use. -/
def shellSlots : SlotSys where
  base := shellFds
  ttyId := fun _ _ => none
  ttys := fun _ => ⟨false, 0⟩
  named := fun _ => ⟨CString.empty, 0, false⟩

theorem shellSlots_start : SlotStart shellSlots := ⟨fun _ => rfl, fun _ => rfl⟩

/-- A terminal is opened and closed beside a pipe that stays open. -/
def pipeAndTerminal : List SlotOp := [.pipe 0, .ttyOpen 0, .close 0 5]

theorem slots_ok_terminal : SlotsOk (pipeAndTerminal.foldl slotStep shellSlots) := by
  have hnone : ∀ (s : SlotSys) (op : SlotOp), (∀ t j, ¬ drops s op t j) → slotGuard s op :=
    fun s op h => ⟨fun p _ ⟨t, j, _, hd, _⟩ => absurd hd (h t j),
      fun q _ ⟨t, j, _, hd, _⟩ => absurd hd (h t j)⟩
  have htty : ((slotStep (slotStep shellSlots (.pipe 0)) (.ttyOpen 0)).base.fds 0 5).kind =
      .none := by
    decide +kernel
  have hpipe : slotGuard shellSlots (.pipe 0) := hnone _ _ fun _ _ => not_false
  have hopen : slotGuard (slotStep shellSlots (.pipe 0)) (.ttyOpen 0) :=
    hnone _ _ fun _ _ => not_false
  apply slots_ok
  refine (((Reach.start shellSlots_start).next _ hpipe).next _ hopen).next (.close 0 5) ?_
  constructor
  case pipes =>
    rintro p - ⟨t, j, -, ⟨rfl, rfl, -⟩, hend⟩
    rcases hend with hk | hk
    · cases htty.symm.trans hk
    · cases htty.symm.trans hk
  case ttys => exact fun _ _ _ => Or.inr trivial

/-- A pipe whose two ends are closed. -/
def closedPipe : List SlotOp := [.pipe 0, .close 0 3, .close 0 4]

theorem closed_pipe_not_reclaimed : ¬ ∀ s, Reach SlotStart anyInput slotStep s → SlotsOk s := by
  intro h
  have hs := h _ ((Reach.start shellSlots_start).foldl closedPipe)
  have hused : ((closedPipe.foldl slotStep shellSlots).base.pipes 0).used = true := by
    decide +kernel
  have hfds : ∀ t j, ((closedPipe.foldl slotStep shellSlots).base.fds t j).used = true →
      (j : Nat) < 3 ∧ ((closedPipe.foldl slotStep shellSlots).base.fds t j).kind ≠ .readEnd 0 ∧
        ((closedPipe.foldl slotStep shellSlots).base.fds t j).kind ≠ .writeEnd 0 := by
    decide +kernel
  have hnamed : ∀ n, ((closedPipe.foldl slotStep shellSlots).named n).used = false := by
    decide +kernel
  have htty : ∀ q, ((closedPipe.foldl slotStep shellSlots).ttys q).used = false := by
    decide +kernel
  rcases hs.pipes 0 hused with ⟨t, j, hopen, -, hend⟩ | ⟨q, hq, -⟩ | ⟨n, hn, -⟩
  · obtain ⟨-, hr, hw⟩ := hfds t j hopen.2
    exact hend.elim hr hw
  · rw [htty q] at hq
    cases hq
  · rw [hnamed n] at hn
    cases hn

end OriaOS.Ipc
