import OriaOS.Lib.Reach
import OriaOS.Ipc.Pipe
import OriaOS.Sched.Table

/-!
# Descriptors and the writers of a pipe

The descriptor tables of `vfs.c` over all tasks and the count of writers that each
pipe keeps. A write end is made by `vfs_pipe` and `vfs_redirect_out_pipe`, copied
with the whole table by `vfs_copy_fds`, dropped by `vfs_close` and `vfs_close_all`,
and overwritten by the redirections.

Descriptors of terminals are left out. `had` records that a pipe has had a writer
since it was allocated.
-/

namespace OriaOS.Ipc

open OriaOS.Lib OriaOS.Sched

/-- `PIPE_MAX`. -/
abbrev pipeMax : Nat := 8

scoped instance : NeZero pipeMax := ⟨by decide⟩

abbrev PipeId := Fin pipeMax

/-- `VFS_MAX_FD`. -/
abbrev vfsMaxFd : Nat := 32

scoped instance : NeZero vfsMaxFd := ⟨by decide⟩

abbrev Fd := Fin vfsMaxFd

/-- The type of a descriptor with the fields of the union that go with it; `pipe_id`
is an `int16_t`. -/
inductive FdKind where
  | none
  | stdin
  | stdout
  | file
  | readEnd (pipeId : Int)
  | writeEnd (pipeId : Int)
  | net
  | proc
  | dev
  deriving DecidableEq

/-- What `vfs_open` and `vfs_net_open` open. -/
inductive Opened where
  | file
  | net
  | proc
  | dev

def Opened.kind : Opened → FdKind
  | file => .file
  | net => .net
  | proc => .proc
  | dev => .dev

structure VfsFd where
  used : Bool
  kind : FdKind
  deriving DecidableEq

/-- The descriptor is open and a write end of the pipe. -/
def VfsFd.Writes (f : VfsFd) (p : PipeId) : Prop := f.used = true ∧ f.kind = .writeEnd p

instance (f : VfsFd) (p : PipeId) : Decidable (f.Writes p) := inferInstanceAs (Decidable (_ ∧ _))

structure FdSys where
  tasks : Tasks
  fds : Tid → Fd → VfsFd
  pipes : PipeId → Pipe
  had : PipeId → Bool

namespace FdSys

def setFd (s : FdSys) (t : Tid) (j : Fd) (f : VfsFd) : FdSys :=
  { s with fds := Function.update s.fds t (Function.update (s.fds t) j f) }

def setPipe (s : FdSys) (p : PipeId) (q : Pipe) : FdSys :=
  { s with pipes := Function.update s.pipes p q }

def setTable (s : FdSys) (t : Tid) (fds : Fd → VfsFd) : FdSys :=
  { s with fds := Function.update s.fds t fds }

/-- The range check of the functions of `pipe.c`. -/
def pipeOf (id : Int) : Option PipeId :=
  if h : 0 ≤ id ∧ id.toNat < pipeMax then some ⟨id.toNat, h.2⟩ else none

/-- `pipe_alloc`. -/
def pipeAlloc (s : FdSys) : Option (PipeId × FdSys) :=
  ((List.finRange pipeMax).find? fun p => !(s.pipes p).used).map fun p =>
    (p, { s.setPipe p (pipeReset (s.pipes p)) with had := Function.update s.had p false })

/-- `pipe_writer_attach` for a descriptor that has just been made. -/
def attach (s : FdSys) (id : Int) : FdSys :=
  match pipeOf id with
  | none => s
  | some p =>
      { s.setPipe p (pipeWriterAttach (s.pipes p)) with had := Function.update s.had p true }

/-- `pipe_writer_detach`. -/
def detach (s : FdSys) (id : Int) : FdSys :=
  match pipeOf id with
  | none => s
  | some p => s.setPipe p (pipeWriterDetach (s.pipes p))

/-- The free descriptors behind the standard ones. -/
def freeFds (s : FdSys) (t : Tid) : List Fd :=
  (List.finRange vfsMaxFd).filter fun j => 3 ≤ (j : Nat) && !(s.fds t j).used

def vfsPipe (s : FdSys) (t : Tid) : FdSys :=
  match s.pipeAlloc with
  | none => s
  | some (p, s') =>
      match s'.freeFds t with
      | r :: w :: _ =>
          ((s'.setFd t r ⟨true, .readEnd p⟩).setFd t w ⟨true, .writeEnd p⟩).attach p
      | _ => s'.setPipe p (pipeFree (s'.pipes p))

/-- The body of `vfs_close` and of the loop of `vfs_close_all`. -/
def closeFd (s : FdSys) (t : Tid) (j : Fd) : FdSys :=
  let f := s.fds t j
  if f.used then
    let s :=
      match f.kind with
      | .writeEnd id => s.detach id
      | _ => s
    s.setFd t j { f with used := false }
  else s

def vfsCloseAll (s : FdSys) (t : Tid) : FdSys :=
  (List.finRange vfsMaxFd).foldl (fun s j => s.closeFd t j) s

/-- The table `vfs_init_task` leaves. -/
def initFds (fds : Fd → VfsFd) : Fd → VfsFd := fun j =>
  if j = 0 then ⟨true, .stdin⟩
  else if (j : Nat) ≤ 2 then ⟨true, .stdout⟩
  else { fds j with used := false }

/-- `vfs_open` and `vfs_net_open`, once they have a file or a connection. -/
def vfsOpen (s : FdSys) (t : Tid) (o : Opened) : FdSys :=
  match s.freeFds t with
  | [] => s
  | j :: _ => s.setFd t j ⟨true, o.kind⟩

def vfsRedirectOutPipe (s : FdSys) (t : Tid) (id : Int) : FdSys :=
  (s.setFd t 1 ⟨true, .writeEnd (Int.bmod id 65536)⟩).attach id

def vfsRedirectInPipe (s : FdSys) (t : Tid) (id : Int) : FdSys :=
  s.setFd t 0 ⟨true, .readEnd (Int.bmod id 65536)⟩

/-- `vfs_redirect_out` and `vfs_redirect_out_append`, which copy descriptor 1 to 2. -/
def vfsRedirectOut (s : FdSys) (t : Tid) : FdSys :=
  (s.setFd t 1 ⟨true, .file⟩).setFd t 2 ⟨true, .file⟩

def vfsRedirectIn (s : FdSys) (t : Tid) : FdSys := s.setFd t 0 ⟨true, .file⟩

/-- A creation and what it does to the table of the new slot: `task_create` leaves
it, `task_create_user` initialises it, the others copy that of the parent. -/
def create (s : FdSys) (c : Creation) : FdSys :=
  match c.slot s.tasks with
  | none => s
  | some id =>
      let s := { s with tasks := modify s.tasks id (c.init s.tasks) }
      match c with
      | .kernel .. => s
      | .user _ => s.setTable id (initFds (s.fds id))
      | .thread parent | .fork parent _ => s.setTable id (s.fds parent)

/-- `task_exit_code`: only a process closes its descriptors. -/
def exit (s : FdSys) (t : Tid) : FdSys :=
  let s := if (s.tasks t).isThread then s else s.vfsCloseAll t
  { s with tasks := taskExitCode s.tasks t }

/-- What `SYS_EXEC_REPLACE` does to the descriptors. -/
def exec (s : FdSys) (t : Tid) : FdSys :=
  let s := s.vfsCloseAll t
  s.setTable t (initFds (s.fds t))

end FdSys

inductive FdOp where
  | alloc
  | free (p : PipeId)
  | pipe (t : Tid)
  | opened (t : Tid) (o : Opened)
  | redirectOutPipe (t : Tid) (id : Int)
  | redirectInPipe (t : Tid) (id : Int)
  | redirectOut (t : Tid)
  | redirectIn (t : Tid)
  | close (t : Tid) (j : Fd)
  | exec (t : Tid)
  | create (c : Creation)
  | exit (t : Tid)
  | kill (id : Tid)

def fdStep (s : FdSys) : FdOp → FdSys
  | .alloc =>
      match s.pipeAlloc with
      | none => s
      | some (_, s') => s'
  | .free p => s.setPipe p (pipeFree (s.pipes p))
  | .pipe t => if (s.tasks t).used then s.vfsPipe t else s
  | .opened t o => s.vfsOpen t o
  | .redirectOutPipe t id => s.vfsRedirectOutPipe t id
  | .redirectInPipe t id => s.vfsRedirectInPipe t id
  | .redirectOut t => s.vfsRedirectOut t
  | .redirectIn t => s.vfsRedirectIn t
  | .close t j => if 3 ≤ (j : Nat) then s.closeFd t j else s
  | .exec t => if (s.tasks t).used then s.exec t else s
  | .create c => s.create c
  | .exit t => if (s.tasks t).used then s.exit t else s
  | .kill id =>
      if id = 0 ∨ (s.tasks id).used = false then s
      else { s with tasks := modify s.tasks id killSlot }

/-- The tables behind `vfs_init`, `pipe_init_all` and the start of the shell. -/
structure FdStart (s : FdSys) : Prop where
  fds : ∀ t j p, ¬ (s.fds t j).Writes p
  pipes : ∀ p, (s.pipes p).used = false

/-! ## What the count promises -/

/-- The open descriptors of used tasks that are write ends of the pipe. -/
def openWriters (s : FdSys) (p : PipeId) : Finset (Tid × Fd) :=
  Finset.univ.filter fun x => (s.tasks x.1).used = true ∧ (s.fds x.1 x.2).Writes p

structure WritersOk (s : FdSys) : Prop where
  counted : ∀ p, (s.pipes p).used = true → (s.pipes p).writeRefs = (openWriters s p).card
  ended : ∀ p, (s.pipes p).used = true →
    ((s.pipes p).eof = true ↔ s.had p = true ∧ openWriters s p = ∅)

/-- The descriptor is not an open write end. -/
def VfsFd.Silent (f : VfsFd) : Prop := ∀ p, ¬ f.Writes p

instance (f : VfsFd) : Decidable f.Silent := inferInstanceAs (Decidable (∀ _, ¬ _))

/-- The task has no open write end. -/
def SilentTask (s : FdSys) (t : Tid) : Prop := ∀ j, (s.fds t j).Silent

instance (s : FdSys) (t : Tid) : Decidable (SilentTask s t) := inferInstanceAs (Decidable (∀ _, _))

/-- The number of a pipe in use that has not come to its end. -/
def Attachable (s : FdSys) (id : Int) : Prop :=
  ∃ p : PipeId, id = (p : Nat) ∧ (s.pipes p).used = true ∧ (s.pipes p).eof = false ∧
    (s.pipes p).writeRefs < 127

instance (s : FdSys) (id : Int) : Decidable (Attachable s id) :=
  inferInstanceAs (Decidable (∃ _, _))

/-- The condition on the steps: a table that is copied, and one that is given up
without being closed, has no open write end; no redirection overwrites one, and none
goes to a pipe that is not in use or at its end; no pipe is freed that has one. -/
def fdGuard (s : FdSys) : FdOp → Prop
  | .free p => ∀ t j, ¬ (s.fds t j).Writes p
  | .redirectOutPipe t id =>
      (s.tasks t).used = true ∧ (s.fds t 1).Silent ∧ Attachable s id
  | .redirectInPipe t _ | .redirectIn t => (s.fds t 0).Silent
  | .redirectOut t => (s.fds t 1).Silent ∧ (s.fds t 2).Silent
  | .create (.thread parent) | .create (.fork parent _) => SilentTask s parent
  | .exit t => (s.tasks t).used = true → ∀ u, EndsWith s.tasks t u →
      u = t ∧ (s.tasks t).isThread = false ∨ SilentTask s u
  | .kill id => id ≠ 0 → SilentTask s id
  | _ => True

/-! ## The invariant -/

/-- All open write ends of a pipe, of used tasks and of others. -/
def writeEnds (s : FdSys) (p : PipeId) : Finset (Tid × Fd) :=
  Finset.univ.filter fun x => (s.fds x.1 x.2).Writes p

@[simp] theorem mem_writeEnds {s : FdSys} {p : PipeId} {x : Tid × Fd} :
    x ∈ writeEnds s p ↔ (s.fds x.1 x.2).Writes p := by
  simp [writeEnds]

/-- The count, the flag and the record of one pipe fit a set of write ends. -/
structure Fits (q : Pipe) (had : Bool) (ends : Finset (Tid × Fd)) : Prop where
  counted : q.used = true → q.writeRefs = ends.card
  ended : q.used = true → (q.eof = true ↔ had = true ∧ ends = ∅)
  had : ends.Nonempty → had = true
  used : ends.Nonempty → q.used = true

structure FdInv (s : FdSys) : Prop where
  fits : ∀ p, Fits (s.pipes p) (s.had p) (writeEnds s p)
  dead : ∀ t, (s.tasks t).used = false → SilentTask s t

theorem FdInv.ok {s : FdSys} (h : FdInv s) : WritersOk s := by
  have hset : ∀ p, openWriters s p = writeEnds s p := by
    intro p
    ext x
    simp only [openWriters, Finset.mem_filter, Finset.mem_univ, true_and, mem_writeEnds,
      and_iff_right_iff_imp]
    intro hw
    by_contra hu
    exact h.dead x.1 (by simpa using hu) x.2 p hw
  constructor
  · intro p hp
    rw [hset]
    exact (h.fits p).counted hp
  · intro p hp
    rw [hset]
    exact (h.fits p).ended hp

theorem FdStart.inv {s : FdSys} (h : FdStart s) : FdInv s := by
  have hempty : ∀ p, writeEnds s p = ∅ := by
    intro p
    ext x
    simp [h.fds]
  constructor
  · intro p
    rw [hempty]
    constructor <;> simp [h.pipes]
  · exact fun t _ j p => h.fds t j p

/-! ## One pipe -/

section Pipes
variable {q : Pipe} {had : Bool} {ends : Finset (Tid × Fd)} {x : Tid × Fd}

theorem Fits.reset (h : Fits q had ends) (hq : q.used = false) : Fits (pipeReset q) false ends := by
  have hempty : ends = ∅ := by
    by_contra hne
    have := h.used (Finset.nonempty_iff_ne_empty.mpr hne)
    rw [hq] at this
    cases this
  subst hempty
  constructor <;> simp [pipeReset]

theorem Fits.free (h : Fits q had ends) (hends : ends = ∅) : Fits (pipeFree q) had ends := by
  subst hends
  constructor <;> simp [pipeFree]

/-- A write end is made. -/
theorem Fits.attach (h : Fits q had ends) (hq : q.used = true) (heof : q.eof = false)
    (hrefs : q.writeRefs < 127) (hx : x ∉ ends) :
    Fits (pipeWriterAttach q) true (insert x ends) := by
  have hcount := h.counted hq
  have hrange : Int.bmod (q.writeRefs + 1) 256 = q.writeRefs + 1 := by
    apply Int.bmod_eq_of_le
    · omega
    · omega
  rw [pipeWriterAttach, if_pos hq, hrange]
  constructor
  · intro _
    rw [Finset.card_insert_of_notMem hx, hcount]
    push_cast
    rfl
  · simp [heof]
  · exact fun _ => rfl
  · exact fun _ => hq

/-- A write end is closed. -/
theorem Fits.detach (h : Fits q had ends) (hx : x ∈ ends) :
    Fits (pipeWriterDetach q) had (ends.erase x) := by
  have hne : ends.Nonempty := ⟨x, hx⟩
  have hq := h.used hne
  have hcard := Finset.card_erase_add_one hx
  have hcount : q.writeRefs = (ends.erase x).card + 1 := by
    rw [h.counted hq, ← hcard]
    push_cast
    rfl
  have hpos : 0 < q.writeRefs := by omega
  have heof : q.eof = false := by
    by_contra hcon
    have := ((h.ended hq).mp (by simpa using hcon)).2
    rw [this] at hx
    cases hx
  rw [pipeWriterDetach, if_pos hq]
  simp only [if_pos hpos]
  constructor
  · intro _
    simp [hcount]
  · intro _
    simp only [heof, Bool.false_or, decide_eq_true_eq, h.had hne, true_and, hcount]
    rw [← Finset.card_eq_zero]
    omega
  · exact fun _ => h.had hne
  · exact fun _ => hq

end Pipes

/-! ## Descriptors -/

theorem silent_of_unused {f : VfsFd} (h : f.used = false) : f.Silent := by
  intro p hw
  rw [hw.1] at h
  cases h

/-- A descriptor of any other kind is no write end. -/
theorem silent_of_kind {b : Bool} {k : FdKind} (h : ∀ id, k ≠ .writeEnd id) :
    (VfsFd.mk b k).Silent :=
  fun p hw => h p hw.2

theorem silent_opened (o : Opened) : (VfsFd.mk true o.kind).Silent := by
  apply silent_of_kind
  cases o <;> simp [Opened.kind]

/-- The standard descriptors are no write ends. -/
theorem initFds_silent (fds : Fd → VfsFd) (k : Fd) : (FdSys.initFds fds k).Silent := by
  unfold FdSys.initFds
  split
  · exact silent_of_kind (by simp)
  · split
    · exact silent_of_kind (by simp)
    · exact silent_of_unused rfl

section Tables
variable {s s' : FdSys} {t : Tid} {j : Fd} {f : VfsFd} {p : PipeId}

theorem setFd_fds (s : FdSys) (t : Tid) (j : Fd) (f : VfsFd) (u : Tid) (k : Fd) :
    (s.setFd t j f).fds u k = if u = t ∧ k = j then f else s.fds u k := by
  by_cases hut : u = t
  · subst hut
    by_cases hkj : k = j
    · simp [FdSys.setFd, hkj]
    · simp [FdSys.setFd, hkj]
  · simp [FdSys.setFd, hut]

theorem setFd_self (s : FdSys) (t : Tid) (j : Fd) (f : VfsFd) : (s.setFd t j f).fds t j = f := by
  rw [setFd_fds, if_pos ⟨rfl, rfl⟩]

theorem setFd_of_ne {u : Tid} {k : Fd} (h : (u, k) ≠ (t, j)) (s : FdSys) (f : VfsFd) :
    (s.setFd t j f).fds u k = s.fds u k := by
  rw [setFd_fds, if_neg]
  rintro ⟨rfl, rfl⟩
  exact h rfl

@[simp] theorem pipeOf_id (p : PipeId) : FdSys.pipeOf ((p : Nat) : Int) = some p := by
  simp [FdSys.pipeOf]

theorem pipeOf_eq {id : Int} (h : FdSys.pipeOf id = some p) : id = (p : Nat) := by
  unfold FdSys.pipeOf at h
  split at h
  · next hb =>
    cases h
    exact (Int.toNat_of_nonneg hb.1).symm
  · cases h

theorem writeEnds_setFd (hf : f.Writes p) :
    writeEnds (s.setFd t j f) p = insert (t, j) (writeEnds s p) := by
  ext x
  simp only [mem_writeEnds, Finset.mem_insert]
  by_cases hx : x = (t, j)
  · subst hx
    simp [setFd_self, hf]
  · rw [setFd_of_ne hx]
    simp [hx]

theorem writeEnds_clearFd (hf : ¬ f.Writes p) :
    writeEnds (s.setFd t j f) p = (writeEnds s p).erase (t, j) := by
  ext x
  simp only [mem_writeEnds, Finset.mem_erase]
  by_cases hx : x = (t, j)
  · subst hx
    simp [setFd_self, hf]
  · rw [setFd_of_ne hx]
    simp [hx]

/-- Steps that leave the pipes and their write ends as they are. -/
theorem FdInv.same (h : FdInv s) (hpipes : s'.pipes = s.pipes) (hhad : s'.had = s.had)
    (hends : ∀ u k p, (s'.fds u k).Writes p ↔ (s.fds u k).Writes p)
    (hdead : ∀ u, (s'.tasks u).used = false → (s.tasks u).used = false ∨ SilentTask s u) :
    FdInv s' := by
  constructor
  · intro p
    have hset : writeEnds s' p = writeEnds s p := by
      ext x
      simp [hends]
    rw [hset, hpipes, hhad]
    exact h.fits p
  · intro u hu k p hw
    rw [hends] at hw
    rcases hdead u hu with hd | hs
    · exact h.dead u hd k p hw
    · exact hs k p hw

/-- A descriptor that is no write end is replaced by one that is none. -/
theorem FdInv.setFd (h : FdInv s) (hold : (s.fds t j).Silent) (hnew : f.Silent) :
    FdInv (s.setFd t j f) := by
  refine h.same rfl rfl ?_ (fun _ hu => Or.inl hu)
  intro u k p
  rw [setFd_fds]
  split
  · next huk =>
    obtain ⟨rfl, rfl⟩ := huk
    exact ⟨fun hw => absurd hw (hnew p), fun hw => absurd hw (hold p)⟩
  · exact Iff.rfl

/-- A table without write ends is replaced by one without. -/
theorem FdInv.setTable {fds : Fd → VfsFd} (h : FdInv s) (hold : SilentTask s t)
    (hnew : ∀ k, (fds k).Silent) : FdInv (s.setTable t fds) := by
  refine h.same rfl rfl ?_ (fun _ hu => Or.inl hu)
  intro u k p
  by_cases hut : u = t
  · subst hut
    simp only [FdSys.setTable, Function.update_self]
    exact ⟨fun hw => absurd hw (hnew k p), fun hw => absurd hw (hold k p)⟩
  · simp [FdSys.setTable, hut]

/-- One pipe changes together with its write ends. -/
theorem FdInv.onPipe {q : Pipe} {b : Bool} (h : FdInv s)
    (hpipes : s'.pipes = Function.update s.pipes p q) (hhad : s'.had = Function.update s.had p b)
    (hfits : Fits q b (writeEnds s' p)) (hother : ∀ p', p' ≠ p → writeEnds s' p' = writeEnds s p')
    (hdead : ∀ u, (s'.tasks u).used = false → SilentTask s' u) : FdInv s' := by
  refine ⟨?_, hdead⟩
  intro p'
  rw [hpipes, hhad]
  by_cases hp : p' = p
  · subst hp
    rw [Function.update_self, Function.update_self]
    exact hfits
  · rw [Function.update_of_ne hp, Function.update_of_ne hp, hother p' hp]
    exact h.fits p'

/-- The write ends of the other pipes stay when one descriptor of a pipe changes. -/
theorem writeEnds_other {p' : PipeId} (hp : p' ≠ p) (hold : ∀ p', p' ≠ p → ¬ (s.fds t j).Writes p')
    (hnew : ∀ p', p' ≠ p → ¬ f.Writes p') : writeEnds (s.setFd t j f) p' = writeEnds s p' := by
  rw [writeEnds_clearFd (hnew p' hp), Finset.erase_eq_of_notMem]
  rw [mem_writeEnds]
  exact hold p' hp

/-- A descriptor is a write end of one pipe at most. -/
theorem VfsFd.Writes.unique {p' : PipeId} (h : f.Writes p) (h' : f.Writes p') : p' = p := by
  have hk := h'.2.symm.trans h.2
  rw [FdKind.writeEnd.injEq] at hk
  exact Fin.ext (Int.ofNat.inj hk)

/-- A write end of a pipe in use is made in a descriptor that is none. -/
theorem FdInv.attach (h : FdInv s) (hu : (s.tasks t).used = true) (hold : (s.fds t j).Silent)
    (hq : (s.pipes p).used = true) (heof : (s.pipes p).eof = false)
    (hrefs : (s.pipes p).writeRefs < 127) :
    FdInv ((s.setFd t j ⟨true, .writeEnd (p : Nat)⟩).attach (p : Nat)) := by
  have hw : (VfsFd.mk true (.writeEnd (p : Nat))).Writes p := ⟨rfl, rfl⟩
  unfold FdSys.attach
  rw [pipeOf_id]
  refine h.onPipe (p := p) rfl rfl ?_ ?_ ?_
  · change Fits _ true (writeEnds (s.setFd t j _) p)
    rw [writeEnds_setFd hw]
    refine (h.fits p).attach hq heof hrefs ?_
    rw [mem_writeEnds]
    exact hold p
  · exact fun p' hp => writeEnds_other hp (fun p' _ => hold p') fun p' hp hw' => hp (hw.unique hw')
  · intro u hdead k p' hw'
    have hne : (u, k) ≠ (t, j) := by
      intro he
      have hut : u = t := congrArg Prod.fst he
      change (s.tasks u).used = false at hdead
      rw [hut, hu] at hdead
      cases hdead
    change ((s.setFd t j _).fds u k).Writes p' at hw'
    rw [setFd_of_ne hne] at hw'
    exact h.dead u hdead k p' hw'

/-- Closing a descriptor lowers the count of its pipe, if it is a write end. -/
theorem closeFd_inv (h : FdInv s) (t : Tid) (j : Fd) : FdInv (s.closeFd t j) := by
  have hnew : ∀ k, (VfsFd.mk false k).Silent := fun k => silent_of_unused rfl
  unfold FdSys.closeFd
  dsimp only
  split
  · next hused =>
    split
    · next id hid =>
      unfold FdSys.detach
      cases hp : FdSys.pipeOf id with
      | none =>
          refine h.setFd ?_ (hnew _)
          rintro p ⟨-, hk⟩
          rw [hid, FdKind.writeEnd.injEq] at hk
          rw [hk, pipeOf_id] at hp
          cases hp
      | some p =>
          have hw : (s.fds t j).Writes p := ⟨hused, by rw [hid, pipeOf_eq hp]⟩
          refine h.onPipe (p := p) rfl (Function.update_eq_self p s.had).symm ?_ ?_ ?_
          · rw [writeEnds_clearFd (hnew _ p)]
            exact (h.fits p).detach (mem_writeEnds.mpr hw)
          · exact fun p' hp => writeEnds_other hp (fun p' hp hw' => hp (hw.unique hw'))
              fun p' _ => hnew _ p'
          · intro u hdead k p' hw'
            rw [setFd_fds] at hw'
            split at hw'
            · exact hnew _ p' hw'
            · exact h.dead u hdead k p' hw'
    · next hkind =>
      refine h.setFd ?_ (hnew _)
      exact fun p hw => hkind p hw.2
  · exact h

theorem closeFd_tasks (s : FdSys) (t : Tid) (j : Fd) : (s.closeFd t j).tasks = s.tasks := by
  unfold FdSys.closeFd FdSys.detach
  dsimp only
  split
  · split
    · split <;> rfl
    · rfl
  · rfl

theorem closeFd_fds (s : FdSys) (t : Tid) (j : Fd) (u : Tid) (k : Fd) :
    (s.closeFd t j).fds u k =
      if u = t ∧ k = j then { s.fds u k with used := false } else s.fds u k := by
  unfold FdSys.closeFd FdSys.detach
  dsimp only
  split
  · have hfds : ∀ s' : FdSys, s'.fds = s.fds →
        (s'.setFd t j { s.fds t j with used := false }).fds u k =
          if u = t ∧ k = j then { s.fds u k with used := false } else s.fds u k := by
      intro s' hs'
      rw [setFd_fds, hs']
      split
      · next huk => rw [huk.1, huk.2]
      · rfl
    split
    · split
      · exact hfds _ rfl
      · exact hfds _ rfl
    · exact hfds _ rfl
  · next hused =>
    split
    · next huk =>
      obtain ⟨rfl, rfl⟩ := huk
      have : (s.fds u k).used = false := by simpa using hused
      rw [← this]
    · rfl

end Tables

/-! ## Operations -/

section Steps
variable {s s' : FdSys} {t : Tid} {p : PipeId}

/-- The loop of `vfs_close_all` closes the descriptors it has come to. -/
theorem foldl_closeFd (s : FdSys) (t : Tid) (l : List Fd) :
    (l.foldl (fun s j => s.closeFd t j) s).tasks = s.tasks ∧
      ∀ u k, (l.foldl (fun s j => s.closeFd t j) s).fds u k =
        if u = t ∧ k ∈ l then { s.fds u k with used := false } else s.fds u k := by
  induction l generalizing s with
  | nil => exact ⟨rfl, by simp⟩
  | cons j l ih =>
      obtain ⟨htasks, hfds⟩ := ih (s.closeFd t j)
      refine ⟨htasks.trans (closeFd_tasks s t j), ?_⟩
      intro u k
      rw [List.foldl_cons, hfds, closeFd_fds]
      by_cases hut : u = t
      · by_cases hkj : k = j
        · simp [hut, hkj]
        · simp [hut, hkj]
      · simp [hut]

theorem vfsCloseAll_tasks (s : FdSys) (t : Tid) : (s.vfsCloseAll t).tasks = s.tasks :=
  (foldl_closeFd s t _).1

theorem vfsCloseAll_fds (s : FdSys) (t u : Tid) (k : Fd) :
    (s.vfsCloseAll t).fds u k = if u = t then { s.fds u k with used := false } else s.fds u k := by
  rw [FdSys.vfsCloseAll, (foldl_closeFd s t _).2]
  simp [List.mem_finRange]

theorem vfsCloseAll_inv (h : FdInv s) (t : Tid) : FdInv (s.vfsCloseAll t) := by
  unfold FdSys.vfsCloseAll
  generalize List.finRange vfsMaxFd = l
  induction l generalizing s with
  | nil => exact h
  | cons j l ih => exact ih (closeFd_inv h t j)

theorem vfsCloseAll_spec (h : FdInv s) (t : Tid) :
    FdInv (s.vfsCloseAll t) ∧ (s.vfsCloseAll t).tasks = s.tasks ∧ SilentTask (s.vfsCloseAll t) t ∧
      ∀ u, u ≠ t → (s.vfsCloseAll t).fds u = s.fds u := by
  refine ⟨vfsCloseAll_inv h t, vfsCloseAll_tasks s t, ?_, ?_⟩
  · intro k
    apply silent_of_unused
    rw [vfsCloseAll_fds, if_pos rfl]
  · intro u hut
    ext1 k
    rw [vfsCloseAll_fds, if_neg hut]

theorem pipeAlloc_spec (h : FdInv s) (ha : s.pipeAlloc = some (p, s')) :
    FdInv s' ∧ s'.fds = s.fds ∧ s'.tasks = s.tasks ∧ (s'.pipes p).used = true ∧
      (s'.pipes p).eof = false ∧ (s'.pipes p).writeRefs = 0 := by
  unfold FdSys.pipeAlloc at ha
  obtain ⟨p', hfind, he⟩ := Option.map_eq_some_iff.mp ha
  rw [Prod.mk.injEq] at he
  obtain ⟨rfl, rfl⟩ := he
  have hfree : (s.pipes p').used = false := by
    have := List.find?_some hfind
    simpa using this
  have hnew : (s.setPipe p' (pipeReset (s.pipes p'))).pipes p' = pipeReset (s.pipes p') :=
    Function.update_self p' _ s.pipes
  refine ⟨?_, rfl, rfl, ?_, ?_, ?_⟩
  · exact h.onPipe (p := p') rfl rfl ((h.fits p').reset hfree) (fun _ _ => rfl) h.dead
  · exact congrArg Pipe.used hnew
  · exact congrArg Pipe.eof hnew
  · exact congrArg Pipe.writeRefs hnew

theorem free_inv (h : FdInv s) (hends : ∀ t j, ¬ (s.fds t j).Writes p) :
    FdInv (s.setPipe p (pipeFree (s.pipes p))) := by
  have hempty : writeEnds s p = ∅ := by
    ext x
    simp [hends]
  exact h.onPipe (p := p) rfl (Function.update_eq_self p s.had).symm
    ((h.fits p).free hempty) (fun _ _ => rfl) h.dead

theorem mem_freeFds {j : Fd} (h : j ∈ s.freeFds t) : (s.fds t j).Silent := by
  have := (List.mem_filter.mp h).2
  simp only [Bool.and_eq_true, Bool.not_eq_true'] at this
  exact silent_of_unused this.2

theorem vfsPipe_inv (h : FdInv s) (hu : (s.tasks t).used = true) : FdInv (s.vfsPipe t) := by
  unfold FdSys.vfsPipe
  split
  · exact h
  · next p s' ha =>
    obtain ⟨h', hfds, htasks, hq, heof, hrefs⟩ := pipeAlloc_spec h ha
    split
    · next r w rest hfree =>
      have hnodup : (s'.freeFds t).Nodup := (List.nodup_finRange vfsMaxFd).filter _
      rw [hfree] at hnodup
      have hrw : w ≠ r := by
        rintro rfl
        simp at hnodup
      have hr : (s'.fds t r).Silent := mem_freeFds (by rw [hfree]; simp)
      have hw : (s'.fds t w).Silent := mem_freeFds (by rw [hfree]; simp)
      have hread := h'.setFd (f := ⟨true, .readEnd (p : Nat)⟩) hr (silent_of_kind (by simp))
      refine hread.attach ?_ ?_ hq heof ?_
      · change (s'.tasks t).used = true
        rw [htasks, hu]
      · rw [setFd_of_ne fun he => hrw (congrArg Prod.snd he)]
        exact hw
      · change (s'.pipes p).writeRefs < 127
        rw [hrefs]
        decide
    · -- a pipe that has just been allocated has no write ends
      refine free_inv h' ?_
      intro u k hw
      have hends := (h'.fits p).counted hq
      rw [hrefs, eq_comm, Int.natCast_eq_zero, Finset.card_eq_zero] at hends
      have hmem : (u, k) ∈ writeEnds s' p := mem_writeEnds.mpr hw
      rw [hends] at hmem
      cases hmem

/-- A slot of a dead task is filled. -/
theorem create_inv (h : FdInv s) (c : Creation) (hg : fdGuard s (.create c)) :
    FdInv (s.create c) := by
  unfold FdSys.create
  split
  · exact h
  · next id hslot =>
    obtain ⟨-, hfree⟩ := Creation.slot_spec hslot
    have hdead := h.dead id hfree
    have hfilled : FdInv { s with tasks := modify s.tasks id (c.init s.tasks) } := by
      refine h.same rfl rfl (fun _ _ _ => Iff.rfl) ?_
      intro u hu
      by_cases hui : u = id
      · exact Or.inl (hui ▸ hfree)
      · change (modify s.tasks id (c.init s.tasks) u).used = false at hu
        rw [modify_of_ne hui] at hu
        exact Or.inl hu
    cases c with
    | kernel hasAp dir => exact hfilled
    | user dir => exact hfilled.setTable hdead (initFds_silent _)
    | thread parent => exact hfilled.setTable hdead hg
    | fork parent dir => exact hfilled.setTable hdead hg

theorem exec_inv (h : FdInv s) (t : Tid) : FdInv (s.exec t) := by
  obtain ⟨hinv, -, hsilent, -⟩ := vfsCloseAll_spec h t
  exact hinv.setTable hsilent (initFds_silent _)

/-- Tasks end that have no open write ends left. -/
theorem FdInv.ends {ts : Tasks} (h : FdInv s)
    (hused : ∀ u, (ts u).used = false → (s.tasks u).used = false ∨ SilentTask s u) :
    FdInv { s with tasks := ts } :=
  h.same rfl rfl (fun _ _ _ => Iff.rfl) hused

theorem exit_inv (h : FdInv s) (hg : ∀ u, EndsWith s.tasks t u →
    u = t ∧ (s.tasks t).isThread = false ∨ SilentTask s u) : FdInv (s.exit t) := by
  have hused : ∀ u, (taskExitCode s.tasks t u).used = false → (s.tasks u).used = true →
      EndsWith s.tasks t u := by
    intro u hu hlive
    by_contra hends
    rw [(taskExitCode_used s.tasks t u).mpr ⟨hlive, hends⟩] at hu
    cases hu
  unfold FdSys.exit
  cases hthread : (s.tasks t).isThread with
  | true =>
      refine h.ends ?_
      intro u hu
      cases hlive : (s.tasks u).used with
      | false => exact Or.inl rfl
      | true =>
          right
          rcases hg u (hused u hu hlive) with hut | hs
          · rw [hthread] at hut
            cases hut.2
          · exact hs
  | false =>
      obtain ⟨hinv, htasks, hsilent, hother⟩ := vfsCloseAll_spec h t
      change FdInv { s.vfsCloseAll t with tasks := taskExitCode (s.vfsCloseAll t).tasks t }
      refine hinv.ends ?_
      rw [htasks]
      intro u hu
      cases hlive : (s.tasks u).used with
      | false => exact Or.inl rfl
      | true =>
          right
          by_cases hut : u = t
          · exact hut ▸ hsilent
          · rw [SilentTask, hother u hut]
            exact (hg u (hused u hu hlive)).resolve_left fun he => hut he.1

theorem redirectOutPipe_inv {id : Int} (h : FdInv s) (hu : (s.tasks t).used = true)
    (hold : (s.fds t 1).Silent) (hat : Attachable s id) : FdInv (s.vfsRedirectOutPipe t id) := by
  obtain ⟨p, rfl, hq, heof, hrefs⟩ := hat
  have hp : (p : Nat) < 8 := p.isLt
  have hid : Int.bmod ((p : Nat) : Int) 65536 = (p : Nat) := by
    apply Int.bmod_eq_of_le
    · omega
    · omega
  rw [FdSys.vfsRedirectOutPipe, hid]
  exact h.attach hu hold hq heof hrefs

theorem fdStep_inv (h : FdInv s) {op : FdOp} (hg : fdGuard s op) : FdInv (fdStep s op) := by
  cases op with
  | alloc =>
      simp only [fdStep]
      split
      · exact h
      · next p s' ha => exact (pipeAlloc_spec h ha).1
  | free p => exact free_inv h hg
  | pipe t =>
      simp only [fdStep]
      split
      · next hu => exact vfsPipe_inv h hu
      · exact h
  | opened t o =>
      simp only [fdStep, FdSys.vfsOpen]
      split
      · exact h
      · next j rest hfree =>
        exact h.setFd (mem_freeFds (by rw [hfree]; simp)) (silent_opened o)
  | redirectOutPipe t id => exact redirectOutPipe_inv h hg.1 hg.2.1 hg.2.2
  | redirectInPipe t id => exact h.setFd hg (silent_of_kind (by simp))
  | redirectOut t =>
      have hfile : (VfsFd.mk true .file).Silent := silent_of_kind (by simp)
      refine (h.setFd hg.1 hfile).setFd ?_ hfile
      rw [setFd_of_ne (by simp)]
      exact hg.2
  | redirectIn t => exact h.setFd hg (silent_of_kind (by simp))
  | close t j =>
      simp only [fdStep]
      split
      · exact closeFd_inv h t j
      · exact h
  | exec t =>
      simp only [fdStep]
      split
      · exact exec_inv h t
      · exact h
  | create c => exact create_inv h c hg
  | exit t =>
      simp only [fdStep]
      split
      · next hu => exact exit_inv h (hg hu)
      · exact h
  | kill id =>
      simp only [fdStep]
      split
      · exact h
      · next hid =>
        simp only [not_or, Bool.not_eq_false] at hid
        refine h.ends ?_
        intro u hu
        by_cases hui : u = id
        · exact Or.inr (hui ▸ hg hid.1)
        · rw [modify_of_ne hui] at hu
          exact Or.inl hu

end Steps

/-- In every run that meets the condition, the count of each pipe in use is the number
of its open write ends, and its end is flagged when the last one has gone. -/
theorem writers_ok {s : FdSys} (r : Reach FdStart fdGuard fdStep s) : WritersOk s := by
  apply FdInv.ok
  exact r.invariant (fun _ h => h.inv) fun _ _ h hg => fdStep_inv h hg

instance (s : FdSys) (op : FdOp) : Decidable (fdGuard s op) :=
  match op with
  | .free p => inferInstanceAs (Decidable (∀ t j, ¬ (s.fds t j).Writes p))
  | .redirectOutPipe t id =>
      inferInstanceAs (Decidable ((s.tasks t).used = true ∧ (s.fds t 1).Silent ∧ Attachable s id))
  | .redirectInPipe t _ => inferInstanceAs (Decidable (s.fds t 0).Silent)
  | .redirectIn t => inferInstanceAs (Decidable (s.fds t 0).Silent)
  | .redirectOut t => inferInstanceAs (Decidable ((s.fds t 1).Silent ∧ (s.fds t 2).Silent))
  | .create (.thread parent) => inferInstanceAs (Decidable (SilentTask s parent))
  | .create (.fork parent _) => inferInstanceAs (Decidable (SilentTask s parent))
  | .exit t =>
      inferInstanceAs (Decidable ((s.tasks t).used = true → ∀ u, EndsWith s.tasks t u →
        u = t ∧ (s.tasks t).isThread = false ∨ SilentTask s u))
  | .kill id => inferInstanceAs (Decidable (id ≠ 0 → SilentTask s id))
  | .alloc | .pipe _ | .opened .. | .close .. | .exec _ | .create (.kernel ..)
  | .create (.user _) => isTrue trivial

/-- The shell with its standard descriptors. -/
def shellFds : FdSys where
  tasks := fun t => if t = 0 then { Task.empty with used := true } else Task.empty
  fds := fun t => if t = 0 then FdSys.initFds fun _ => ⟨false, .none⟩ else fun _ => ⟨false, .none⟩
  pipes := fun _ => ⟨⟨fun _ => 0, 0, 0⟩, false, false, 0⟩
  had := fun _ => false

theorem shellFds_start : FdStart shellFds where
  fds := by decide +kernel
  pipes := fun _ => rfl

/-- The shell joins two programs by a pipe; both exit, and the pipe is freed. -/
def pipeline : List FdOp :=
  [.alloc, .create (.user 1), .create (.user 2), .redirectOutPipe 1 0, .redirectInPipe 2 0,
    .exit 1, .exit 2, .free 0]

theorem writers_ok_pipeline : WritersOk (pipeline.foldl fdStep shellFds) :=
  writers_ok ((Reach.start shellFds_start).guarded (by decide +kernel))

/-- A process makes a pipe and forks; the parent closes its write end. -/
def forkWithPipe : List FdOp := [.create (.user 1), .pipe 1, .create (.fork 1 2), .close 1 4]

theorem forked_writer_not_counted : ¬ ∀ s, Reach FdStart anyInput fdStep s → WritersOk s := by
  intro h
  have hs := (h _ ((Reach.start shellFds_start).foldl forkWithPipe)).ended 0
  have hopen : (2, 4) ∈ openWriters (forkWithPipe.foldl fdStep shellFds) 0 := by
    simp only [openWriters, Finset.mem_filter, Finset.mem_univ, true_and]
    decide +kernel
  have hempty := ((hs (by decide +kernel)).mp (by decide +kernel)).2
  rw [hempty] at hopen
  cases hopen

end OriaOS.Ipc
