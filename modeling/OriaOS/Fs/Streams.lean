import OriaOS.Fs.Access

/-!
# Streams over descriptors

The functions of `lib.h` on a `FILE`, over the calls of `vfs.c`. `lseek` passes the
offset on and drops `whence`, and `fopen` has no flag that truncates or appends.

Beside them stands the library of the C standard: a file is a byte string, a stream a
position in one. The standard leaves open where a stream for appending starts; here it
starts at 0, and every write goes to the end.
-/

namespace OriaOS.Fs.Streams

open OriaOS.Lib OriaOS.Sched
open OriaOS.Ipc (vfsMaxFd Fd)

variable {name path : CString} {j : Fd} {data : List UInt8} {m m' : Malloc} {s : Mfs3}
  {raw : Nat → UInt8} {t : Tid} {tick : UInt32}

/-- A pointer to a `FILE`. -/
abbrev Handle := Nat

/-- `FILE`. -/
structure FILE where
  fd : Fd
  eof : Bool
  err : Bool
  ungot : Int
  deriving DecidableEq

/-- The kernel, and the `FILE`s the library has handed out. -/
structure Stdio where
  vfs : Vfs
  file : Handle → Option FILE

/-- The modes of `fopen`. -/
inductive Mode where
  | r
  | rPlus
  | w
  | a
  deriving DecidableEq

/-- The mode as the caller writes it. -/
def Mode.text : Mode → List UInt8
  | .r => [114]
  | .rPlus => [114, 43]
  | .w => [119]
  | .a => [97]

def EOF : Int := -1

def seekSet : Int := 0
def seekCur : Int := 1
def seekEnd : Int := 2

namespace Stdio

def setFile (s : Stdio) (p : Handle) (f : Option FILE) : Stdio :=
  { s with file := Function.update s.file p f }

end Stdio

/-! ## The calls to the kernel -/

/-- What `SYS_READ_FD` and `SYS_WRITE_FD` take at once. -/
def maxTransfer : Int := 65536

/-- The descriptor that `SYS_OPEN` returns. -/
def fdOf (r : Int) : Option Fd := (List.finRange vfsMaxFd).find? fun j => decide ((j.val : Int) = r)

/-- `sys_read_fd`. -/
def sysReadFd (s : Vfs) (t : Tid) (j : Fd) (len : Int) : Vfs × Int × List UInt8 :=
  if len < 0 ∨ maxTransfer < len then (s, -1, [])
  else if (s.fds t j).IsFile then vfsReadFile s t j len.toNat
  else (s, -1, [])

/-- `sys_write_fd`. -/
def sysWriteFd (s : Vfs) (t : Tid) (j : Fd) (buf : List UInt8) (len : Int) (m : Malloc)
    (raw : Nat → UInt8) (m' : Malloc) (tick : UInt32) : Vfs × Int :=
  if len < 0 ∨ maxTransfer < len then (s, -1)
  else if (s.fds t j).IsFile then vfsWriteFile s t j (buf.take len.toNat) m raw m' tick
  else (s, -1)

/-- `sys_close_fd`. -/
def sysCloseFd (s : Vfs) (t : Tid) (j : Fd) : Vfs × Int :=
  (vfsStep s (.close t j), if 3 ≤ j.val ∧ (s.fds t j).used = true then 0 else -1)

/-- `lseek`. -/
def lseek (s : Vfs) (t : Tid) (j : Fd) (offset : Int32) (_whence : Int) : Vfs × Int :=
  (vfsSeek s t j offset.toUInt32, if (s.fds t j).used then offset.toInt else -1)

/-! ## The library -/

/-- The flags that `fopen` passes on. -/
def openFlags (mode : List UInt8) : UInt32 :=
  if mode.getD 0 0 = 114 ∧ mode.getD 1 0 = 43 then oRdwr.toUInt32
  else if mode.getD 0 0 = 114 then oRdonly.toUInt32
  else if mode.getD 0 0 = 119 then oWronly.toUInt32 ||| oCreate
  else if mode.getD 0 0 = 97 then oWronly.toUInt32 ||| oCreate
  else oRdonly.toUInt32

namespace Stdio

variable (t : Tid)

/-- `fopen`; `p` is what `malloc` returns. -/
def fopen (s : Stdio) (path : CString) (mode : List UInt8) (tick : UInt32) (m : Malloc)
    (p : Option Handle) : Stdio × Option Handle :=
  let r := vfsOpen s.vfs t path (openFlags mode) tick m
  match fdOf r.2 with
  | none => ({ s with vfs := r.1 }, none)
  | some j =>
      match p with
      | none => ({ s with vfs := (sysCloseFd r.1 t j).1 }, none)
      | some p => (setFile { s with vfs := r.1 } p (some ⟨j, false, false, -1⟩), some p)

def fclose (s : Stdio) (p : Handle) : Stdio × Int :=
  match s.file p with
  | none => (s, EOF)
  | some f =>
      if f.fd.val < 3 then (s, EOF)
      else
        let r := sysCloseFd s.vfs t f.fd
        (setFile { s with vfs := r.1 } p none, r.2)

/-- `fread`, with the bytes stored for the caller. -/
def fread (s : Stdio) (p : Handle) (size nmemb : Nat) : Stdio × Int × List UInt8 :=
  match s.file p with
  | none => (s, 0, [])
  | some f =>
      if f.eof ∨ f.err then (s, 0, [])
      else
        let r := sysReadFd s.vfs t f.fd (int32 (size * nmemb : Nat))
        if r.2.1 ≤ 0 then
          (setFile { s with vfs := r.1 } p (some { f with eof := true }), 0, [])
        else ({ s with vfs := r.1 }, r.2.1.tdiv (if size = 0 then 1 else size), r.2.2)

/-- `fwrite` of the bytes at `ptr`. -/
def fwrite (s : Stdio) (p : Handle) (ptr : List UInt8) (size nmemb : Nat) (m : Malloc)
    (raw : Nat → UInt8) (m' : Malloc) (tick : UInt32) : Stdio × Int :=
  match s.file p with
  | none => (s, 0)
  | some f =>
      if f.err then (s, 0)
      else
        let r := sysWriteFd s.vfs t f.fd ptr (int32 (size * nmemb : Nat)) m raw m' tick
        if r.2 < 0 then (setFile { s with vfs := r.1 } p (some { f with err := true }), 0)
        else ({ s with vfs := r.1 }, r.2.tdiv (if size = 0 then 1 else size))

def fgetc (s : Stdio) (p : Handle) : Stdio × Int :=
  match s.file p with
  | none => (s, EOF)
  | some f =>
      if f.eof then (s, EOF)
      else if f.ungot ≠ -1 then (s.setFile p (some { f with ungot := -1 }), f.ungot)
      else
        let r := sysReadFd s.vfs t f.fd 1
        if r.2.1 ≤ 0 then
          (setFile { s with vfs := r.1 } p (some { f with eof := true }), EOF)
        else ({ s with vfs := r.1 }, (r.2.2.getD 0 0).toNat)

def fseek (s : Stdio) (p : Handle) (offset : Int32) (whence : Int) : Stdio × Int :=
  match s.file p with
  | none => (s, -1)
  | some f =>
      let r := lseek s.vfs t f.fd offset whence
      if r.2 < 0 then (setFile { s with vfs := r.1 } p (some { f with err := true }), -1)
      else (setFile { s with vfs := r.1 } p (some { f with eof := false }), 0)

def ftell (s : Stdio) (p : Handle) : Stdio × Int :=
  match s.file p with
  | none => (s, -1)
  | some f =>
      let r := lseek s.vfs t f.fd 0 seekCur
      ({ s with vfs := r.1 }, r.2)

def rewind (s : Stdio) (p : Handle) : Stdio :=
  match s.file p with
  | none => s
  | some f =>
      setFile { s with vfs := (lseek s.vfs t f.fd 0 seekSet).1 } p
        (some { f with eof := false, err := false })

end Stdio

/-- A call of the program, with what the kernel and `malloc` bring to it. -/
inductive StdioCall where
  | fopen (path : CString) (mode : Mode) (tick : UInt32) (m : Malloc) (p : Option Handle)
  | fclose (p : Handle)
  | fread (p : Handle) (size nmemb : Nat)
  | fwrite (p : Handle) (ptr : List UInt8) (size nmemb : Nat) (m : Malloc)
      (raw : Nat → UInt8) (m' : Malloc) (tick : UInt32)
  | fgetc (p : Handle)
  | fseek (p : Handle) (offset : Int32) (whence : Int)
  | ftell (p : Handle)
  | rewind (p : Handle)

/-- What a call returns. -/
inductive Answer where
  | stream (p : Option Handle)
  | items (n : Int) (bytes : List UInt8)
  | int (r : Int)
  | void
  deriving DecidableEq

def stdioStep (t : Tid) (s : Stdio) : StdioCall → Stdio × Answer
  | .fopen path mode tick m p => let r := s.fopen t path mode.text tick m p; (r.1, .stream r.2)
  | .fclose p => let r := s.fclose t p; (r.1, .int r.2)
  | .fread p size nmemb => let r := s.fread t p size nmemb; (r.1, .items r.2.1 r.2.2)
  | .fwrite p ptr size nmemb m raw m' tick =>
      let r := s.fwrite t p ptr size nmemb m raw m' tick
      (r.1, .int r.2)
  | .fgetc p => let r := s.fgetc t p; (r.1, .int r.2)
  | .fseek p offset whence => let r := s.fseek t p offset whence; (r.1, .int r.2)
  | .ftell p => let r := s.ftell t p; (r.1, .int r.2)
  | .rewind p => (s.rewind t p, .void)

/-! ## The C standard -/

/-- A stream of the standard. -/
structure Stream where
  name : CString
  mode : Mode
  pos : Nat
  eof : Bool
  deriving DecidableEq

structure StdFiles where
  content : CString → Option (List UInt8)
  stream : Handle → Option Stream

/-- A mode that reads. -/
def Mode.reads (mode : Mode) : Bool := mode = .r || mode = .rPlus

/-- A mode that creates a file. -/
def Mode.creates (mode : Mode) : Bool := mode = .w || mode = .a

/-- The content of a file that is opened: "w" truncates it. -/
def Mode.opens : Mode → Option (List UInt8) → Option (List UInt8)
  | .r, old | .rPlus, old => old
  | .w, _ => some []
  | .a, old => some (old.getD [])

/-- Where a seek leads. -/
def Stream.target (g : Stream) (size : Nat) (offset whence : Int) : Int :=
  if whence = seekSet then offset
  else if whence = seekCur then g.pos + offset
  else if whence = seekEnd then size + offset
  else -1

namespace StdFiles

/-- The bytes of a file. -/
def bytes (s : StdFiles) (name : CString) : List UInt8 := (s.content name).getD []

def setStream (s : StdFiles) (p : Handle) (g : Option Stream) : StdFiles :=
  { s with stream := Function.update s.stream p g }

/-- A file that some stream has open. -/
def Open (s : StdFiles) (name : CString) : Prop := ∃ p g, s.stream p = some g ∧ g.name = name

def fopen (s : StdFiles) (path : CString) (mode : Mode) (p : Option Handle) :
    StdFiles × Option Handle :=
  match p, mode.opens (s.content path) with
  | some p, some bytes =>
      (setStream { s with content := Function.update s.content path (some bytes) } p
        (some ⟨path, mode, 0, false⟩), some p)
  | _, _ => (s, none)

/-- A read of `n` bytes. -/
def read (s : StdFiles) (p : Handle) (n : Nat) : StdFiles × List UInt8 :=
  match s.stream p with
  | none => (s, [])
  | some g =>
      if g.eof ∨ ¬ g.mode.reads then (s, [])
      else
        let got := ((s.bytes g.name).drop g.pos).take n
        (s.setStream p (some { g with pos := g.pos + got.length, eof := decide (got.length < n) }),
          got)

/-- A write of bytes, at the end when the stream appends. -/
def write (s : StdFiles) (p : Handle) (data : List UInt8) : StdFiles :=
  match s.stream p with
  | none => s
  | some g =>
      if g.mode = .r ∨ data = [] then s
      else
        let start := if g.mode = .a then (s.bytes g.name).length else g.pos
        setStream
          { s with
            content := Function.update s.content g.name
              (some (overwrite (s.bytes g.name) start data)) }
          p (some { g with pos := start + data.length })

def fseek (s : StdFiles) (p : Handle) (offset whence : Int) : StdFiles × Int :=
  match s.stream p with
  | none => (s, -1)
  | some g =>
      let target := g.target (s.bytes g.name).length offset whence
      if target < 0 then (s, -1)
      else (s.setStream p (some { g with pos := target.toNat, eof := false }), 0)

/-- The position of a stream. -/
def ftell (s : StdFiles) (p : Handle) : Int := ((s.stream p).map fun g => (g.pos : Int)).getD (-1)

end StdFiles

def stdStep (s : StdFiles) : StdioCall → StdFiles × Answer
  | .fopen path mode _ _ p => let r := s.fopen path mode p; (r.1, .stream r.2)
  | .fclose p => (s.setStream p none, .int 0)
  | .fread p size nmemb =>
      let r := s.read p (size * nmemb)
      (r.1, .items (r.2.length / size : Nat) r.2)
  | .fwrite p ptr size nmemb _ _ _ _ => (s.write p ptr, .int (if size = 0 then 0 else nmemb))
  | .fgetc p =>
      let r := s.read p 1
      (r.1, .int ((r.2.head?.map fun c => (c.toNat : Int)).getD EOF))
  | .fseek p offset whence => let r := s.fseek p offset.toInt whence; (r.1, .int r.2)
  | .ftell p => (s, .int (s.ftell p))
  | .rewind p => ((s.fseek p 0 seekSet).1, .void)

/-! ## Both side by side -/

/-- The program's library over the kernel, and the library of the standard. -/
structure Both where
  code : Stdio
  std : StdFiles

/-- A stream that the kernel has no descriptor for is refused by both. -/
def granted (t : Tid) (s : Stdio) : StdioCall → StdioCall
  | .fopen path mode tick m p => .fopen path mode tick m (if s.vfs.freeFd t = none then none else p)
  | c => c

def bothStep (t : Tid) (b : Both) (c : StdioCall) : Both :=
  ⟨(stdioStep t b.code c).1, (stdStep b.std (granted t b.code c)).1⟩

/-- The files that the kernel holds, and no stream. -/
def stdFiles (s : Mfs3) : StdFiles :=
  ⟨fun name => (fsReadBin s name).map fun _ => content s name, fun _ => none⟩

/-- The program has opened nothing. -/
structure StdioStart (b : Both) : Prop where
  inv : VfsInv b.code.vfs
  closed : ∀ p, b.code.file p = none
  std : b.std = stdFiles b.code.vfs.fs

/-- A call on an open stream; `malloc` returns a block that is not in use, and the data
of a write have the length it says. -/
def stdioCall (b : Both) : StdioCall → Prop
  | .fopen _ _ _ _ p => ∀ q, p = some q → b.code.file q = none
  | .fwrite p ptr size nmemb _ _ _ _ => b.code.file p ≠ none ∧ ptr.length = size * nmemb
  | .fclose p | .fread p _ _ | .fgetc p | .fseek p _ _ | .ftell p | .rewind p =>
      b.code.file p ≠ none

/-- A file that was created and not written: it holds one byte where the standard has
none. -/
def Unwritten (s : Mfs3) (files : CString → Option (List UInt8)) (name : CString) : Prop :=
  files name = some [] ∧ content s name = [0]

/-- The condition of an open. -/
structure OpenMeets (t : Tid) (b : Both) (path : CString) (mode : Mode) (m : Malloc)
    (p : Option Handle) : Prop where
  name : path.length ≤ maxName - 1
  plain : procEntry path = false ∧ devEntry path = false
  held : mode.creates = false → fsRead b.code.vfs.fs path = none → b.std.content path = none
  empty : mode = .w → ∀ bytes, b.std.content path = some bytes → bytes = []
  room : mode.creates = true → fsRead b.code.vfs.fs path = none →
    m ≠ none ∧ p ≠ none ∧ (FileNamed b.code.vfs.fs path ∨ ∃ i, (b.code.vfs.fs.files i).used = 0)

/-- The condition of a read of `n` bytes. -/
structure ReadMeets (b : Both) (f : FILE) (g : Stream) (n : Nat) : Prop where
  reads : g.mode.reads = true
  short : (n : Int) ≤ maxTransfer
  some : n = 0 → g.eof = true
  grown : f.eof = g.eof ∨ (b.std.bytes g.name).length ≤ g.pos
  written : Unwritten b.code.vfs.fs b.std.content g.name → 0 < g.pos

/-- The condition of a write. -/
structure WriteMeets (t : Tid) (b : Both) (f : FILE) (g : Stream) (data : List UInt8) (m : Malloc)
    (raw : Nat → UInt8) (m' : Malloc) : Prop where
  writes : g.mode ≠ .r
  short : (data.length : Int) ≤ maxTransfer
  block : m ≠ none
  fits : writeFitsAt b.code.vfs t f.fd data raw m'
  room : g.pos + data.length < maxBinData
  appends : g.mode = .a → g.pos = (b.std.bytes g.name).length
  some : data = [] → b.std.bytes g.name ≠ [] ∧ g.pos ≤ (b.std.bytes g.name).length

/-- The condition of a call. -/
def stdioFits (t : Tid) (b : Both) : StdioCall → Prop
  | .fopen path mode _ m p => OpenMeets t b path mode m p
  | .fread p size nmemb => ∀ f g, b.code.file p = some f → b.std.stream p = some g →
      ReadMeets b f g (size * nmemb)
  | .fgetc p => ∀ f g, b.code.file p = some f → b.std.stream p = some g → ReadMeets b f g 1
  | .fwrite p ptr _ _ m raw m' _ => ∀ f g, b.code.file p = some f → b.std.stream p = some g →
      WriteMeets t b f g ptr m raw m'
  | .fseek p offset whence => ∀ g, b.std.stream p = some g → 0 ≤ offset.toInt ∧
      (whence = seekSet ∨ whence = seekCur ∧ g.pos = 0 ∨
        whence = seekEnd ∧ b.std.bytes g.name = [])
  | .ftell p => ∀ g, b.std.stream p = some g → g.pos = 0
  | .rewind _ => True
  | .fclose p => ∀ g, b.std.stream p = some g →
      Unwritten b.code.vfs.fs b.std.content g.name →
        ∃ q g', q ≠ p ∧ b.std.stream q = some g' ∧ g'.name = g.name

def stdioGuard (t : Tid) (b : Both) (c : StdioCall) : Prop := stdioCall b c ∧ stdioFits t b c

/-- What the standard promises: the next call returns what it returns there, the offsets
are the positions, and the files have the same bytes once they are written or closed. -/
structure FollowsStd (guard : Both → StdioCall → Prop) (t : Tid) (b : Both) : Prop where
  answers : ∀ c, guard b c →
    (stdioStep t b.code c).2 = (stdStep b.std (granted t b.code c)).2
  positions : ∀ p f g, b.code.file p = some f → b.std.stream p = some g →
    (b.code.vfs.fds t f.fd).offset.toNat = g.pos
  contents : ∀ name bytes, b.std.content name = some bytes → bytes ≠ [] ∨ ¬ b.std.Open name →
    content b.code.vfs.fs name = bytes

/-! ## What is kept -/

/-- A `FILE` and the stream it stands for. -/
structure StreamOk (fds : Fd → VfsFd) (files : CString → Option (List UInt8)) (f : FILE)
    (g : Stream) : Prop where
  file : (fds f.fd).IsFile
  high : 3 ≤ f.fd.val
  name : (fds f.fd).name = g.name
  mode : (fds f.fd).flags = (openFlags g.mode.text).toUInt8
  pos : (fds f.fd).offset.toNat = g.pos
  small : g.pos < 2147483648
  fine : f.err = false ∧ f.ungot = -1
  ended : f.eof = true → g.eof = true
  known : files g.name ≠ none

/-- The files of the kernel are those of the standard; one that no stream has open is
written. -/
structure FilesMatch (s : Mfs3) (files : CString → Option (List UInt8)) (opened : CString → Prop) :
    Prop where
  exist : ∀ name, files name = none ↔ fsReadBin s name = none
  same : ∀ name bytes, files name = some bytes →
    content s name = bytes ∨ Unwritten s files name
  held : ∀ name, Unwritten s files name → opened name

structure Tracks (t : Tid) (b : Both) : Prop where
  inv : VfsInv b.code.vfs
  streams : ∀ p, Option.Rel (StreamOk (b.code.vfs.fds t) b.std.content) (b.code.file p)
    (b.std.stream p)
  apart : ∀ p q f f', b.code.file p = some f → b.code.file q = some f' → f.fd = f'.fd → p = q
  files : FilesMatch b.code.vfs.fs b.std.content b.std.Open

theorem StreamOk.congr {fds fds' : Fd → VfsFd} {files files' : CString → Option (List UInt8)}
    {f : FILE} {g : Stream} (h : StreamOk fds files f g) (hfd : fds' f.fd = fds f.fd)
    (hfiles : files g.name ≠ none → files' g.name ≠ none) : StreamOk fds' files' f g where
  file := hfd ▸ h.file
  high := h.high
  name := hfd ▸ h.name
  mode := hfd ▸ h.mode
  pos := hfd ▸ h.pos
  small := h.small
  fine := h.fine
  ended := h.ended
  known := hfiles h.known

/-- A stream with its offset moved. -/
theorem StreamOk.moved {fds fds' : Fd → VfsFd} {files files' : CString → Option (List UInt8)}
    {f f' : FILE} {g g' : Stream} (h : StreamOk fds files f g) {o : UInt32}
    (hfds : fds' f.fd = { fds f.fd with offset := o }) (hfd : f'.fd = f.fd)
    (hname : g'.name = g.name) (hmode : g'.mode = g.mode) (hpos : o.toNat = g'.pos)
    (hsmall : g'.pos < 2147483648) (hfine : f'.err = false ∧ f'.ungot = -1)
    (hended : f'.eof = true → g'.eof = true) (hknown : files' g.name ≠ none) :
    StreamOk fds' files' f' g' where
  file := by
    rw [hfd, hfds]
    exact h.file
  high := hfd ▸ h.high
  name := by
    rw [hfd, hfds, hname]
    exact h.name
  mode := by
    rw [hfd, hfds, hmode]
    exact h.mode
  pos := by rw [hfd, hfds, hpos]
  small := hsmall
  fine := hfine
  ended := hended
  known := hname ▸ hknown

namespace Tracks

variable {t : Tid} {b b' : Both} {p : Handle} {f : FILE} {g : Stream}

theorem ok (h : Tracks t b) (hf : b.code.file p = some f) (hg : b.std.stream p = some g) :
    StreamOk (b.code.vfs.fds t) b.std.content f g := by
  have hrel := h.streams p
  rw [hf, hg] at hrel
  cases hrel
  assumption

theorem stream (h : Tracks t b) (hf : b.code.file p = some f) :
    ∃ g, b.std.stream p = some g ∧ StreamOk (b.code.vfs.fds t) b.std.content f g := by
  have hrel := h.streams p
  rw [hf] at hrel
  generalize b.std.stream p = og at hrel
  cases hrel with
  | some hok => exact ⟨_, rfl, hok⟩

/-- One stream changes, and the others keep their descriptors. -/
theorem update (h : Tracks t b) {f' : Option FILE} {g' : Option Stream}
    (hfile : b'.code.file = Function.update b.code.file p f')
    (hstream : b'.std.stream = Function.update b.std.stream p g') (hinv : VfsInv b'.code.vfs)
    (hother : ∀ q f, q ≠ p → b.code.file q = some f →
      b'.code.vfs.fds t f.fd = b.code.vfs.fds t f.fd)
    (hnew : Option.Rel (StreamOk (b'.code.vfs.fds t) b'.std.content) f' g')
    (hapart : ∀ f, f' = some f → ∀ q f₂, q ≠ p → b.code.file q = some f₂ → f₂.fd ≠ f.fd)
    (hknown : ∀ name, b.std.content name ≠ none → b'.std.content name ≠ none)
    (hfiles : FilesMatch b'.code.vfs.fs b'.std.content b'.std.Open) : Tracks t b' where
  inv := hinv
  streams := by
    intro q
    rw [hfile, hstream]
    by_cases hq : q = p
    · subst hq
      rw [Function.update_self, Function.update_self]
      exact hnew
    · rw [Function.update_of_ne hq, Function.update_of_ne hq]
      have hrel := h.streams q
      have hkept := hother q
      generalize b.code.file q = of at hrel hkept
      generalize b.std.stream q = og at hrel
      cases hrel with
      | some hok => exact .some (hok.congr (hkept _ hq rfl) (hknown _))
      | none => exact .none
  apart := by
    intro q r f₁ f₂ hf₁ hf₂ hfd
    rw [hfile] at hf₁ hf₂
    by_contra hne
    by_cases hq : q = p
    · subst hq
      have hr : r ≠ q := fun he => hne he.symm
      rw [Function.update_self] at hf₁
      rw [Function.update_of_ne hr] at hf₂
      exact hapart f₁ hf₁ r f₂ hr hf₂ hfd.symm
    · rw [Function.update_of_ne hq] at hf₁
      by_cases hr : r = p
      · subst hr
        rw [Function.update_self] at hf₂
        exact hapart f₂ hf₂ q f₁ hq hf₁ hfd
      · rw [Function.update_of_ne hr] at hf₂
        exact hne (h.apart q r f₁ f₂ hf₁ hf₂ hfd)
  files := hfiles

/-- The descriptors of the other streams are other ones. -/
theorem fd_ne (h : Tracks t b) (hf : b.code.file p = some f) {q : Handle} {f₂ : FILE} (hq : q ≠ p)
    (hf₂ : b.code.file q = some f₂) : f₂.fd ≠ f.fd :=
  fun he => hq (h.apart q p f₂ f hf₂ hf he)

/-- A stream that keeps its file keeps it open. -/
theorem open_moved {s s' : StdFiles} (hg : s.stream p = some g) (g' : Stream)
    (hstream : s'.stream = Function.update s.stream p (some g')) (hname : g'.name = g.name)
    (h : s.Open name) : s'.Open name := by
  obtain ⟨q, g₂, hq, rfl⟩ := h
  by_cases hqp : q = p
  · subst hqp
    obtain rfl : g = g₂ := Option.some.inj (hg.symm.trans hq)
    exact ⟨q, g', by rw [hstream, Function.update_self], hname⟩
  · exact ⟨q, g₂, by rw [hstream, Function.update_of_ne hqp, hq], rfl⟩

/-- One stream moves in its file. -/
theorem move (h : Tracks t b) (hf : b.code.file p = some f) (hg : b.std.stream p = some g)
    {f' : FILE} {g' : Stream} (hfile : b'.code.file = Function.update b.code.file p (some f'))
    (hstream : b'.std.stream = Function.update b.std.stream p (some g')) (hfd : f'.fd = f.fd)
    (hname : g'.name = g.name) (hinv : VfsInv b'.code.vfs)
    (hother : ∀ k, k ≠ f.fd → b'.code.vfs.fds t k = b.code.vfs.fds t k)
    (hok : StreamOk (b'.code.vfs.fds t) b'.std.content f' g')
    (hfs : b'.code.vfs.fs = b.code.vfs.fs) (hcontent : b'.std.content = b.std.content) :
    Tracks t b' := by
  apply h.update hfile hstream hinv
  · exact fun q f₂ hq hf₂ => hother _ (h.fd_ne hf hq hf₂)
  · exact .some hok
  · intro f₁ hf₁ q f₂ hq hf₂
    rw [← Option.some.inj hf₁, hfd]
    exact h.fd_ne hf hq hf₂
  · exact fun name hne => hcontent ▸ hne
  · rw [hfs, hcontent]
    exact ⟨h.files.exist, h.files.same,
      fun name hu => open_moved hg g' hstream hname (h.files.held name hu)⟩

/-! ### Reading -/

theorem bytes_some (hok : StreamOk (b.code.vfs.fds t) b.std.content f g) :
    b.std.content g.name = some (b.std.bytes g.name) := by
  obtain ⟨bytes, hb⟩ := Option.ne_none_iff_exists'.mp hok.known
  rw [StdFiles.bytes, hb]
  rfl

/-- What stands behind a position, unless it is the byte of a file that was not
written. -/
theorem drop_content (h : Tracks t b) (hok : StreamOk (b.code.vfs.fds t) b.std.content f g)
    {k : Nat} (hk : Unwritten b.code.vfs.fs b.std.content g.name → 0 < k) :
    (content b.code.vfs.fs g.name).drop k = (b.std.bytes g.name).drop k := by
  rcases h.files.same _ _ (bytes_some hok) with hsame | hnew
  · rw [hsame]
  · rw [StdFiles.bytes, hnew.1, hnew.2, List.drop_eq_nil_of_le (hk hnew), Option.getD_some,
      List.drop_nil]

theorem length_content (h : Tracks t b) (name : CString) :
    (content b.code.vfs.fs name).length ≤ maxBinData := by
  obtain ⟨_, size, -, -, -, hsmall, hlen, -⟩ := h.inv.files.existing (h.inv.empty.held name)
  rw [hlen]
  exact hsmall

end Tracks

/-- No more is delivered than was asked for. -/
theorem StdFiles.length_read_le (s : StdFiles) (p : Handle) (n : Nat) :
    (s.read p n).2.length ≤ n := by
  unfold StdFiles.read
  split
  · exact Nat.zero_le n
  · split
    · exact Nat.zero_le n
    · exact List.length_take_le n _

theorem openFlags_mode (mode : Mode) : (openFlags mode.text).toUInt8 &&& oRdwr ≠ 0 := by
  cases mode <;> decide

namespace Tracks

variable {t : Tid} {b b' : Both} {p : Handle} {f : FILE} {g : Stream}

theorem flags_ne (hok : StreamOk (b.code.vfs.fds t) b.std.content f g) :
    (b.code.vfs.fds t f.fd).flags &&& oRdwr ≠ 0 := by
  rw [hok.mode]
  exact openFlags_mode g.mode

/-- A read through the descriptor of a stream. -/
theorem sysReadFd_ok (h : Tracks t b) (hok : StreamOk (b.code.vfs.fds t) b.std.content f g)
    {n : Nat} (hn : (n : Int) ≤ maxTransfer) :
    ReadOk b.code.vfs t f.fd n (sysReadFd b.code.vfs t f.fd n) ∧
      VfsInv (sysReadFd b.code.vfs t f.fd n).1 := by
  have hmax : maxTransfer = 65536 := rfl
  have hread : sysReadFd b.code.vfs t f.fd n = vfsReadFile b.code.vfs t f.fd n := by
    rw [sysReadFd, if_neg (by omega), if_pos hok.file, Int.toNat_natCast]
  have hfits : readFits b.code.vfs t f.fd n := Or.inl (hok.pos ▸ hok.small)
  rw [hread]
  refine ⟨vfsReadFile_ok h.inv.files fun _ => hfits, ?_⟩
  have hlen : n < 2147483648 := by omega
  have hstep : VfsInv (vfsStep b.code.vfs (.read t f.fd n)) :=
    vfsStep_inv h.inv ⟨hlen, fun _ _ => hfits⟩
  rw [vfsStep, if_pos hok.file] at hstep
  exact hstep

/-- What a read makes of the descriptor. -/
theorem sysReadFd_fd (s : Vfs) (t : Tid) (j : Fd) (len : Int) :
    ∃ o, (sysReadFd s t j len).1.fds t j = { s.fds t j with offset := o } := by
  unfold sysReadFd
  split
  · exact ⟨_, rfl⟩
  · split
    · rcases vfsReadFile_step s t j len.toNat with hr | ⟨out, o, hr⟩
      · exact ⟨_, by rw [hr]⟩
      · exact ⟨o, by rw [hr, setFd_fd]⟩
    · exact ⟨_, rfl⟩

/-- A read of the standard that delivers what the kernel delivers. -/
theorem read_step (h : Tracks t b) (hf : b.code.file p = some f) (hg : b.std.stream p = some g)
    {n : Nat} (hm : ReadMeets b f g n) (hopen : f.eof = false) {r : Vfs × Int × List UInt8}
    (hr : sysReadFd b.code.vfs t f.fd n = r) :
    r.2.2 = (b.std.read p n).2 ∧ r.2.1 = ((b.std.read p n).2.length : Int) ∧
      Tracks t ⟨⟨r.1, Function.update b.code.file p (some { f with eof := decide (r.2.1 ≤ 0) })⟩,
        (b.std.read p n).1⟩ := by
  have hok := h.ok hf hg
  obtain ⟨hread, hinv⟩ := h.sysReadFd_ok hok hm.short
  obtain ⟨o, hfd⟩ := sysReadFd_fd b.code.vfs t f.fd n
  rw [hr] at hread hinv hfd
  have hbytes := hread.bytes (flags_ne hok)
  have hcount := hread.count (flags_ne hok)
  have hmoved := hread.moved
  rw [Vfs.fileOf, hok.name, hok.pos, h.drop_content hok hm.written] at hbytes
  rw [hok.pos, hfd] at hmoved
  have hother : ∀ k, k ≠ f.fd → r.1.fds t k = b.code.vfs.fds t k := by
    intro k hk
    exact hread.kept.2 t k fun he => hk (Prod.mk.inj he).2
  have hsmall : g.pos + r.2.2.length < 2147483648 := by
    have hmax : maxBinData = 524288 := rfl
    have hlen := h.length_content g.name
    have hpos := hok.small
    have hreach : r.2.2.length ≤ (content b.code.vfs.fs g.name).length - g.pos := by
      rw [hbytes, ← h.drop_content hok hm.written, List.length_take, List.length_drop]
      exact Nat.min_le_right _ _
    omega
  cases hend : g.eof with
  | true =>
      -- The standard delivers nothing behind the end that it has met.
      have hempty : r.2.2 = [] := by
        have hbehind := hm.grown.resolve_left (by simp [hopen, hend])
        rw [hbytes, List.drop_eq_nil_of_le hbehind, List.take_nil]
      have hstd : b.std.read p n = (b.std, []) := by
        rw [StdFiles.read, hg]
        simp [hend]
      rw [hempty] at hmoved hcount hsmall
      rw [hstd, hcount]
      have hsame : b.std.stream = Function.update b.std.stream p (some g) :=
        (Function.update_eq_self_iff.mpr hg.symm).symm
      exact ⟨hempty, rfl, h.move hf hg rfl hsame rfl rfl hinv hother
        (hok.moved hfd rfl rfl rfl hmoved hok.small hok.fine (fun _ => hend) hok.known)
        hread.kept.1 rfl⟩
  | false =>
      have hstd : b.std.read p n = (b.std.setStream p (some { g with
          pos := g.pos + r.2.2.length, eof := decide (r.2.2.length < n) }), r.2.2) := by
        rw [StdFiles.read, hg]
        simp [hend, hm.reads, hbytes]
      rw [hstd]
      refine ⟨rfl, hcount, h.move hf hg rfl rfl rfl rfl hinv hother ?_ hread.kept.1 rfl⟩
      refine hok.moved hfd rfl rfl rfl hmoved hsmall hok.fine ?_ hok.known
      intro heof
      have hnone : r.2.1 ≤ 0 := of_decide_eq_true heof
      have hpos : n ≠ 0 := fun h0 => by simp [hm.some h0] at hend
      apply decide_eq_true
      omega

/-- The answer of a call and the states behind it. -/
def Follows (t : Tid) (b : Both) (c : StdioCall) : Prop :=
  (stdioStep t b.code c).2 = (stdStep b.std (granted t b.code c)).2 ∧ Tracks t (bothStep t b c)

/-- Nothing is read from a stream that has met the end. -/
theorem read_ended (hg : b.std.stream p = some g) (hend : g.eof = true) (n : Nat) :
    b.std.read p n = (b.std, []) := by
  rw [StdFiles.read, hg]
  simp [hend]

theorem fread_follows (h : Tracks t b) (hf : b.code.file p = some f)
    (hg : b.std.stream p = some g) {size nmemb : Nat} (hm : ReadMeets b f g (size * nmemb)) :
    Follows t b (.fread p size nmemb) := by
  have hok := h.ok hf hg
  cases heof : f.eof with
  | true =>
      have hcode : b.code.fread t p size nmemb = (b.code, 0, []) := by
        rw [Stdio.fread, hf]
        simp [heof]
      unfold Follows bothStep stdioStep stdStep granted
      dsimp only
      rw [hcode, read_ended hg (hok.ended heof)]
      exact ⟨by simp, h⟩
  | false =>
      have hmax : maxTransfer = 65536 := rfl
      have hshort := hm.short
      have htotal : int32 (size * nmemb : Nat) = (size * nmemb : Nat) :=
        int32_of_lt (by omega) (by omega)
      obtain ⟨hbytes, hcount, htracks⟩ := h.read_step hf hg hm heof rfl
      unfold Follows bothStep stdioStep stdStep granted Stdio.fread
      dsimp only
      rw [hf]
      dsimp only
      rw [if_neg (by simp [heof, hok.fine.1]), htotal]
      split
      · next hle =>
        rw [decide_eq_true hle] at htracks
        have hnil : (b.std.read p (size * nmemb)).2 = [] := by
          apply List.eq_nil_of_length_eq_zero
          omega
        refine ⟨?_, htracks⟩
        rw [hnil]
        simp
      · next hlt =>
        rw [decide_eq_false hlt, ← heof] at htracks
        have hsame : Function.update b.code.file p (some f) = b.code.file :=
          Function.update_eq_self_iff.mpr hf.symm
        rw [hsame] at htracks
        have hsize : size ≠ 0 := by
          rintro rfl
          have hnone := b.std.length_read_le p (0 * nmemb)
          omega
        refine ⟨?_, htracks⟩
        rw [hcount, hbytes, if_neg hsize]
        rfl

theorem fgetc_follows (h : Tracks t b) (hf : b.code.file p = some f)
    (hg : b.std.stream p = some g) (hm : ReadMeets b f g 1) : Follows t b (.fgetc p) := by
  have hok := h.ok hf hg
  cases heof : f.eof with
  | true =>
      have hcode : b.code.fgetc t p = (b.code, EOF) := by
        rw [Stdio.fgetc, hf]
        simp [heof]
      unfold Follows bothStep stdioStep stdStep granted
      dsimp only
      rw [hcode, read_ended hg (hok.ended heof)]
      exact ⟨rfl, h⟩
  | false =>
      obtain ⟨hbytes, hcount, htracks⟩ := h.read_step hf hg hm heof rfl
      unfold Follows bothStep stdioStep stdStep granted Stdio.fgetc
      dsimp only
      rw [hf]
      dsimp only
      rw [if_neg (by simp [heof]), if_neg (by simp [hok.fine.2])]
      rw [Nat.cast_one] at hbytes hcount htracks
      generalize (b.std.read p 1).2 = got at *
      split
      · next hle =>
        rw [decide_eq_true hle] at htracks
        have hnil : got = [] := by
          apply List.eq_nil_of_length_eq_zero
          omega
        exact ⟨by rw [hnil]; rfl, htracks⟩
      · next hlt =>
        rw [decide_eq_false hlt, ← heof, Function.update_eq_self_iff.mpr hf.symm] at htracks
        refine ⟨?_, htracks⟩
        rw [hbytes]
        cases got with
        | nil => exact absurd hcount.le hlt
        | cons c rest => rfl

/-! ### Positions -/

/-- A seek through the descriptor of a stream. -/
theorem seek_step (h : Tracks t b) (hf : b.code.file p = some f) (hg : b.std.stream p = some g)
    {offset : Int32} (hoffset : 0 ≤ offset.toInt) (whence : Int) (f' : FILE) (g' : Stream)
    (hfd : f'.fd = f.fd) (hfine : f'.err = false ∧ f'.ungot = -1) (hname : g'.name = g.name)
    (hmode : g'.mode = g.mode) (hpos : (g'.pos : Int) = offset.toInt)
    (hended : f'.eof = true → g'.eof = true) :
    (lseek b.code.vfs t f.fd offset whence).2 = offset.toInt ∧
      Tracks t ⟨⟨(lseek b.code.vfs t f.fd offset whence).1,
          Function.update b.code.file p (some f')⟩, b.std.setStream p (some g')⟩ := by
  have hok := h.ok hf hg
  have hcond : offset.toInt = if 2 * offset.toUInt32.toNat < 2 ^ 32 then
      (offset.toUInt32.toNat : Int) else offset.toUInt32.toNat - (2 ^ 32 : Nat) :=
    BitVec.toInt_eq_toNat_cond offset.toBitVec
  have hword := offset.toUInt32.toNat_lt
  have hnat : offset.toUInt32.toNat = g'.pos := by
    split at hcond <;> omega
  have hseek : (lseek b.code.vfs t f.fd offset whence).1 = b.code.vfs.setFd t f.fd
      { b.code.vfs.fds t f.fd with offset := offset.toUInt32 } := by
    rw [lseek, vfsSeek, if_pos hok.file.1]
  refine ⟨if_pos hok.file.1, ?_⟩
  have hinv : VfsInv (vfsStep b.code.vfs (.seek t f.fd offset.toUInt32)) :=
    vfsStep_inv h.inv ⟨trivial, trivial⟩
  apply h.move hf hg rfl rfl hfd hname hinv
  · intro k hk
    rw [hseek]
    exact setFd_fd_other (fun he => hk (Prod.mk.inj he).2) _
  · refine hok.moved ?_ hfd hname hmode hnat (by split at hcond <;> omega) hfine hended hok.known
    rw [hseek, setFd_fd]
  · rw [hseek]
    rfl
  · rfl

theorem fseek_follows (h : Tracks t b) (hf : b.code.file p = some f)
    (hg : b.std.stream p = some g) {offset : Int32} {whence : Int} (hoffset : 0 ≤ offset.toInt)
    (hwhence : whence = seekSet ∨ whence = seekCur ∧ g.pos = 0 ∨
      whence = seekEnd ∧ b.std.bytes g.name = []) : Follows t b (.fseek p offset whence) := by
  have hok := h.ok hf hg
  have htarget : g.target (b.std.bytes g.name).length offset.toInt whence = offset.toInt := by
    rcases hwhence with rfl | ⟨rfl, hpos⟩ | ⟨rfl, hempty⟩
    · rfl
    · simp [Stream.target, seekSet, seekCur, hpos]
    · simp [Stream.target, seekSet, seekCur, seekEnd, hempty]
  have hstd : b.std.fseek p offset.toInt whence =
      (b.std.setStream p (some { g with pos := offset.toInt.toNat, eof := false }), 0) := by
    rw [StdFiles.fseek, hg]
    dsimp only
    rw [htarget, if_neg (Int.not_lt.mpr hoffset)]
  obtain ⟨hret, htracks⟩ := h.seek_step hf hg hoffset whence { f with eof := false }
    { g with pos := offset.toInt.toNat, eof := false } rfl hok.fine rfl rfl
    (Int.toNat_of_nonneg hoffset) id
  unfold Follows bothStep stdioStep stdStep granted Stdio.fseek
  dsimp only
  rw [hf]
  dsimp only
  rw [hret, if_neg (Int.not_lt.mpr hoffset), hstd]
  exact ⟨rfl, htracks⟩

theorem ftell_follows (h : Tracks t b) (hf : b.code.file p = some f)
    (hg : b.std.stream p = some g) (hpos : g.pos = 0) : Follows t b (.ftell p) := by
  have hok := h.ok hf hg
  obtain ⟨hret, htracks⟩ := h.seek_step hf hg (le_refl (0 : Int32).toInt) seekCur f g rfl hok.fine
    rfl rfl (by rw [hpos]; rfl) hok.ended
  have hstream : b.std.setStream p (some g) = b.std := by
    rw [StdFiles.setStream, Function.update_eq_self_iff.mpr hg.symm]
  rw [Function.update_eq_self_iff.mpr hf.symm, hstream] at htracks
  unfold Follows bothStep stdioStep stdStep granted Stdio.ftell
  dsimp only
  rw [hf]
  refine ⟨?_, htracks⟩
  dsimp only
  rw [hret, StdFiles.ftell, hg, Option.map_some, Option.getD_some, hpos]
  rfl

theorem rewind_follows (h : Tracks t b) (hf : b.code.file p = some f)
    (hg : b.std.stream p = some g) : Follows t b (.rewind p) := by
  have hok := h.ok hf hg
  obtain ⟨-, htracks⟩ := h.seek_step hf hg (le_refl (0 : Int32).toInt) seekSet
    { f with eof := false, err := false } { g with pos := 0, eof := false } rfl
    ⟨rfl, hok.fine.2⟩ rfl rfl rfl id
  have hstd : (b.std.fseek p 0 seekSet).1 =
      b.std.setStream p (some { g with pos := 0, eof := false }) := by
    rw [StdFiles.fseek, hg]
    rfl
  unfold Follows bothStep stdioStep stdStep granted Stdio.rewind
  dsimp only
  rw [hf, hstd]
  exact ⟨rfl, htracks⟩

/-! ### Closing -/

theorem fclose_follows (h : Tracks t b) (hf : b.code.file p = some f)
    (hg : b.std.stream p = some g)
    (hheld : Unwritten b.code.vfs.fs b.std.content g.name →
      ∃ q g', q ≠ p ∧ b.std.stream q = some g' ∧ g'.name = g.name) :
    Follows t b (.fclose p) := by
  have hok := h.ok hf hg
  have hopen : 3 ≤ f.fd.val ∧ (b.code.vfs.fds t f.fd).used = true := ⟨hok.high, hok.file.1⟩
  have hinv : VfsInv (vfsStep b.code.vfs (.close t f.fd)) := vfsStep_inv h.inv ⟨trivial, trivial⟩
  have hclosed : vfsStep b.code.vfs (.close t f.fd) = b.code.vfs.setFd t f.fd
      { b.code.vfs.fds t f.fd with used := false } := if_pos hopen
  unfold Follows bothStep stdioStep stdStep granted Stdio.fclose sysCloseFd
  dsimp only
  rw [hf]
  dsimp only
  rw [if_neg (Nat.not_lt.mpr hok.high), if_pos hopen]
  refine ⟨rfl, h.update rfl rfl hinv ?_ .none ?_ (fun _ hne => hne) ?_⟩
  · intro q f₂ hq hf₂
    change (vfsStep b.code.vfs (.close t f.fd)).fds t f₂.fd = _
    rw [hclosed]
    exact setFd_fd_other (fun he => h.fd_ne hf hq hf₂ (Prod.mk.inj he).2) _
  · exact fun f₂ hf₂ => by cases hf₂
  · change FilesMatch (vfsStep b.code.vfs (.close t f.fd)).fs b.std.content _
    rw [hclosed]
    refine ⟨h.files.exist, h.files.same, ?_⟩
    intro name hnew
    obtain ⟨q, g₂, hq, rfl⟩ := h.files.held name hnew
    by_cases hqp : q = p
    · subst hqp
      obtain rfl : g = g₂ := Option.some.inj (hg.symm.trans hq)
      obtain ⟨q', g', hne, hg', hname⟩ := hheld hnew
      exact ⟨q', g', (Function.update_of_ne hne _ _).trans hg', hname⟩
    · exact ⟨q, g₂, (Function.update_of_ne hqp _ _).trans hq, rfl⟩

end Tracks

/-! ### Writing -/

/-- One file changes. -/
theorem FilesMatch.change {s' : Mfs3} {files : CString → Option (List UInt8)}
    {opened opened' : CString → Prop} (h : FilesMatch s files opened) {bytes : List UInt8}
    (hother : ∀ name, name ≠ path → fsReadBin s' name = fsReadBin s name)
    (hexist : fsReadBin s' path ≠ none)
    (hsame : content s' path = bytes ∨ bytes = [] ∧ content s' path = [0])
    (hopen : ∀ name, opened name → opened' name) (hpath : opened' path) :
    FilesMatch s' (Function.update files path (some bytes)) opened' where
  exist := by
    intro name
    by_cases hname : name = path
    · subst hname
      simp [hexist]
    · rw [Function.update_of_ne hname, hother name hname]
      exact h.exist name
  same := by
    intro name bytes' hb
    by_cases hname : name = path
    · subst hname
      rw [Function.update_self] at hb
      cases hb
      rcases hsame with hc | ⟨rfl, hc⟩
      · exact Or.inl hc
      · exact Or.inr ⟨Function.update_self .., hc⟩
    · rw [Function.update_of_ne hname] at hb
      rw [Unwritten, Function.update_of_ne hname, content_congr (hother name hname)]
      exact h.same name bytes' hb
  held := by
    intro name hu
    by_cases hname : name = path
    · exact hname ▸ hpath
    · rw [Unwritten, Function.update_of_ne hname, content_congr (hother name hname)] at hu
      exact hopen name (h.held name hu)

/-- A file with bytes is in the table. -/
theorem found_of_content (h : content s name ≠ []) : fsReadBin s name ≠ none := by
  intro hnone
  rw [content, hnone] at h
  exact h rfl

/-- The byte of a file that was not written goes under the first write. -/
theorem overwrite_unwritten (k : Nat) (h : data ≠ []) :
    overwrite [0] k data = overwrite [] k data := by
  obtain ⟨c, rest, rfl⟩ := List.exists_cons_of_ne_nil h
  cases k with
  | zero => simp [overwrite]
  | succ k =>
      simp [overwrite, List.replicate_succ]
      omega

theorem overwrite_nil {old : List UInt8} {k : Nat} (h : k ≤ old.length) :
    overwrite old k [] = old := by
  simp [overwrite, Nat.sub_eq_zero_of_le h]

/-- What a write through a descriptor returns when there is a block for the copy. -/
theorem vfsWriteFile_count {s : Vfs} {buf : List UInt8} (hmode : (s.fds t j).flags &&& oRdwr ≠ 0)
    (hm : m ≠ none) :
    (vfsWriteFile s t j buf m raw m' tick).2 = writeLen (s.fds t j) buf.length := by
  obtain ⟨extra, rfl⟩ := Option.ne_none_iff_exists'.mp hm
  have hmask : oWronly ||| oRdwr = oRdwr := by decide
  unfold vfsWriteFile
  dsimp only
  have hgrant : Malloc.grant (some extra) maxBinData = some (maxBinData + extra) :=
    if_neg (by decide)
  rw [hmask, if_neg hmode, hgrant]

/-- A write through a descriptor goes to one file. -/
theorem vfsWriteFile_other {s : Vfs} (h : FdsInv s) {buf : List UInt8}
    (hfile : (s.fds t j).IsFile) (hne : name ≠ (s.fds t j).name) :
    fsReadBin (vfsWriteFile s t j buf m raw m' tick).1.fs name = fsReadBin s.fs name := by
  rcases vfsWriteFile_step s t j buf m raw m' tick with hr | ⟨-, out, o, bytes, hr⟩
  · rw [hr]
  · rw [hr]
    exact fsWriteBin_other h.files.names (h.names t j hfile) hne

theorem vfsWriteFile_fd (s : Vfs) (t : Tid) (j : Fd) (buf : List UInt8) (m : Malloc)
    (raw : Nat → UInt8) (m' : Malloc) (tick : UInt32) :
    ∃ o, (vfsWriteFile s t j buf m raw m' tick).1.fds t j = { s.fds t j with offset := o } := by
  rcases vfsWriteFile_step s t j buf m raw m' tick with hr | ⟨-, out, o, bytes, hr⟩
  · exact ⟨_, by rw [hr]⟩
  · exact ⟨o, by rw [hr, setFd_fd]⟩

namespace Tracks

variable {t : Tid} {b b' : Both} {p : Handle} {f : FILE} {g : Stream}

/-- A write of the standard. -/
theorem write_eq (hg : b.std.stream p = some g) (hmode : g.mode ≠ .r) (hdata : data ≠ [])
    (happend : g.mode = .a → g.pos = (b.std.bytes g.name).length) :
    b.std.write p data =
      ⟨Function.update b.std.content g.name (some (overwrite (b.std.bytes g.name) g.pos data)),
        Function.update b.std.stream p (some { g with pos := g.pos + data.length })⟩ := by
  have hstart : (if g.mode = .a then (b.std.bytes g.name).length else g.pos) = g.pos := by
    split
    · next ha => exact (happend ha).symm
    · rfl
  rw [StdFiles.write, hg]
  dsimp only
  rw [if_neg (not_or.mpr ⟨hmode, hdata⟩), hstart]
  rfl

/-- A write of the standard that stores what the kernel stores. -/
theorem write_step (h : Tracks t b) (tick : UInt32) (hf : b.code.file p = some f)
    (hg : b.std.stream p = some g) (hm : WriteMeets t b f g data m raw m') {r : Vfs × Int}
    (hr : vfsWriteFile b.code.vfs t f.fd data m raw m' tick = r) :
    r.2 = data.length ∧ Tracks t ⟨⟨r.1, b.code.file⟩, b.std.write p data⟩ := by
  have hok := h.ok hf hg
  have hwrite : WriteOk b.code.vfs t f.fd data r := hr ▸ vfsWriteFile_ok tick h.inv.files
    (h.inv.empty.held _) (h.inv.names t f.fd hok.file) fun _ _ => hm.fits
  have hmaxBin : maxBinData = 524288 := rfl
  have hroom := hm.room
  have hcount : r.2 = data.length := by
    have hlen : writeLen (b.code.vfs.fds t f.fd) data.length = _ :=
      (writeLen_eq (by rw [hok.pos]; omega) (by rw [hok.pos]; omega)).1
    rw [← hr, vfsWriteFile_count (flags_ne hok) hm.block, hlen, hok.pos,
      Nat.min_eq_left (by omega)]
  have hbytes := hwrite.bytes data.length hcount
  have hmoved := hwrite.moved data.length hcount
  obtain ⟨o, hfd⟩ : ∃ o, r.1.fds t f.fd = { b.code.vfs.fds t f.fd with offset := o } :=
    hr ▸ vfsWriteFile_fd b.code.vfs t f.fd data m raw m' tick
  have hinv : VfsInv r.1 := by
    have hshort : data.length < 2147483648 := by omega
    have hstep : VfsInv (vfsStep b.code.vfs (.write t f.fd data m raw m' tick)) :=
      vfsStep_inv h.inv ⟨hshort, fun _ _ _ => hm.fits⟩
    rw [vfsStep, if_pos hok.file, hr] at hstep
    exact hstep
  have hother : ∀ k, k ≠ f.fd → r.1.fds t k = b.code.vfs.fds t k :=
    fun k hk => hwrite.kept t k fun he => hk (Prod.mk.inj he).2
  have hfiles : ∀ name, name ≠ g.name → fsReadBin r.1.fs name = fsReadBin b.code.vfs.fs name := by
    intro name hne
    rw [← hr]
    exact vfsWriteFile_other h.inv.toFdsInv hok.file (hok.name ▸ hne)
  rw [Vfs.fileOf, Vfs.fileOf, hfd, hok.name, hok.pos, List.take_length] at hbytes
  rw [hfd, hok.pos] at hmoved
  refine ⟨hcount, ?_⟩
  have hfile : b.code.file = Function.update b.code.file p (some f) :=
    (Function.update_eq_self_iff.mpr hf.symm).symm
  have hknown := hok.known
  by_cases hdata : data = []
  · -- Nothing is stored, and the file is written back as it was.
    obtain ⟨hsome, hreach⟩ := hm.some hdata
    have hold : content b.code.vfs.fs g.name = b.std.bytes g.name :=
      (h.files.same _ _ (bytes_some hok)).resolve_right fun hu =>
        hsome (by rw [StdFiles.bytes, hu.1]; rfl)
    have hstd : b.std.write p data = b.std := by
      rw [StdFiles.write, hg]
      exact if_pos (Or.inr hdata)
    have hcontent : b.std.content = Function.update b.std.content g.name
        (some (b.std.bytes g.name)) := (Function.update_eq_self_iff.mpr (bytes_some hok).symm).symm
    have hstream : b.std.stream = Function.update b.std.stream p (some g) :=
      (Function.update_eq_self_iff.mpr hg.symm).symm
    rw [hdata, hold, overwrite_nil hreach] at hbytes
    rw [hdata, List.length_nil, Nat.add_zero] at hmoved
    rw [hstd]
    refine h.update hfile hstream hinv (fun q f₂ hq hf₂ => hother _ (h.fd_ne hf hq hf₂))
      ?_ ?_ ?_ ?_
    · exact .some (hok.moved hfd rfl rfl rfl hmoved hok.small hok.fine hok.ended hknown)
    · intro f₁ hf₁ q f₂ hq hf₂
      exact Option.some.inj hf₁ ▸ h.fd_ne hf hq hf₂
    · exact fun _ hne => hne
    · change FilesMatch r.1.fs b.std.content b.std.Open
      rw [hcontent]
      exact h.files.change hfiles (found_of_content (hbytes ▸ hsome)) (Or.inl hbytes)
        (fun _ ho => ho) ⟨p, g, hg, rfl⟩
  · have hnew : content r.1.fs g.name = overwrite (b.std.bytes g.name) g.pos data := by
      rcases h.files.same _ _ (bytes_some hok) with hsame | hu
      · rw [hbytes, hsame]
      · rw [hbytes, hu.2, StdFiles.bytes, hu.1, Option.getD_some, overwrite_unwritten _ hdata]
    have hlen : 0 < data.length := List.length_pos_of_ne_nil hdata
    have hfound : fsReadBin r.1.fs g.name ≠ none := by
      apply found_of_content
      apply List.ne_nil_of_length_pos
      rw [hnew, length_overwrite]
      omega
    rw [write_eq hg hm.writes hdata hm.appends]
    refine h.update hfile rfl hinv (fun q f₂ hq hf₂ => hother _ (h.fd_ne hf hq hf₂)) ?_ ?_ ?_ ?_
    · refine .some (hok.moved hfd rfl rfl rfl hmoved ?_ hok.fine hok.ended ?_)
      · dsimp only
        omega
      · simp
    · intro f₁ hf₁ q f₂ hq hf₂
      exact Option.some.inj hf₁ ▸ h.fd_ne hf hq hf₂
    · intro name hne
      dsimp only
      by_cases hname : name = g.name
      · simp [hname]
      · rwa [Function.update_of_ne hname]
    · exact h.files.change hfiles hfound (Or.inl hnew)
        (fun _ => open_moved hg { g with pos := g.pos + data.length } rfl rfl)
        ⟨p, _, Function.update_self .., rfl⟩

theorem fwrite_follows (h : Tracks t b) (hf : b.code.file p = some f)
    (hg : b.std.stream p = some g) {ptr : List UInt8} {size nmemb : Nat}
    (hlen : ptr.length = size * nmemb) (hm : WriteMeets t b f g ptr m raw m') :
    Follows t b (.fwrite p ptr size nmemb m raw m' tick) := by
  have hok := h.ok hf hg
  have hmax : maxTransfer = 65536 := rfl
  have hshort := hm.short
  have htotal : int32 (size * nmemb : Nat) = ptr.length := by
    rw [← hlen]
    exact int32_of_lt (by omega) (by omega)
  obtain ⟨hcount, htracks⟩ := h.write_step tick hf hg hm rfl
  have hcall : sysWriteFd b.code.vfs t f.fd ptr ptr.length m raw m' tick =
      vfsWriteFile b.code.vfs t f.fd ptr m raw m' tick := by
    rw [sysWriteFd, if_neg (by omega), if_pos hok.file, Int.toNat_natCast, List.take_length]
  unfold Follows bothStep stdioStep stdStep granted Stdio.fwrite
  dsimp only
  rw [hf]
  dsimp only
  rw [if_neg (by simp [hok.fine.1]), htotal, hcall, hcount, if_neg (by omega)]
  refine ⟨?_, htracks⟩
  rw [hlen]
  by_cases hsize : size = 0
  · simp [hsize]
  · have hdiv : ((size * nmemb : Nat) : Int).tdiv size = (size * nmemb / size : Nat) := rfl
    rw [if_neg hsize, if_neg hsize, hdiv, Nat.mul_div_cancel_left _ (Nat.pos_of_ne_zero hsize)]

end Tracks

/-! ### Opening -/

theorem fsWrite_ok {text : CString} (tick : UInt32) (hshort : text.length < maxData)
    (hm : m ≠ none) (hslot : FileNamed s name ∨ ∃ i, (s.files i).used = 0) :
    (fsWrite s name text tick m).2 = 1 := by
  have hbuf : ∀ f : FSFile, ∃ b, ensureData f m = some b := by
    intro f
    obtain ⟨extra, rfl⟩ := Option.ne_none_iff_exists'.mp hm
    unfold ensureData
    split
    · exact ⟨_, rfl⟩
    · exact ⟨_, rfl⟩
  unfold fsWrite
  rw [if_neg (Nat.not_le.mpr hshort)]
  split
  · next i _ =>
    obtain ⟨b, hb⟩ := hbuf (s.files i)
    dsimp only
    rw [hb]
  · next hnone =>
    split
    · next i _ =>
      obtain ⟨b, hb⟩ := hbuf ((s.files i).setName name)
      dsimp only
      rw [hb]
    · next hfull =>
      rcases hslot with ⟨i, hi⟩ | ⟨i, hi⟩
      · rw [firstSlot_none hnone i] at hi
        cases hi
      · have hused := firstSlot_none hfull i
        simp [FSFile.isFree, hi] at hused

/-- The file that an open creates holds one byte, the terminator of the empty text. -/
theorem createFor_new (h : NamesEnd s) (hlen : path.length ≤ maxName - 1)
    (hnone : fsRead s path = none) (tick : UInt32) (hm : m ≠ none)
    (hslot : FileNamed s path ∨ ∃ i, (s.files i).used = 0) :
    content (createFor s path tick m) path = [0] ∧
      ∀ name, name ≠ path → fsReadBin (createFor s path tick m) name = fsReadBin s name := by
  have hok := fsWrite_ok tick (by decide : emptyText.length < maxData) hm hslot
  have hplaced := fsWrite_placed s path emptyText tick m
  rw [createFor, hnone]
  dsimp only
  generalize fsWrite s path emptyText tick m = r at hok hplaced
  cases hplaced with
  | same r hr => exact absurd hok hr
  | held i g r hr => exact absurd hok hr
  | saved i g o hg =>
      obtain ⟨hp, b, hb⟩ := hg
      refine ⟨?_, fun name hne => hp.other h hlen hne⟩
      have hread := hp.read (o := o) h hlen
      rw [hb.data, hb.size] at hread
      rw [content_some hread]
      rfl

theorem Mode.flags_create (mode : Mode) :
    openFlags mode.text &&& oCreate ≠ 0 ↔ mode.creates = true := by
  cases mode <;> decide

theorem fdOf_fd (j : Fd) : fdOf (j.val : Int) = some j := by
  revert j
  decide

theorem fdOf_refused : fdOf (-1) = none := by decide

theorem freeFd_some {s : Vfs} (h : s.freeFd t = some j) : 3 ≤ j.val ∧ (s.fds t j).used = false := by
  have hfound := List.find?_some h
  simpa using hfound

/-- An open of a plain path with a free descriptor. -/
theorem vfsOpen_plain {s : Vfs} (flags tick : UInt32) (m : Malloc)
    (hlen : path.length ≤ maxName - 1) (hplain : procEntry path = false ∧ devEntry path = false)
    (hfree : s.freeFd t = some j) :
    flags &&& oCreate = 0 ∧ fsRead s.fs path = none ∧
        vfsOpen s t path flags tick m = (s, -1) ∨
      ∃ fs, vfsOpen s t path flags tick m =
          ({ s with fs := fs }.setFd t j ⟨true, .file, flags.toUInt8, 0, path⟩, (j.val : Int)) ∧
        (fs = s.fs ∧ fsRead s.fs path ≠ none ∨
          flags &&& oCreate ≠ 0 ∧ fsRead s.fs path = none ∧ fs = createFor s.fs path tick m) := by
  have hcut : path.cut (maxName - 1) = path := storedName_of_le hlen
  unfold vfsOpen
  rw [hplain.1, hplain.2, hfree, hcut]
  dsimp only
  rw [if_neg Bool.false_ne_true, if_neg Bool.false_ne_true]
  by_cases hcreate : flags &&& oCreate = 0
  · rw [if_neg (not_not_intro hcreate)]
    cases hread : fsRead s.fs path with
    | none => exact Or.inl ⟨hcreate, rfl, rfl⟩
    | some b => exact Or.inr ⟨s.fs, rfl, Or.inl ⟨rfl, Option.some_ne_none b⟩⟩
  · rw [if_pos hcreate]
    refine Or.inr ⟨_, rfl, ?_⟩
    cases hread : fsRead s.fs path with
    | none => exact Or.inr ⟨hcreate, rfl, rfl⟩
    | some b =>
        refine Or.inl ⟨?_, Option.some_ne_none b⟩
        rw [createFor, hread]

theorem content_unread (h : fsRead s name = none) : content s name = [] := by
  rw [content]
  split
  · next b size hread =>
    rw [fsRead, hread] at h
    cases h
  · rfl

namespace Tracks

variable {t : Tid} {b b' : Both} {p : Handle} {f : FILE} {g : Stream}

/-- A free descriptor is none of a stream. -/
theorem fd_ne_free (h : Tracks t b) (hf : b.code.file p = some f)
    (hj : (b.code.vfs.fds t j).used = false) : f.fd ≠ j := by
  rintro rfl
  obtain ⟨g, -, hok⟩ := h.stream hf
  exact Bool.false_ne_true (hj.symm.trans hok.file.1)

/-- A free descriptor changes, and no file does. -/
theorem other_fd (h : Tracks t b) (hj : (b.code.vfs.fds t j).used = false) {v : Vfs}
    (hinv : VfsInv v) (hfs : v.fs = b.code.vfs.fs)
    (hother : ∀ k, k ≠ j → v.fds t k = b.code.vfs.fds t k) :
    Tracks t ⟨⟨v, b.code.file⟩, b.std⟩ where
  inv := hinv
  streams := by
    intro q
    have hrel := h.streams q
    have hkept := fun f (hf : b.code.file q = some f) => hother f.fd (h.fd_ne_free hf hj)
    dsimp only
    generalize b.code.file q = of at hrel hkept
    generalize b.std.stream q = og at hrel
    cases hrel with
    | some hok => exact .some (hok.congr (hkept _ rfl) id)
    | none => exact .none
  apart := h.apart
  files := by
    dsimp only
    rw [hfs]
    exact h.files

/-- A stream on a free descriptor. -/
theorem opened (h : Tracks t b) (hhigh : 3 ≤ j.val) (hj : (b.code.vfs.fds t j).used = false)
    (hp : b.code.file p = none) {mode : Mode} {bytes : List UInt8} {v : Vfs} (hinv : VfsInv v)
    (hfd : v.fds t j = ⟨true, .file, (openFlags mode.text).toUInt8, 0, path⟩)
    (hother : ∀ k, k ≠ j → v.fds t k = b.code.vfs.fds t k)
    (hfiles : FilesMatch v.fs (Function.update b.std.content path (some bytes)) fun name =>
      b.std.Open name ∨ name = path) :
    Tracks t ⟨⟨v, Function.update b.code.file p (some ⟨j, false, false, -1⟩)⟩,
      ⟨Function.update b.std.content path (some bytes),
        Function.update b.std.stream p (some ⟨path, mode, 0, false⟩)⟩⟩ := by
  refine h.update rfl rfl hinv (fun q f hq hf => hother _ (h.fd_ne_free hf hj)) ?_ ?_ ?_ ?_
  · apply Option.Rel.some
    constructor
    case file => exact ⟨by rw [hfd], by rw [hfd]⟩
    case high => exact hhigh
    case name => rw [hfd]
    case mode => rw [hfd]
    case pos =>
      rw [hfd]
      rfl
    case small => exact Nat.zero_lt_succ _
    case fine => exact ⟨rfl, rfl⟩
    case ended => exact fun he => he
    case known => simp
  · intro f₁ hf₁ q f₂ _ hf₂
    rw [← Option.some.inj hf₁]
    exact h.fd_ne_free hf₂ hj
  · intro name hne
    dsimp only
    by_cases hname : name = path
    · simp [hname]
    · rwa [Function.update_of_ne hname]
  · refine ⟨hfiles.exist, hfiles.same, fun name hu => ?_⟩
    rcases hfiles.held name hu with ⟨q, g, hg, rfl⟩ | rfl
    · have hqp : q ≠ p := by
        rintro rfl
        have hrel := h.streams q
        rw [hp, hg] at hrel
        cases hrel
      exact ⟨q, g, (Function.update_of_ne hqp _ _).trans hg, rfl⟩
    · exact ⟨p, _, Function.update_self .., rfl⟩

/-- What an open makes of the files. -/
theorem open_files (h : Tracks t b) {mode : Mode} {ptr : Option Handle}
    (hm : OpenMeets t b path mode m ptr) {fs : Mfs3}
    (hfs : fs = b.code.vfs.fs ∧ fsRead b.code.vfs.fs path ≠ none ∨
      mode.creates = true ∧ fsRead b.code.vfs.fs path = none ∧
      fs = createFor b.code.vfs.fs path tick m) :
    ∃ bytes, mode.opens (b.std.content path) = some bytes ∧
      FilesMatch fs (Function.update b.std.content path (some bytes))
        fun name => b.std.Open name ∨ name = path := by
  rcases hfs with ⟨rfl, hread⟩ | ⟨hcreates, hread, rfl⟩
  · have hfound : fsReadBin b.code.vfs.fs path ≠ none := by
      intro hnone
      exact hread (by rw [fsRead, hnone]; rfl)
    obtain ⟨bytes, hb⟩ := Option.ne_none_iff_exists'.mp ((h.files.exist path).not.mpr hfound)
    refine ⟨bytes, ?_, h.files.change (fun _ _ => rfl) hfound ?_ (fun _ => Or.inl) (Or.inr rfl)⟩
    · rw [hb]
      cases hmode : mode with
      | w => rw [Mode.opens, hm.empty hmode bytes hb]
      | _ => rfl
    · refine (h.files.same path bytes hb).imp_right fun hu => ⟨?_, hu.2⟩
      exact Option.some.inj (hb.symm.trans hu.1)
  · obtain ⟨hblock, -, hslot⟩ := hm.room hcreates hread
    obtain ⟨hnew, hother⟩ :=
      createFor_new h.inv.files.names hm.name hread tick hblock hslot
    have hnil : (b.std.content path).getD [] = [] := by
      cases hb : b.std.content path with
      | none => rfl
      | some old =>
          rcases h.files.same path old hb with hsame | hu
          · exact hsame.symm.trans (content_unread hread)
          · rw [← hb, hu.1]
            rfl
    refine ⟨[], ?_, h.files.change hother (found_of_content (by rw [hnew]; simp))
      (Or.inr ⟨rfl, hnew⟩) (fun _ => Or.inl) (Or.inr rfl)⟩
    cases mode with
    | r => cases hcreates
    | rPlus => cases hcreates
    | w => rfl
    | a => rw [Mode.opens, hnil]

theorem fopen_follows (h : Tracks t b) {mode : Mode} {ptr : Option Handle}
    (hfresh : ∀ q, ptr = some q → b.code.file q = none) (hm : OpenMeets t b path mode m ptr) :
    Follows t b (.fopen path mode tick m ptr) := by
  have hinv : VfsInv (vfsStep b.code.vfs (.open t path (openFlags mode.text) tick m)) :=
    vfsStep_inv h.inv ⟨trivial, trivial⟩
  rw [vfsStep] at hinv
  unfold Follows bothStep stdioStep stdStep granted Stdio.fopen
  dsimp only
  cases hfree : b.code.vfs.freeFd t with
  | none =>
      have hrefused : vfsOpen b.code.vfs t path (openFlags mode.text) tick m =
          (b.code.vfs, -1) := by
        unfold vfsOpen
        rw [hm.plain.1, hm.plain.2, hfree]
        rfl
      rw [hrefused]
      dsimp only
      rw [fdOf_refused, if_pos rfl]
      exact ⟨rfl, h⟩
  | some j =>
      obtain ⟨hhigh, hunused⟩ := freeFd_some hfree
      rw [if_neg (Option.some_ne_none j)]
      rcases vfsOpen_plain (openFlags mode.text) tick m hm.name hm.plain hfree with
        ⟨hflags, hread, hr⟩ | ⟨fs, hr, hfs⟩
      · have hcreates : mode.creates = false := by
          rw [← Bool.not_eq_true, ← mode.flags_create]
          exact not_not_intro hflags
        have hstd : b.std.fopen path mode ptr = (b.std, none) := by
          have hnone : mode.opens (b.std.content path) = none := by
            rw [hm.held hcreates hread]
            cases mode with
            | r => rfl
            | rPlus => rfl
            | w => cases hcreates
            | a => cases hcreates
          unfold StdFiles.fopen
          rw [hnone]
          cases ptr <;> rfl
        rw [hr]
        dsimp only
        rw [fdOf_refused, hstd]
        exact ⟨rfl, h⟩
      · rw [mode.flags_create] at hfs
        obtain ⟨bytes, hopens, hfiles⟩ := h.open_files hm hfs
        rw [hr] at hinv ⊢
        dsimp only at hinv ⊢
        rw [fdOf_fd]
        dsimp only
        cases ptr with
        | none =>
            have hsame : fs = b.code.vfs.fs := by
              rcases hfs with ⟨hsame, -⟩ | ⟨hcreates, hread, -⟩
              · exact hsame
              · exact absurd rfl (hm.room hcreates hread).2.1
            subst hsame
            generalize hv : { b.code.vfs with fs := b.code.vfs.fs }.setFd t j _ = v at hinv ⊢
            have hclosed : VfsInv (vfsStep v (.close t j)) := vfsStep_inv hinv ⟨trivial, trivial⟩
            have hopen : 3 ≤ j.val ∧ (v.fds t j).used = true := by
              rw [← hv, setFd_fd]
              exact ⟨hhigh, rfl⟩
            have hclose : (sysCloseFd v t j).1 = v.setFd t j { v.fds t j with used := false } :=
              if_pos hopen
            refine ⟨rfl, h.other_fd hunused hclosed ?_ ?_⟩
            · rw [hclose, ← hv]
              rfl
            · intro k hk
              have hne : (t, k) ≠ (t, j) := fun he => hk (Prod.mk.inj he).2
              rw [hclose, setFd_fd_other hne, ← hv, setFd_fd_other hne]
        | some q =>
            unfold StdFiles.fopen
            rw [hopens]
            refine ⟨rfl, h.opened hhigh hunused (hfresh q rfl) hinv (setFd_fd _ _ _ _) ?_ hfiles⟩
            exact fun k hk => setFd_fd_other (fun he => hk (Prod.mk.inj he).2) _

/-! ### Runs -/

theorem follows (h : Tracks t b) {c : StdioCall} (hc : stdioGuard t b c) : Follows t b c := by
  have hlive : ∀ {p}, b.code.file p ≠ none →
      ∃ f g, b.code.file p = some f ∧ b.std.stream p = some g := by
    intro p hne
    obtain ⟨f, hf⟩ := Option.ne_none_iff_exists'.mp hne
    obtain ⟨g, hg, -⟩ := h.stream hf
    exact ⟨f, g, hf, hg⟩
  obtain ⟨hcall, hfits⟩ := hc
  cases c with
  | fopen path mode tick m p => exact h.fopen_follows hcall hfits
  | fclose p =>
      obtain ⟨f, g, hf, hg⟩ := hlive hcall
      exact h.fclose_follows hf hg (hfits g hg)
  | fread p size nmemb =>
      obtain ⟨f, g, hf, hg⟩ := hlive hcall
      exact h.fread_follows hf hg (hfits f g hf hg)
  | fwrite p ptr size nmemb m raw m' tick =>
      obtain ⟨f, g, hf, hg⟩ := hlive hcall.1
      exact h.fwrite_follows hf hg hcall.2 (hfits f g hf hg)
  | fgetc p =>
      obtain ⟨f, g, hf, hg⟩ := hlive hcall
      exact h.fgetc_follows hf hg (hfits f g hf hg)
  | fseek p offset whence =>
      obtain ⟨f, g, hf, hg⟩ := hlive hcall
      obtain ⟨hoffset, hwhence⟩ := hfits g hg
      exact h.fseek_follows hf hg hoffset hwhence
  | ftell p =>
      obtain ⟨f, g, hf, hg⟩ := hlive hcall
      exact h.ftell_follows hf hg (hfits g hg)
  | rewind p =>
      obtain ⟨f, g, hf, hg⟩ := hlive hcall
      exact h.rewind_follows hf hg

theorem followsStd (h : Tracks t b) : FollowsStd (stdioGuard t) t b where
  answers := fun _ hc => (h.follows hc).1
  positions := fun _ _ _ hf hg => (h.ok hf hg).pos
  contents := by
    intro name bytes hb hwritten
    rcases h.files.same name bytes hb with hsame | hu
    · exact hsame
    · have hnil : bytes = [] := Option.some.inj (hb.symm.trans hu.1)
      rcases hwritten with hne | hclosed
      · exact absurd hnil hne
      · exact absurd (h.files.held name hu) hclosed

end Tracks

theorem StdioStart.tracks {b : Both} (h : StdioStart b) : Tracks t b where
  inv := h.inv
  streams := by
    intro p
    rw [h.closed p, h.std]
    exact .none
  apart := by
    intro p q f f' hf
    rw [h.closed p] at hf
    cases hf
  files := by
    rw [h.std]
    refine ⟨fun name => Option.map_eq_none_iff, ?_, ?_⟩
    · intro name bytes hb
      obtain ⟨_, -, rfl⟩ := Option.map_eq_some_iff.mp hb
      exact Or.inl rfl
    · rintro name ⟨hb, hzero⟩
      obtain ⟨_, -, hnil⟩ := Option.map_eq_some_iff.mp hb
      rw [hzero] at hnil
      cases hnil

theorem stdio_follows {t : Tid} {b : Both} (r : Reach StdioStart (stdioGuard t) (bothStep t) b) :
    FollowsStd (stdioGuard t) t b := by
  have htracks : Tracks t b :=
    r.invariant (fun _ => StdioStart.tracks) fun _ _ h hc => (h.follows hc).2
  exact htracks.followsStd

/-- No file, and no stream. -/
def noStreams : Both := ⟨⟨noFiles, fun _ => none⟩, stdFiles noFiles.fs⟩

theorem noStreams_start : StdioStart noStreams := ⟨noFiles_start.inv, fun _ => rfl, rfl⟩

/-- Create a file. -/
def fopenA : StdioCall := .fopen nameA .w 0 (some 0) (some 0)

/-- Store two bytes in it. -/
def fwriteTwo : StdioCall := .fwrite 0 [5, 6] 1 2 (some 0) (fun _ => 0) (some 0) 0

theorem stdio_follows_two_bytes :
    FollowsStd (stdioGuard 0) 0 ([fopenA, fwriteTwo].foldl (bothStep 0) noStreams) := by
  apply stdio_follows
  apply Reach.guarded (Reach.start noStreams_start)
  have hnone : noStreams.std.content nameA = none := by
    have hread : (fsReadBin noFiles.fs nameA).isNone = true := by decide +kernel
    change (fsReadBin noFiles.fs nameA).map (fun _ => content noFiles.fs nameA) = none
    rw [Option.isNone_iff_eq_none.mp hread]
    rfl
  have hfile : (bothStep 0 noStreams fopenA).code.file 0 = some ⟨3, false, false, -1⟩ := by
    decide +kernel
  have hstream : (bothStep 0 noStreams fopenA).std.stream 0 = some ⟨nameA, .w, 0, false⟩ := by
    decide +kernel
  have hoff : ((bothStep 0 noStreams fopenA).code.vfs.fds 0 3).offset.toNat = 0 := by
    decide +kernel
  refine ⟨⟨fun _ _ => rfl, ?_⟩, ⟨⟨Option.ne_none_iff_exists'.mpr ⟨_, hfile⟩, rfl⟩, ?_⟩, trivial⟩
  · constructor
    case name => decide
    case plain => exact ⟨by decide, by decide⟩
    case held => exact fun hc => absurd hc (by decide)
    case empty =>
      intro _ bytes hb
      rw [hnone] at hb
      cases hb
    case room => exact fun _ _ => ⟨nofun, nofun, Or.inr ⟨0, by decide +kernel⟩⟩
  · intro f g hf hg
    obtain rfl := Option.some.inj (hfile.symm.trans hf)
    obtain rfl := Option.some.inj (hstream.symm.trans hg)
    constructor
    case writes => decide
    case short => decide
    case block => exact nofun
    case fits =>
      refine ⟨fun _ _ _ => rfl, ?_⟩
      rw [hoff]
      exact ⟨by decide, by decide, fun _ => ⟨nofun, Or.inr ⟨1, by decide +kernel⟩⟩⟩
    case room => decide
    case appends => exact fun hmode => absurd hmode (by decide)
    case some => exact fun hdata => absurd hdata (by decide)

/-- The position of a stream that has written two bytes. -/
theorem ftell_moves :
    ¬ ∀ t b, Reach StdioStart stdioCall (bothStep t) b → FollowsStd stdioCall t b := by
  intro h
  have hcalls : Guarded stdioCall (bothStep 0) noStreams [fopenA, fwriteTwo] :=
    ⟨fun q hq => rfl, ⟨by decide +kernel, rfl⟩, trivial⟩
  have hr := (Reach.start noStreams_start).guarded hcalls
  have hlive : ([fopenA, fwriteTwo].foldl (bothStep 0) noStreams).code.file 0 ≠ none := by
    decide +kernel
  have htell := (h 0 _ hr).answers (.ftell 0) hlive
  revert htell
  decide +kernel

end OriaOS.Fs.Streams
