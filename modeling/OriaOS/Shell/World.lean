import OriaOS.Fs.Vfs
import OriaOS.Shell.Glob

/-!
# The state of the shell

What `shell_execute` and its passes read and write. `input_buffer` has 256 bytes, of which the
last is always zero: a store that would end behind it is a fault.
-/

namespace OriaOS.Shell

open OriaOS.Fs OriaOS.Lib OriaOS.Lib.Faulting OriaOS.Shell.Vars OriaOS.Shell.Passes

/-- `input_buffer`. -/
structure InputBuffer where
  bytes : List UInt8
  size : bytes.length = 256
  ends : bytes[255]? = some 0

namespace InputBuffer

/-- The bytes of one buffer in front of those of another. -/
def merged (top b : InputBuffer) (n : Nat) : List UInt8 := top.bytes.take n ++ b.bytes.drop n

theorem merged_size (top b : InputBuffer) (n : Nat) : (merged top b n).length = 256 := by
  have htop := top.size
  have hb := b.size
  rw [merged, List.length_append, List.length_take, List.length_drop]
  omega

theorem merged_ends (top b : InputBuffer) (n : Nat) : (merged top b n)[255]? = some 0 := by
  have htop := top.size
  obtain hin | hout := Nat.lt_or_ge 255 n
  · rw [merged, List.getElem?_append_left (by rw [List.length_take]; omega),
      List.getElem?_take_of_lt hin, top.ends]
  · have hlen : (top.bytes.take n).length = n := List.length_take_of_le (by omega)
    rw [merged, List.getElem?_append_right (by omega), hlen, List.getElem?_drop,
      Nat.add_sub_of_le hout, b.ends]

/-- The first bytes are those of a copy. -/
def restore (b copy : InputBuffer) (n : Nat) : InputBuffer :=
  ⟨merged copy b n, merged_size copy b n, merged_ends copy b n⟩

/-- Some bytes and a zero byte, and the bytes behind them as they were. -/
def written (b : InputBuffer) (text : Text) : List UInt8 :=
  text.take 255 ++ 0 :: b.bytes.drop ((text.take 255).length + 1)

theorem written_size (b : InputBuffer) (text : Text) : (b.written text).length = 256 := by
  have hb := b.size
  have htext : (text.take 255).length ≤ 255 := List.length_take_le _ _
  rw [written, List.length_append, List.length_cons, List.length_drop]
  omega

theorem written_ends (b : InputBuffer) (text : Text) : (b.written text)[255]? = some 0 := by
  have htext : (text.take 255).length ≤ 255 := List.length_take_le _ _
  rw [written, List.getElem?_append_right htext]
  obtain hfull | hless := Nat.eq_or_lt_of_le htext
  · rw [hfull]
    rfl
  · obtain ⟨d, hd⟩ := Nat.exists_eq_add_of_lt hless
    have hplace : 255 - (text.take 255).length = d + 1 := by omega
    have hback : (text.take 255).length + 1 + d = 255 := by omega
    rw [hplace, List.getElem?_cons_succ, List.getElem?_drop, hback, b.ends]

/-- A text and a zero byte at the front of the buffer. -/
def put (b : InputBuffer) (text : Text) : InputBuffer :=
  ⟨b.written text, b.written_size text, b.written_ends text⟩

/-- The text in the buffer. -/
def line (b : InputBuffer) : Text := b.bytes.takeWhile fun c => c ≠ 0

/-- A text that fits is read back. -/
theorem line_put (b : InputBuffer) {text : Text} (hlen : text.length ≤ 255)
    (hzero : (0 : UInt8) ∉ text) : (b.put text).line = text := by
  have hall : ∀ c ∈ text, decide (c ≠ 0) = true := by
    intro c hc
    exact decide_eq_true fun h => hzero (h ▸ hc)
  have hend : ∀ behind : Text, ((0 : UInt8) :: behind).takeWhile (fun c => c ≠ 0) = [] :=
    fun behind => List.takeWhile_cons_of_neg (by decide)
  unfold line put written
  dsimp only
  rw [List.take_of_length_le hlen, List.takeWhile_append_of_pos hall, hend, List.append_nil]

theorem zero_mem (b : InputBuffer) : (0 : UInt8) ∈ b.bytes := List.mem_of_getElem? b.ends

theorem line_le (b : InputBuffer) : b.line.length ≤ 255 := by
  by_contra hlong
  have hsize := b.size
  have hprefix : b.line <+: b.bytes := List.takeWhile_prefix _
  have hall : b.line = b.bytes := hprefix.eq_of_length (by
    have hle := hprefix.length_le
    omega)
  have hzero : (0 : UInt8) ∈ b.line := hall ▸ b.zero_mem
  exact absurd (List.mem_takeWhile_imp hzero) (by decide)

end InputBuffer

/-- The variables of the shell, the files, and the task it runs in. -/
structure World where
  env : Env
  aliases : Aliases
  files : Mfs3
  current : Fin 32
  lastExitCode : Int
  inputBuffer : InputBuffer
  inputLen : Nat
  inputLen_le : inputLen ≤ 255
  subOut : Nat → UInt8

namespace World

/-- The text in `input_buffer`. -/
def line (w : World) : Text := w.inputBuffer.line

/-- What `shell_expand_vars` reads. -/
def vars (w : World) : ShellVars := ⟨w.env, w.lastExitCode, w.current⟩

/-- A text in `input_buffer`. -/
def setLine (w : World) (text : Text) : World := { w with inputBuffer := w.inputBuffer.put text }

theorem take_le (text : Text) : (text.take 255).length ≤ 255 := List.length_take_le _ _

/-- A text in `input_buffer`, and its length in `input_len`. -/
def enter (w : World) (text : Text) : World :=
  { w.setLine text with
    inputLen := (text.take 255).length, inputLen_le := take_le text }

/-- The store of a text and a zero byte behind it. -/
def storeLine (w : World) (text : Text) : Faulting World :=
  if text.length < 256 then pure (w.setLine text) else .error .outside

/-- The same, with `input_len`. -/
def storeEnter (w : World) (text : Text) : Faulting World :=
  if text.length < 256 then pure (w.enter text) else .error .outside

/-- `input_buffer` and `input_len` as far as they were copied. -/
def restore (w saved : World) : World :=
  { w with
    inputBuffer := w.inputBuffer.restore saved.inputBuffer (saved.inputLen + 1)
    inputLen := saved.inputLen, inputLen_le := saved.inputLen_le }

/-- A byte of `sub_out`. -/
def setSub (w : World) (oi : Nat) (c : UInt8) : World :=
  { w with subOut := Function.update w.subOut oi c }

/-- The store of a byte in `sub_out`. -/
def storeSub (w : World) (oi : Nat) (c : UInt8) : Faulting World :=
  if oi < 512 then pure (w.setSub oi c) else .error .outside

theorem line_le (w : World) : w.line.length ≤ 255 := w.inputBuffer.line_le

theorem storeLine_of_lt {w : World} {text : Text} (h : text.length < 256) :
    w.storeLine text = pure (w.setLine text) := if_pos h

theorem storeEnter_of_lt {w : World} {text : Text} (h : text.length < 256) :
    w.storeEnter text = pure (w.enter text) := if_pos h

theorem storeSub_of_lt {w : World} {oi : Nat} (h : oi < 512) (c : UInt8) :
    w.storeSub oi c = pure (w.setSub oi c) := if_pos h

theorem smallNumbers (w : World) (hcode : w.lastExitCode = 0) : SmallNumbers w.vars := by
  have hsmall : ∀ n : Fin 32, (itoa n).length < 8 := by decide
  refine ⟨?_, hsmall w.current⟩
  have hvars : w.vars.lastExitCode = w.lastExitCode := rfl
  rw [hvars, hcode]
  decide

end World

end OriaOS.Shell
