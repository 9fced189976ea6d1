import OriaOS.Lib.Strings

/-!
# Arguments of a user task

`task_create_user` puts the strings of `argv` one behind the other into the 512 bytes of
`arg_buf`; `SYS_GETARGV` copies them to the caller's buffer up to two zeros in a row, and
finds the strings again by their terminators. An empty string behind another one stands
there as two zeros, so the copy ends at it.

The caller's buffer and its array of pointers do not overlap. The bytes behind the buffer
are the caller's, too.
-/

namespace OriaOS.Sched

open OriaOS.Lib

variable {args : List CString} {fuel i k m n p pos : Nat}

/-- The two fields of a task that keep its arguments. -/
structure ArgTask where
  argArgc : Nat
  argBuf : Nat → UInt8

/-! ## task_create_user -/

/-- `while (s[si] && pos < 510) arg_buf[pos++] = s[si++]`. -/
def putString : List UInt8 → (Nat → UInt8) → Nat → (Nat → UInt8) × Nat
  | [], buf, pos => (buf, pos)
  | c :: s, buf, pos =>
      if pos < 510 then putString s (Function.update buf pos c) (pos + 1) else (buf, pos)

/-- The loop over the arguments. -/
def putArgs : List CString → (Nat → UInt8) → Nat → (Nat → UInt8) × Nat
  | [], buf, pos => (buf, pos)
  | s :: args, buf, pos =>
      if pos < 510 then
        let r := putString s.bytes buf pos
        putArgs args (Function.update r.1 r.2 0) (r.2 + 1)
      else (buf, pos)

/-- `(argv && argv[k]) ? argv[k] : ""`. -/
def argAt (argv : Option (Nat → Option CString)) (k : Nat) : CString :=
  (argv.bind fun a => a k).getD .empty

/-- The part of `task_create_user` that stores the arguments. -/
def storeArgs (t : ArgTask) (argc : Nat) (argv : Option (Nat → Option CString)) : ArgTask :=
  let ac := if 8 < argc then 8 else argc
  let r := putArgs ((List.range ac).map (argAt argv)) (Function.update t.argBuf 0 0) 0
  { t with argBuf := Function.update r.1 r.2 0, argArgc := ac }

/-! ## SYS_GETARGV -/

def mmUserCodeBase : Nat := 0xC00000

/-- `is_user_ptr`. -/
def isUserPtr (ptr : Nat) : Bool := ptr ≠ 0 && mmUserCodeBase ≤ ptr

/-- The copy of `arg_buf` from index `i` on, `n` bytes of it at most. -/
def copyArgs (src : Nat → UInt8) (ubuf : Nat) : Nat → Nat → (Nat → UInt8) → Nat → UInt8
  | 0, _, mem => mem
  | n + 1, i, mem =>
      let mem := Function.update mem (ubuf + i) (src i)
      if 0 < i ∧ src (i - 1) = 0 ∧ src i = 0 then mem else copyArgs src ubuf n (i + 1) mem

/-- `while (*p) p++; p++;` for at most `fuel` bytes. -/
def skipString (mem : Nat → UInt8) : Nat → Nat → Option Nat
  | 0, _ => none
  | fuel + 1, p => if mem p = 0 then some (p + 1) else skipString mem fuel (p + 1)

/-- The loop that fills the array of pointers, `n` entries from index `i` on, and the null
pointer behind them. -/
def putPointers (mem : Nat → UInt8) (fuel : Nat) :
    Nat → Nat → Nat → (Nat → Nat) → Option (Nat → Nat)
  | 0, i, _, uargv => some (Function.update uargv i 0)
  | n + 1, i, p, uargv =>
      (skipString mem fuel p).bind fun q =>
        putPointers mem fuel n (i + 1) q (Function.update uargv i p)

/-- What the caller has after the call: its memory, its array of pointers, the result. -/
structure ArgvResult where
  mem : Nat → UInt8
  uargv : Nat → Nat
  ret : Nat

/-- The caller's memory once `arg_buf` has been copied to its buffer. -/
def copyOut (t : ArgTask) (ebx : Nat) (mem : Nat → UInt8) : Nat → UInt8 :=
  Function.update (copyArgs t.argBuf ebx 512 0 mem) (ebx + 511) 0

/-- `SYS_GETARGV`. -/
def sysGetArgv (t : ArgTask) (fuel ebx edx : Nat) (mem : Nat → UInt8) (uargv : Nat → Nat) :
    Option ArgvResult :=
  if ¬ (isUserPtr ebx ∧ isUserPtr edx) then some ⟨mem, uargv, 0⟩
  else
    let ac := if 8 < t.argArgc then 8 else t.argArgc
    let mem := copyOut t ebx mem
    (putPointers mem fuel ac 0 ebx uargv).map fun out => ⟨mem, out, ac⟩

/-! ## The arguments that come back -/

/-- `argv` as `task_create_user` gets it. -/
def argvOf (argv : List CString) : Option (Nat → Option CString) := some fun k => argv[k]?

/-- The pointer lies in the buffer and a string ends there behind it. -/
def InBuffer (ebx : Nat) (mem : Nat → UInt8) (p : Nat) : Prop :=
  ebx ≤ p ∧ p < ebx + 512 ∧ ∃ z, p ≤ z ∧ z < ebx + 512 ∧ mem z = 0

/-- At most 8 strings and 510 bytes with the terminators. -/
def Short (argv : List CString) : Prop := argv.length ≤ 8 ∧ (serial argv).length ≤ 510

/-- The buffer of 512 bytes and the array of 9 pointers do not overlap. -/
def Apart (ebx edx : Nat) : Prop := ebx + 512 ≤ edx ∨ edx + 72 ≤ ebx

/-- A short list comes back as it is; of a longer one every pointer is good. Nothing is
known of the task's slot and the caller's memory before. -/
def ArgvKept (argv : List CString) : Prop :=
  ∀ (t : ArgTask) (ebx edx : Nat) (mem : Nat → UInt8) (uargv : Nat → Nat),
    isUserPtr ebx → isUserPtr edx → Apart ebx edx →
      ∃ fuel out, sysGetArgv (storeArgs t argv.length (argvOf argv)) fuel ebx edx mem uargv
          = some out ∧
        (Short argv → out.ret = argv.length ∧
          ∀ k, ∀ h : k < argv.length, CString.read out.mem 512 (out.uargv k) = argv[k]) ∧
        (¬ Short argv → ∀ k, k < out.ret → InBuffer ebx out.mem (out.uargv k))

/-- The first `m` strings fit, and none of them but the first is empty. -/
def Clear (args : List CString) (m : Nat) : Prop :=
  start args m ≤ 510 ∧ ∀ k, ∀ h : k < args.length, 1 ≤ k → k < m → args[k].length ≠ 0

/-- Of a short list all strings but the last must be clear, of a longer one all that are
stored but the last two. -/
def ArgvClear (argv : List CString) : Prop :=
  (Short argv → Clear argv (argv.length - 1)) ∧
    (¬ Short argv → Clear argv (min 8 argv.length - 2))

/-! ## What is stored -/

section Store

theorem putString_spec (s : List UInt8) (buf : Nat → UInt8) (hpos : pos ≤ 510) :
    (putString s buf pos).2 = min (pos + s.length) 510 ∧
      (∀ i, i < pos → (putString s buf pos).1 i = buf i) ∧
      ∀ i, ∀ h : i < s.length, pos + i < 510 → (putString s buf pos).1 (pos + i) = s[i] := by
  induction s generalizing buf pos with
  | nil =>
      refine ⟨by simp [putString, hpos], fun i _ => rfl, ?_⟩
      intro i h
      exact absurd h (Nat.not_lt_zero i)
  | cons c s ih =>
      rw [putString]
      by_cases hlt : pos < 510
      · have hnext : pos + 1 ≤ 510 := hlt
        obtain ⟨hend, hbefore, hbytes⟩ := ih (Function.update buf pos c) hnext
        rw [if_pos hlt]
        refine ⟨?_, ?_, ?_⟩
        · rw [hend, List.length_cons]
          omega
        · intro i hi
          rw [hbefore i (Nat.lt_succ_of_lt hi), Function.update_of_ne (Nat.ne_of_lt hi)]
        · intro i hi hroom
          cases i with
          | zero =>
              have hfirst := hbefore pos (Nat.lt_succ_self pos)
              rw [Function.update_self] at hfirst
              exact hfirst
          | succ i =>
              have hshift : pos + (i + 1) = pos + 1 + i := by omega
              rw [hshift, hbytes i (Nat.lt_of_succ_lt_succ hi) (by omega)]
              rfl
      · rw [if_neg hlt]
        refine ⟨?_, fun i _ => rfl, fun i _ hroom => ?_⟩
        · dsimp only
          omega
        · omega

/-- What the loop leaves: nothing before `pos` changed, the layout stored up to byte 510,
and `pos` behind it, or at a zero that closes it. -/
structure Stored (args : List CString) (buf : Nat → UInt8) (pos : Nat)
    (r : (Nat → UInt8) × Nat) : Prop where
  before : ∀ i, i < pos → r.1 i = buf i
  bytes : ∀ i, i < (serial args).length → pos + i < 510 →
    r.1 (pos + i) = (serial args).getD i 0
  done : r.2 = pos + (serial args).length ∧ pos + (serial args).length ≤ 510 ∨
    510 < pos + (serial args).length ∧ (r.2 = 510 ∨ r.2 = 511 ∧ r.1 510 = 0)

/-- One more string in front, with room for it and its terminator. -/
theorem Stored.cons {s : CString} {buf : Nat → UInt8} {r r' : (Nat → UInt8) × Nat}
    (hroom : pos + s.length < 510) (hend : r.2 = pos + s.length)
    (hbefore : ∀ i, i < pos → r.1 i = buf i)
    (hbytes : ∀ i, ∀ h : i < s.length, pos + i < 510 → r.1 (pos + i) = s.bytes[i])
    (h : Stored args (Function.update r.1 r.2 0) (r.2 + 1) r') : Stored (s :: args) buf pos r' := by
  have hlen := length_serial_cons s args
  refine ⟨?_, ?_, ?_⟩
  · intro i hi
    rw [h.before i (by omega), Function.update_of_ne (by omega), hbefore i hi]
  · intro i hi hi510
    rcases Nat.lt_trichotomy i s.length with hin | rfl | hout
    · rw [h.before _ (by omega), Function.update_of_ne (by omega), hbytes i hin hi510,
        serial_head hin]
    · rw [← hend, h.before _ (Nat.lt_succ_self _), Function.update_self, serial_head_end]
    · obtain ⟨j, rfl⟩ := Nat.exists_eq_add_of_le (Nat.succ_le_of_lt hout)
      have hshift : pos + (s.length.succ + j) = r.2 + 1 + j := by omega
      rw [hshift, h.bytes j (by omega) (by omega)]
      exact (serial_tail s args j).symm
  · have hsum : r.2 + 1 + (serial args).length = pos + (serial (s :: args)).length := by omega
    rw [← hsum]
    exact h.done

/-- The string reaches byte 510: a zero is put there, and the loop ends. -/
theorem Stored.full {s : CString} {buf : Nat → UInt8} {r : (Nat → UInt8) × Nat} (hpos : pos < 510)
    (hfull : 510 ≤ pos + s.length) (hend : r.2 = 510) (hbefore : ∀ i, i < pos → r.1 i = buf i)
    (hbytes : ∀ i, ∀ h : i < s.length, pos + i < 510 → r.1 (pos + i) = s.bytes[i]) :
    Stored (s :: args) buf pos (Function.update r.1 r.2 0, r.2 + 1) := by
  have hlen := length_serial_cons s args
  refine ⟨?_, ?_, Or.inr ⟨by omega, Or.inr ⟨by rw [hend], ?_⟩⟩⟩
  · intro i hi
    dsimp only
    rw [Function.update_of_ne (by omega), hbefore i hi]
  · intro i hi hi510
    have hin : i < s.length := by omega
    dsimp only
    rw [Function.update_of_ne (by omega), hbytes i hin hi510, serial_head hin]
  · dsimp only
    rw [hend, Function.update_self]

theorem putArgs_stored (args : List CString) (buf : Nat → UInt8) (hpos : pos ≤ 510) :
    Stored args buf pos (putArgs args buf pos) := by
  induction args generalizing buf pos with
  | nil => exact ⟨fun i _ => rfl, fun i hi => absurd hi (Nat.not_lt_zero i), Or.inl ⟨rfl, hpos⟩⟩
  | cons s args ih =>
      rw [putArgs]
      by_cases hlt : pos < 510
      · obtain ⟨hend, hbefore, hbytes⟩ := putString_spec s.bytes buf hpos
        rw [if_pos hlt]
        rcases Nat.lt_or_ge (pos + s.length) 510 with hroom | hfull
        · have hend' : (putString s.bytes buf pos).2 = pos + s.length :=
            hend.trans (Nat.min_eq_left hroom.le)
          have hnext : (putString s.bytes buf pos).2 + 1 ≤ 510 := hend' ▸ hroom
          exact .cons hroom hend' hbefore hbytes (ih _ hnext)
        · have hend' : (putString s.bytes buf pos).2 = 510 := hend.trans (Nat.min_eq_right hfull)
          have hstop : ∀ buf', putArgs args buf' 511 = (buf', 511) := by
            intro buf'
            cases args with
            | nil => rfl
            | cons s' args => rw [putArgs, if_neg (by decide)]
          have hfull' : Stored (s :: args) buf pos _ := .full hlt hfull hend' hbefore hbytes
          dsimp only
          rw [hend'] at hfull' ⊢
          rw [hstop]
          exact hfull'
      · have hlen := length_serial_cons s args
        rw [if_neg hlt]
        exact ⟨fun i _ => rfl, fun i _ h => by omega, Or.inr ⟨by omega, Or.inl (by omega)⟩⟩

/-- The arguments that are stored: eight at most. -/
theorem stored_args (argv : List CString) :
    (List.range (if 8 < argv.length then 8 else argv.length)).map (argAt (argvOf argv))
      = argv.take 8 := by
  apply List.ext_getElem
  · rw [List.length_map, List.length_range, List.length_take]
    split <;> omega
  · intro k hk hk'
    have hlt : k < argv.length := (List.length_take_le' 8 argv).trans_lt' hk'
    rw [List.getElem_map, List.getElem_range, List.getElem_take]
    simp [argAt, argvOf, hlt]

/-- `arg_buf` up to the end of the layout or byte 510. -/
theorem storeArgs_buf (t : ArgTask) (argv : List CString) (hi : i ≤ (serial (argv.take 8)).length)
    (hi510 : i ≤ 510) :
    (storeArgs t argv.length (argvOf argv)).argBuf i
      = if i < 510 then (serial (argv.take 8)).getD i 0 else 0 := by
  have h := putArgs_stored (argv.take 8) (Function.update t.argBuf 0 0) (Nat.zero_le 510)
  have hdone := h.done
  simp only [storeArgs, stored_args]
  generalize putArgs (argv.take 8) (Function.update t.argBuf 0 0) 0 = r at h hdone ⊢
  rw [Nat.zero_add] at hdone
  by_cases hpos : i = r.2
  · subst hpos
    rw [Function.update_self]
    split
    · rw [List.getD_eq_default _ _ (by omega)]
    · rfl
  · rw [Function.update_of_ne hpos]
    split
    · have hbyte := h.bytes i
      rw [Nat.zero_add] at hbyte
      rcases hdone with ⟨hend, -⟩ | ⟨hlong, -⟩
      · exact hbyte (by omega) (by omega)
      · exact hbyte (by omega) (by omega)
    · have h510 : i = 510 := by omega
      rcases hdone with ⟨hend, hfits⟩ | ⟨-, hend | ⟨-, hzero⟩⟩
      · omega
      · omega
      · rw [h510, hzero]

end Store

/-! ## What is copied -/

section Copy
variable {src : Nat → UInt8} {ubuf : Nat}

/-- A byte is copied if no two zeros in a row stand before it. -/
def Reached (src : Nat → UInt8) (i k : Nat) : Prop :=
  ∀ j, i ≤ j → j < k → ¬ (0 < j ∧ src (j - 1) = 0 ∧ src j = 0)

theorem copyArgs_before (mem : Nat → UInt8) (hk : k < ubuf + i) :
    copyArgs src ubuf n i mem k = mem k := by
  induction n generalizing i mem with
  | zero => rfl
  | succ n ih =>
      rw [copyArgs]
      split
      · rw [Function.update_of_ne (Nat.ne_of_lt hk)]
      · rw [ih _ (Nat.lt_succ_of_lt hk), Function.update_of_ne (Nat.ne_of_lt hk)]

theorem copyArgs_reached (mem : Nat → UInt8) (hik : i ≤ k) (hkn : k < i + n) (h : Reached src i k) :
    copyArgs src ubuf n i mem (ubuf + k) = src k := by
  induction n generalizing i mem with
  | zero => omega
  | succ n ih =>
      rw [copyArgs]
      rcases Nat.eq_or_lt_of_le hik with rfl | hlt
      · split
        · rw [Function.update_self]
        · rw [copyArgs_before _ (Nat.lt_succ_self _), Function.update_self]
      · rw [if_neg (h i (Nat.le_refl i) hlt)]
        exact ih _ hlt (by omega) fun j hj => h j (Nat.le_of_succ_le hj)

/-- Behind two zeros in a row nothing is copied. -/
theorem copyArgs_behind {z : Nat} (mem : Nat → UInt8) (hiz : i ≤ z) (hzk : z < k) (hz : 0 < z)
    (hsrc : src (z - 1) = 0) (hsrc' : src z = 0) :
    copyArgs src ubuf n i mem (ubuf + k) = mem (ubuf + k) := by
  induction n generalizing i mem with
  | zero => rfl
  | succ n ih =>
      have hne : ubuf + k ≠ ubuf + i := by omega
      rw [copyArgs]
      split
      · rw [Function.update_of_ne hne]
      · next hgo =>
        have hlt : i < z := by
          refine Nat.lt_of_le_of_ne hiz ?_
          rintro rfl
          exact hgo ⟨hz, hsrc, hsrc'⟩
        rw [ih _ hlt, Function.update_of_ne hne]

end Copy

/-! ## Where the pointers go -/

section Pointers
variable {mem : Nat → UInt8}

theorem skipString_next {q : Nat} (h : skipString mem fuel p = some q) : NextString mem p q := by
  induction fuel generalizing p with
  | zero => cases h
  | succ fuel ih =>
      rw [skipString] at h
      split at h
      · next hzero =>
        cases h
        exact .of_zero (Nat.le_refl p) hzero fun k hk hlt => absurd hk (Nat.not_le_of_lt hlt)
      · next hne =>
        obtain ⟨hlt, hzero, hrest⟩ := ih h
        refine ⟨Nat.lt_of_succ_lt hlt, hzero, ?_⟩
        intro k hk hkq
        rcases Nat.eq_or_lt_of_le hk with rfl | hlt'
        · exact hne
        · exact hrest k hlt' hkq

theorem skipString_of_next {q : Nat} (h : NextString mem p q) (hfuel : q ≤ p + fuel) :
    skipString mem fuel p = some q := by
  induction fuel generalizing p with
  | zero => exact absurd h.lt (Nat.not_lt_of_le hfuel)
  | succ fuel ih =>
      rw [skipString]
      by_cases hzero : mem p = 0
      · have hq : p + 1 = q :=
          (NextString.of_zero (Nat.le_refl p) hzero fun k hk hlt => by omega).unique h
        rw [if_pos hzero, hq]
      · have hne : q ≠ p + 1 := by
          rintro rfl
          exact hzero h.zero
        rw [if_neg hzero]
        apply ih
        · have hlt := h.lt
          exact ⟨by omega, h.zero, fun k hk => h.nonzero k (Nat.le_of_succ_le hk)⟩
        · omega

/-- The pointers go from string to string. -/
theorem putPointers_some {uargv out : Nat → Nat} (h : putPointers mem fuel n i p uargv = some out) :
    (∀ k, k < i → out k = uargv k) ∧ (0 < n → out i = p) ∧
      ∀ k, k + 1 < n → NextString mem (out (i + k)) (out (i + k + 1)) := by
  induction n generalizing i p uargv with
  | zero =>
      cases h
      exact ⟨fun k hk => Function.update_of_ne (Nat.ne_of_lt hk) _ _, fun h => absurd h (by decide),
        fun k hk => absurd hk (Nat.not_lt_zero _)⟩
  | succ n ih =>
      rw [putPointers] at h
      obtain ⟨q, hq, h⟩ := Option.bind_eq_some_iff.mp h
      obtain ⟨hbefore, hfirst, hnext⟩ := ih h
      have hi : out i = p := (hbefore i (Nat.lt_succ_self i)).trans (Function.update_self ..)
      refine ⟨?_, fun _ => hi, ?_⟩
      · intro k hk
        rw [hbefore k (Nat.lt_succ_of_lt hk), Function.update_of_ne (Nat.ne_of_lt hk)]
      · intro k hk
        cases k with
        | zero =>
            rw [Nat.add_zero, hi, hfirst (by omega)]
            exact skipString_next hq
        | succ k =>
            have hstep := hnext k (Nat.lt_of_succ_lt_succ hk)
            rwa [Nat.add_right_comm i 1 k, Nat.add_assoc i k 1] at hstep

/-- As long as the pointers stay before a zero, the loop ends. -/
theorem putPointers_ends {z : Nat} {uargv : Nat → Nat} {ps : Nat → Nat}
    (hps : ∀ k, k < n → NextString mem (ps k) (ps (k + 1))) (hp : ps 0 = p)
    (hin : ∀ k, k < n → ps k ≤ z) (hz : mem z = 0) (hfuel : z < p + fuel) :
    ∃ out, putPointers mem fuel n i p uargv = some out := by
  subst hp
  induction n generalizing i uargv ps with
  | zero => exact ⟨_, rfl⟩
  | succ n ih =>
      have hfirst : NextString mem (ps 0) (ps 1) := hps 0 (Nat.succ_pos n)
      have hlt := hfirst.lt
      have hle : ps 1 ≤ z + 1 := hfirst.le (hin 0 (Nat.succ_pos n)) hz
      have hskip : skipString mem fuel (ps 0) = some (ps 1) :=
        skipString_of_next hfirst (by omega)
      obtain ⟨out, hout⟩ :
          ∃ out, putPointers mem fuel n (i + 1) (ps 1) (Function.update uargv i (ps 0)) = some out :=
        @ih (i + 1) _ (fun k => ps (k + 1)) (fun k hk => hps (k + 1) (Nat.succ_lt_succ hk))
          (fun k hk => hin (k + 1) (Nat.succ_lt_succ hk)) (show z < ps 1 + fuel by omega)
      refine ⟨out, ?_⟩
      rw [putPointers, hskip]
      exact hout

end Pointers

/-! ## The copy of what is stored -/

section Image
variable {t : ArgTask} {argv : List CString} {ebx : Nat} {mem : Nat → UInt8} {m : Nat}

/-- The caller's memory for a list of arguments. -/
def image (t : ArgTask) (argv : List CString) (ebx : Nat) (mem : Nat → UInt8) : Nat → UInt8 :=
  copyOut (storeArgs t argv.length (argvOf argv)) ebx mem

theorem Clear.mono {j : Nat} (h : Clear args m) (hjm : j ≤ m) (hm : m ≤ args.length) :
    Clear args j :=
  ⟨(start_mono hjm hm).trans h.1, fun k hk hk1 hkj => h.2 k hk hk1 (hkj.trans_le hjm)⟩

theorem storeArgs_byte (hk : k < (argv.take 8).length) (hi : i < (argv.take 8)[k].length)
    (hroom : start (argv.take 8) k + i < 510) :
    (storeArgs t argv.length (argvOf argv)).argBuf (start (argv.take 8) k + i)
      = (argv.take 8)[k].bytes[i] := by
  have hsucc := start_succ hk
  have hsize : start (argv.take 8) (k + 1) ≤ (serial (argv.take 8)).length := start_le_size hk
  rw [storeArgs_buf t argv (by omega) hroom.le, if_pos hroom, serial_byte hk hi]

/-- Each string is closed by a zero, at byte 510 at the latest. -/
theorem storeArgs_end (hk : k < (argv.take 8).length) :
    (storeArgs t argv.length (argvOf argv)).argBuf
      (min (start (argv.take 8) k + (argv.take 8)[k].length) 510) = 0 := by
  have hsucc := start_succ hk
  have hsize : start (argv.take 8) (k + 1) ≤ (serial (argv.take 8)).length := start_le_size hk
  rw [storeArgs_buf t argv (by omega) (Nat.min_le_right _ _)]
  split
  · next hlt => rw [Nat.min_eq_left (by omega), serial_end hk]
  · rfl

/-- Up to the end of a string with clear strings before it there are no two zeros in a row. -/
theorem reached_of_clear (hclear : Clear (argv.take 8) m) (hm : m < (argv.take 8).length)
    (hk : k ≤ start (argv.take 8) m + (argv.take 8)[m].length) (hk510 : k ≤ 510) :
    Reached (storeArgs t argv.length (argvOf argv)).argBuf 0 k := by
  rintro j - hjk ⟨hpos, hz, hz'⟩
  obtain ⟨i, rfl⟩ : ∃ i, j = i + 1 := Nat.exists_eq_succ_of_ne_zero (Nat.ne_of_gt hpos)
  have hsucc := start_succ hm
  have hsize : start (argv.take 8) (m + 1) ≤ (serial (argv.take 8)).length := start_le_size hm
  rw [Nat.add_sub_cancel, storeArgs_buf t argv (by omega) (by omega), if_pos (by omega)] at hz
  rw [storeArgs_buf t argv (by omega) (by omega), if_pos (by omega)] at hz'
  obtain ⟨e, he, he1, hempty, hie⟩ := empty_of_two_zeros (by omega) hz hz'
  rcases Nat.lt_or_ge e m with hlt | hge
  · exact hclear.2 e he he1 hlt hempty
  · -- The zero would stand in the string `m` itself, or behind it.
    rcases Nat.eq_or_lt_of_le hge with rfl | hgt
    · omega
    · have hmono : start (argv.take 8) (m + 1) ≤ start (argv.take 8) e := start_mono hgt he.le
      omega

theorem image_of_reached (hk : k ≤ 510)
    (h : Reached (storeArgs t argv.length (argvOf argv)).argBuf 0 k) :
    image t argv ebx mem (ebx + k) = (storeArgs t argv.length (argvOf argv)).argBuf k := by
  rw [image, copyOut, Function.update_of_ne (by omega),
    copyArgs_reached mem (Nat.zero_le k) (by omega) h]

theorem image_last : image t argv ebx mem (ebx + 511) = 0 := by
  rw [image, copyOut, Function.update_self]

theorem image_byte (hclear : Clear (argv.take 8) m) (hm : m < (argv.take 8).length)
    (hi : i < (argv.take 8)[m].length) (hroom : start (argv.take 8) m + i < 510) :
    image t argv ebx mem (ebx + (start (argv.take 8) m + i)) = (argv.take 8)[m].bytes[i] := by
  rw [image_of_reached hroom.le (reached_of_clear hclear hm (by omega) hroom.le),
    storeArgs_byte hm hi hroom]

theorem image_end (hclear : Clear (argv.take 8) m) (hm : m < (argv.take 8).length) :
    image t argv ebx mem
      (ebx + min (start (argv.take 8) m + (argv.take 8)[m].length) 510) = 0 := by
  rw [image_of_reached (Nat.min_le_right _ _)
    (reached_of_clear hclear hm (Nat.min_le_left _ _) (Nat.min_le_right _ _)), storeArgs_end hm]

/-- From the start of such a string the walk goes to its end, or to byte 510. -/
theorem image_next (hclear : Clear (argv.take 8) m) (hm : m < (argv.take 8).length) :
    NextString (image t argv ebx mem) (ebx + start (argv.take 8) m)
      (ebx + min (start (argv.take 8) m + (argv.take 8)[m].length) 510 + 1) := by
  have hstart := hclear.1
  refine .of_zero (by omega) (image_end hclear hm) ?_
  intro k hk hlt hzero
  obtain ⟨i, rfl⟩ := Nat.exists_eq_add_of_le hk
  have hi : i < (argv.take 8)[m].length := by omega
  rw [Nat.add_assoc, image_byte hclear hm hi (by omega)] at hzero
  exact (argv.take 8)[m].nonzero (hzero ▸ List.getElem_mem hi)

theorem image_next_start (hclear : Clear (argv.take 8) (m + 1))
    (hm : m < (argv.take 8).length) :
    NextString (image t argv ebx mem) (ebx + start (argv.take 8) m)
      (ebx + start (argv.take 8) (m + 1)) := by
  have hnext : NextString (image t argv ebx mem) _ _ :=
    image_next (hclear.mono (Nat.le_succ m) hm) hm
  have hfits := hclear.1
  have hsucc := start_succ hm
  rw [Nat.min_eq_left (by omega)] at hnext
  rw [hsucc]
  exact hnext

/-- The pointers to the clear strings are right, and one more is good. -/
theorem walk_inside (hclear : Clear (argv.take 8) m) (hm : m < (argv.take 8).length)
    {f : Nat → Nat} (hf : f 0 = ebx) (hk : k ≤ m + 1)
    (hnext : ∀ j, j < k → NextString (image t argv ebx mem) (f j) (f (j + 1))) :
    (k ≤ m → f k = ebx + start (argv.take 8) k) ∧ ebx ≤ f k ∧ f k ≤ ebx + 511 := by
  induction k with
  | zero => simp [hf]
  | succ k ih =>
      have hkm : k ≤ m := Nat.le_of_succ_le_succ hk
      obtain ⟨hfk, -⟩ := ih (Nat.le_of_succ_le hk) fun j hj => hnext j (Nat.lt_succ_of_lt hj)
      have hstep := hnext k (Nat.lt_succ_self k)
      rw [hfk hkm] at hstep
      have hthis : NextString (image t argv ebx mem) _ _ :=
        image_next (hclear.mono hkm hm.le) (hkm.trans_lt hm)
      refine ⟨?_, ?_, ?_⟩
      · intro hlt
        exact hstep.unique (image_next_start (hclear.mono hlt hm.le) (hkm.trans_lt hm))
      · exact (Nat.le_add_right _ _).trans hstep.lt.le
      · rw [hstep.unique hthis]
        omega

/-- The loop over the pointers ends if all strings but one are clear. -/
theorem putPointers_image (hclear : Clear (argv.take 8) m) (hm : m < (argv.take 8).length)
    (hn : n ≤ m + 2) (uargv : Nat → Nat) :
    ∃ out, putPointers (image t argv ebx mem) 512 n 0 ebx uargv = some out := by
  obtain ⟨ps, hps, hwalk⟩ := exists_walk (image t argv ebx mem) ebx
  have hnext : ∀ k, k ≤ m + 2 →
      ∀ j, j < k → NextString (image t argv ebx mem) (ps j) (ps (j + 1)) := by
    intro k
    induction k with
    | zero => exact fun _ j hj => absurd hj (Nat.not_lt_zero j)
    | succ k ih =>
        intro hk j hj
        have hrec := ih (Nat.le_of_succ_le hk)
        rcases Nat.lt_succ_iff_lt_or_eq.mp hj with hlt | rfl
        · exact hrec j hlt
        · have hin := (walk_inside hclear hm hps (Nat.le_of_succ_le_succ hk) hrec).2.2
          exact hwalk j (NextString.exists_of_zero hin image_last)
  refine putPointers_ends (hnext n hn) hps ?_ image_last (by omega)
  intro k hk
  exact (walk_inside hclear hm hps (Nat.le_of_lt_succ (hk.trans_le hn))
    fun j hj => hnext n hn j (hj.trans hk)).2.2

theorem clear_take {m : Nat} (hm : m ≤ 8) : Clear (argv.take 8) m ↔ Clear argv m := by
  rw [Clear, Clear, start_take hm]
  refine and_congr_right fun _ => ⟨?_, ?_⟩
  · intro h k hk hk1 hkm hempty
    have hk' : k < (argv.take 8).length := by
      rw [List.length_take]
      omega
    exact h k hk' hk1 hkm (by rwa [List.getElem_take])
  · intro h k hk hk1 hkm hempty
    have hk' : k < argv.length := (List.length_take_le' 8 argv).trans_lt' hk
    exact h k hk' hk1 hkm (by rwa [List.getElem_take] at hempty)

/-- The first string that is not clear. -/
theorem exists_last_clear (h : ¬ Clear args m) :
    ∃ k, k < m ∧ Clear args k ∧ ¬ Clear args (k + 1) := by
  induction m with
  | zero => exact absurd ⟨by simp, fun k _ _ hk => absurd hk (Nat.not_lt_zero k)⟩ h
  | succ m ih =>
      by_cases hm : Clear args m
      · exact ⟨m, Nat.lt_succ_self m, hm, h⟩
      · obtain ⟨k, hk, hclear⟩ := ih hm
        exact ⟨k, Nat.lt_succ_of_lt hk, hclear⟩

/-- It is cut off, or it is empty and not the first. -/
theorem not_clear_succ (hm : m < args.length) (hclear : Clear args m) (h : ¬ Clear args (m + 1)) :
    510 < start args (m + 1) ∨ start args (m + 1) ≤ 510 ∧ 1 ≤ m ∧ args[m].length = 0 := by
  rcases Nat.lt_or_ge 510 (start args (m + 1)) with hcut | hfits
  · exact Or.inl hcut
  · right
    refine ⟨hfits, ?_⟩
    by_contra hne
    apply h
    refine ⟨hfits, ?_⟩
    intro k hk hk1 hkm hempty
    rcases Nat.lt_succ_iff_lt_or_eq.mp hkm with hlt | rfl
    · exact hclear.2 k hk hk1 hlt hempty
    · exact hne ⟨hk1, hempty⟩

/-- Behind an empty string the buffer is as the caller left it. -/
theorem image_stale (hclear : Clear (argv.take 8) m) (hm : m < (argv.take 8).length) (hm1 : 1 ≤ m)
    (hempty : (argv.take 8)[m].length = 0) (hfits : start (argv.take 8) (m + 1) ≤ 510)
    (hk : start (argv.take 8) (m + 1) ≤ k) (hk511 : k < 511) :
    image t argv ebx mem (ebx + k) = mem (ebx + k) := by
  obtain ⟨e, rfl⟩ : ∃ e, m = e + 1 := Nat.exists_eq_succ_of_ne_zero (Nat.ne_of_gt hm1)
  have hsucc := start_succ hm
  have hsucc' := start_succ (Nat.lt_of_succ_lt hm)
  have hz := storeArgs_end (t := t) hm
  have hz' := storeArgs_end (t := t) (Nat.lt_of_succ_lt hm)
  rw [Nat.min_eq_left (by omega)] at hz hz'
  rw [image, copyOut, Function.update_of_ne (by omega)]
  refine copyArgs_behind mem (z := start (argv.take 8) (e + 1)) (Nat.zero_le _) (by omega)
    (by omega) ?_ ?_
  · rw [hsucc', Nat.add_sub_cancel]
    exact hz'
  · rw [hempty] at hz
    exact hz

/-- From there the walk leaves the buffer in two steps. -/
theorem image_leaves {c : UInt8} (hc : c ≠ 0) (hclear : Clear (argv.take 8) m)
    (hm : m < (argv.take 8).length) (hnot : ¬ Clear (argv.take 8) (m + 1)) :
    ∃ q, NextString (image t argv ebx fun _ => c) (ebx + start (argv.take 8) m) q ∧
      NextString (image t argv ebx fun _ => c) q (ebx + 512) := by
  have hsucc := start_succ hm
  have hnext : NextString (image t argv ebx fun _ => c) _ _ := image_next hclear hm
  rcases not_clear_succ hm hclear hnot with hcut | ⟨hfits, hm1, hempty⟩
  · -- The string ends at byte 510, the next one at the last byte.
    rw [Nat.min_eq_right (by omega)] at hnext
    exact ⟨_, hnext, .of_zero (Nat.le_refl _) image_last fun k hk hlt => by omega⟩
  · rw [Nat.min_eq_left (by omega)] at hnext
    refine ⟨_, hnext, .of_zero (by omega) image_last ?_⟩
    intro k hk hlt
    obtain ⟨i, rfl⟩ : ∃ i, k = ebx + i := Nat.exists_eq_add_of_le (by omega)
    rw [image_stale hclear hm hm1 hempty hfits (by omega) (by omega)]
    exact hc

end Image

/-! ## Which lists come back -/

section Kept
variable {argv : List CString} {t : ArgTask} {fuel ebx edx : Nat} {mem : Nat → UInt8}
  {uargv : Nat → Nat} {out : ArgvResult}

theorem sysGetArgv_eq (hb : isUserPtr ebx) (hd : isUserPtr edx) :
    sysGetArgv (storeArgs t argv.length (argvOf argv)) fuel ebx edx mem uargv
      = (putPointers (image t argv ebx mem) fuel (argv.take 8).length 0 ebx uargv).map
          fun out => ⟨image t argv ebx mem, out, (argv.take 8).length⟩ := by
  have hlen : (argv.take 8).length = if 8 < argv.length then 8 else argv.length := by
    rw [List.length_take]
    split <;> omega
  have hac : (if 8 < (storeArgs t argv.length (argvOf argv)).argArgc then 8
      else (storeArgs t argv.length (argvOf argv)).argArgc) = (argv.take 8).length := by
    rw [hlen, storeArgs]
    by_cases h8 : 8 < argv.length <;> simp [h8]
  rw [sysGetArgv, if_neg (not_not_intro ⟨hb, hd⟩), hac]
  rfl

theorem take_of_short (h : Short argv) : argv.take 8 = argv := List.take_of_length_le h.1

/-- A pointer before the last byte is good. -/
theorem inBuffer_of_le (hle : ebx ≤ p) (hlt : p ≤ ebx + 511) :
    InBuffer ebx (image t argv ebx mem) p :=
  ⟨hle, Nat.lt_succ_of_le hlt, ebx + 511, hlt, Nat.lt_succ_self _, image_last⟩

/-- A clear string that ends before byte 510 is read back. -/
theorem read_image (hclear : Clear (argv.take 8) m) (hm : m < (argv.take 8).length)
    (hfits : start (argv.take 8) (m + 1) ≤ 510) :
    CString.read (image t argv ebx mem) 512 (ebx + start (argv.take 8) m)
      = (argv.take 8)[m] := by
  have hsucc := start_succ hm
  have hend : image t argv ebx mem _ = 0 := image_end hclear hm
  rw [Nat.min_eq_left (by omega), ← Nat.add_assoc] at hend
  have hbytes : CString.readBytes (image t argv ebx mem) 512 (ebx + start (argv.take 8) m)
      = (argv.take 8)[m].bytes := by
    apply CString.readBytes_eq (argv.take 8)[m].nonzero _ hend
    · rw [CString.length] at hsucc
      omega
    · intro k hk
      have hk' : k < (argv.take 8)[m].length := hk
      rw [Nat.add_assoc]
      exact image_byte hclear hm hk' (by omega)
  simp only [CString.read, hbytes]

/-- All pointers but one go to clear strings, of a short list all of them do. -/
theorem ArgvClear.exists_clear (h : ArgvClear argv) (hpos : 0 < (argv.take 8).length) :
    ∃ m, m < (argv.take 8).length ∧ Clear (argv.take 8) m ∧ (argv.take 8).length ≤ m + 2 ∧
      (Short argv → (argv.take 8).length = m + 1) := by
  have hlen : (argv.take 8).length = min 8 argv.length := List.length_take
  by_cases hs : Short argv
  · have hle := hs.1
    refine ⟨argv.length - 1, by omega, (clear_take (by omega)).mpr (h.1 hs), by omega, ?_⟩
    exact fun _ => by omega
  · refine ⟨min 8 argv.length - 2, by omega, (clear_take (by omega)).mpr (h.2 hs), by omega, ?_⟩
    exact fun hs' => absurd hs' hs

theorem kept_of_clear (h : ArgvClear argv) : ArgvKept argv := by
  intro t ebx edx mem uargv hb hd _
  rcases Nat.eq_zero_or_pos (argv.take 8).length with hnil | hpos
  · -- No pointer is written.
    have hargv : argv = [] := by
      apply List.eq_nil_of_length_eq_zero
      rw [List.length_take] at hnil
      omega
    subst hargv
    refine ⟨0, ⟨image t [] ebx mem, Function.update uargv 0 0, 0⟩, ?_, ?_, ?_⟩
    · rw [sysGetArgv_eq hb hd]
      rfl
    · exact fun _ => ⟨rfl, fun k hk => absurd hk (Nat.not_lt_zero k)⟩
    · exact fun _ k hk => absurd hk (Nat.not_lt_zero k)
  · obtain ⟨m, hm, hclear, hn, hshort⟩ := h.exists_clear hpos
    obtain ⟨out, hout⟩ : ∃ out, putPointers (image t argv ebx mem) 512 (argv.take 8).length 0 ebx
        uargv = some out := putPointers_image hclear hm hn uargv
    obtain ⟨-, hfirst, hnext⟩ := putPointers_some hout
    simp only [Nat.zero_add] at hnext
    have hwalk : ∀ k, k < (argv.take 8).length → (k ≤ m → out k = ebx + start (argv.take 8) k) ∧
        ebx ≤ out k ∧ out k ≤ ebx + 511 := by
      intro k hk
      exact walk_inside hclear hm (hfirst hpos) (by omega) fun j hj => hnext j (by omega)
    refine ⟨512, ⟨image t argv ebx mem, out, (argv.take 8).length⟩, ?_, ?_, ?_⟩
    · rw [sysGetArgv_eq hb hd, hout]
      rfl
    · intro hs
      have hlen := hshort hs
      refine ⟨by rw [take_of_short hs], ?_⟩
      intro k hk
      have hk' : k < (argv.take 8).length := by rwa [take_of_short hs]
      have hkm : k ≤ m := by omega
      have hsize : start (argv.take 8) (k + 1) ≤ 510 := by
        have hle : start (argv.take 8) (k + 1) ≤ _ := start_le_size (Nat.succ_le_of_lt hk')
        rw [take_of_short hs] at hle ⊢
        exact hle.trans hs.2
      have hread : CString.read (image t argv ebx mem) 512 _ = _ :=
        read_image (hclear.mono hkm hm.le) hk' hsize
      dsimp only
      rw [(hwalk k hk').1 hkm, hread, List.getElem_take]
    · intro _ k hk
      exact inBuffer_of_le (hwalk k hk).2.1 (hwalk k hk).2.2

/-- Where the walk of a call goes behind the clear strings. -/
theorem walk_of_call {out : Nat → Nat} (hclear : Clear (argv.take 8) m)
    (hm : m < (argv.take 8).length)
    (hout : putPointers (image t argv ebx mem) fuel (argv.take 8).length 0 ebx uargv = some out) :
    out m = ebx + start (argv.take 8) m ∧
      ∀ k, k + 1 < (argv.take 8).length →
        NextString (image t argv ebx mem) (out k) (out (k + 1)) := by
  obtain ⟨-, hfirst, hnext⟩ := putPointers_some hout
  simp only [Nat.zero_add] at hnext
  refine ⟨?_, hnext⟩
  exact (walk_inside hclear hm (hfirst (Nat.zero_lt_of_lt hm)) (Nat.le_succ m)
    fun j hj => hnext j (by omega)).1 (Nat.le_refl m)

/-- A byte other than zero that the string does not start with. -/
theorem exists_other_byte (s : CString) : ∃ c : UInt8, c ≠ 0 ∧ s.bytes.head? ≠ some c := by
  by_cases h : s.bytes.head? = some 1
  · exact ⟨2, by decide, by rw [h]; decide⟩
  · exact ⟨1, by decide, h⟩

/-- A call on memory that holds one byte everywhere. -/
theorem ArgvKept.call (h : ArgvKept argv) (c : UInt8) :
    ∃ fuel out, putPointers (image ⟨0, fun _ => 0⟩ argv mmUserCodeBase fun _ => c) fuel
        (argv.take 8).length 0 mmUserCodeBase (fun _ => 0) = some out ∧
      (Short argv → ∀ k, ∀ h : k < argv.length, CString.read
        (image ⟨0, fun _ => 0⟩ argv mmUserCodeBase fun _ => c) 512 (out k) = argv[k]) ∧
      (¬ Short argv → ∀ k, k < (argv.take 8).length → out k < mmUserCodeBase + 512) := by
  obtain ⟨fuel, out, hcall, hshort, hlong⟩ := h ⟨0, fun _ => 0⟩ mmUserCodeBase
    (mmUserCodeBase + 512) (fun _ => c) (fun _ => 0) rfl rfl (Or.inl (Nat.le_refl _))
  rw [sysGetArgv_eq rfl rfl] at hcall
  obtain ⟨ps, hps, rfl⟩ := Option.map_eq_some_iff.mp hcall
  exact ⟨fuel, ps, hps, fun hs => (hshort hs).2, fun hs k hk => (hlong hs k hk).2.1⟩

/-- An empty string between others: behind it the caller's own bytes are read. -/
theorem not_kept_of_empty (hs : Short argv) (hclear : Clear (argv.take 8) m)
    (hm : m + 1 < (argv.take 8).length) (hnot : ¬ Clear (argv.take 8) (m + 1)) :
    ¬ ArgvKept argv := by
  intro hkept
  have hm0 : m < (argv.take 8).length := Nat.lt_of_succ_lt hm
  have hm1 : m + 1 < argv.length := (List.length_take_le' 8 argv).trans_lt' hm
  have hsucc := start_succ hm0
  have hsucc' := start_succ hm
  have hsize : start (argv.take 8) (m + 1 + 1) ≤ 510 := by
    have hle : start (argv.take 8) (m + 1 + 1) ≤ _ := start_le_size hm
    rw [take_of_short hs] at hle ⊢
    exact hle.trans hs.2
  obtain ⟨hfits, hpos, hempty⟩ :=
    (not_clear_succ hm0 hclear hnot).resolve_left (by omega)
  obtain ⟨c, hc, hhead⟩ := exists_other_byte argv[m + 1]
  obtain ⟨fuel, out, hout, hread, -⟩ := hkept.call c
  obtain ⟨hpm, hnext⟩ := walk_of_call hclear hm0 hout
  have hstep := hnext m hm
  have himage : NextString (image ⟨0, fun _ => 0⟩ argv mmUserCodeBase fun _ => c) _ _ :=
    image_next hclear hm0
  rw [Nat.min_eq_left (by omega), Nat.add_assoc, ← hsucc] at himage
  rw [hpm] at hstep
  have hp : out (m + 1) = mmUserCodeBase + start (argv.take 8) (m + 1) := hstep.unique himage
  have hfirst : image ⟨0, fun _ => 0⟩ argv mmUserCodeBase (fun _ => c)
      (mmUserCodeBase + start (argv.take 8) (m + 1)) = c :=
    image_stale hclear hm0 hpos hempty hfits (Nat.le_refl _) (by omega)
  have hbytes := @CString.head?_read _ 511 _ (hfirst ▸ hc)
  rw [← hp, hread hs (m + 1) hm1, hp, hfirst] at hbytes
  exact hhead hbytes

/-- Two strings behind the first that is not clear have no place in the buffer. -/
theorem not_kept_of_cut (hs : ¬ Short argv) (hclear : Clear (argv.take 8) m)
    (hm : m + 2 < (argv.take 8).length) (hnot : ¬ Clear (argv.take 8) (m + 1)) :
    ¬ ArgvKept argv := by
  intro hkept
  have hm0 : m < (argv.take 8).length := by omega
  obtain ⟨fuel, out, hout, -, hin⟩ := hkept.call 1
  obtain ⟨hpm, hnext⟩ := walk_of_call hclear hm0 hout
  obtain ⟨q, hq, hq'⟩ : ∃ q,
      NextString (image ⟨0, fun _ => 0⟩ argv mmUserCodeBase fun _ => 1) _ q ∧ NextString _ q _ :=
    image_leaves (by decide) hclear hm0 hnot
  have hfirst := hnext m (Nat.lt_of_succ_lt hm)
  have hsecond := hnext (m + 1) hm
  rw [hpm] at hfirst
  rw [hfirst.unique hq] at hsecond
  have hlt := hin hs (m + 2) hm
  rw [hsecond.unique hq'] at hlt
  exact Nat.lt_irrefl _ hlt

theorem clear_of_kept (h : ArgvKept argv) : ArgvClear argv := by
  have hlen : (argv.take 8).length = min 8 argv.length := List.length_take
  constructor
  · intro hs
    have hle := hs.1
    by_contra hnot
    obtain ⟨m, hm, hclear, hnot'⟩ := exists_last_clear hnot
    refine not_kept_of_empty hs ((clear_take (by omega)).mpr hclear) (by omega) ?_ h
    exact fun hc => hnot' ((clear_take (by omega)).mp hc)
  · intro hs
    by_contra hnot
    obtain ⟨m, hm, hclear, hnot'⟩ := exists_last_clear hnot
    refine not_kept_of_cut hs ((clear_take (by omega)).mpr hclear) (by omega) ?_ h
    exact fun hc => hnot' ((clear_take (by omega)).mp hc)

/-- The arguments come back for every slot and every caller exactly if the strings but the
last ones are clear. -/
theorem argv_kept_iff (argv : List CString) : ArgvKept argv ↔ ArgvClear argv :=
  ⟨clear_of_kept, kept_of_clear⟩

/-- Three arguments, the one in the middle empty: the third is lost. -/
theorem empty_argument_hides_next :
    ¬ ArgvKept [⟨[97], by decide⟩, .empty, ⟨[98], by decide⟩] := by
  intro h
  have hclear := (clear_of_kept h).1 ⟨by decide, by decide⟩
  exact hclear.2 1 (by decide) (by decide) (by decide) rfl

end Kept

end OriaOS.Sched
