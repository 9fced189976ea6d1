import Mathlib.Data.Finset.Card
import Mathlib.Data.List.Nodup

/-!
# Shell variables

The table of variables of `shell.c`: `sc_setvar`, `sc_getvar`, the assignment `NAME=value`
and the expansion of `$NAME`. A name is cut to 31 characters when an assignment is read,
to 23 when it is stored and to 23 letters, digits and underscores when it is expanded, and
it is compared as it is.
-/

namespace OriaOS.Shell.Vars

/-- A string up to its zero byte. -/
abbrev Text := List UInt8

abbrev envMax : Nat := 16

/-- `env_keys` and `env_vals`, up to `env_count`. -/
abbrev Env := List (Text × Text)

/-- The first entry of the key gets the value. -/
def setEntry (key val : Text) : Env → Env
  | [] => []
  | e :: env => if e.1 = key then (e.1, val) :: env else e :: setEntry key val env

/-- `sc_setvar`. -/
def scSetvar (env : Env) (key val : Text) : Env :=
  if ∃ e ∈ env, e.1 = key then setEntry key (val.take 63) env
  else if env.length < envMax then env ++ [(key.take 23, val.take 63)]
  else env

/-- The entry of a key. -/
def findVar (env : Env) (key : Text) : Option Text := (env.find? fun e => e.1 = key).map Prod.snd

/-- `sc_getvar`. -/
def scGetvar (env : Env) (key : Text) : Text := (findVar env key).getD []

/-! ## Assignments -/

def isQuote (c : UInt8) : Bool := c = 0x22 || c = 0x27

/-- The place of the `=` of an assignment: in the first word, and not in front of it. -/
def assignPlace (line : Text) : Option Nat :=
  match (line.takeWhile fun c => c ≠ 0x20).idxOf? 0x3D with
  | some (eq + 1) => some (eq + 1)
  | _ => none

/-- The text of the value: a quote in front of it is left out, and it ends at the next. -/
def valueText (val : Text) : Text :=
  (match val with
    | [] => []
    | c :: rest => if isQuote c then rest else c :: rest).takeWhile fun c => !isQuote c

/-- The buffers `kbuf` and `vbuf` of an assignment. -/
def parseAssignment (line : Text) : Option (Text × Text) :=
  (assignPlace line).map fun eq =>
    ((line.take eq).take 31, (valueText (line.drop (eq + 1))).take 63)

/-- A line that may be an assignment. -/
def exec (env : Env) (line : Text) : Env :=
  match parseAssignment line with
  | some (key, val) => scSetvar env key val
  | none => env

/-! ## Expansion -/

/-- The letters, digits and the underscore. -/
def isWord (c : UInt8) : Bool :=
  (0x41 ≤ c && c ≤ 0x5A) || (0x61 ≤ c && c ≤ 0x7A) || (0x30 ≤ c && c ≤ 0x39) || c = 0x5F

/-- What the expansion reads: the table, `last_exit_code` and the current task. -/
structure ShellVars where
  env : Env
  lastExitCode : Int
  current : Nat

/-- `itoa`. -/
def itoa (n : Nat) : Text := (Nat.toDigits 10 n).map fun c => UInt8.ofNat c.toNat

/-- Bytes go behind `tmp` while there is room. -/
def putTmp (tmp bytes : Text) : Text := (tmp ++ bytes).take (max tmp.length 254)

/-- `$?`. -/
def putExitCode (tmp : Text) (code : Int) : Text :=
  putTmp (if code < 0 ∧ tmp.length < 253 then tmp ++ [0x2D] else tmp) (itoa code.natAbs)

/-- The loop of `shell_expand_vars`. Each turn reads at least one byte. -/
def expandLoop (s : ShellVars) : Nat → Text → Text → Text
  | 0, _, tmp => tmp
  | _ + 1, [], tmp => tmp
  | fuel + 1, c :: rest, tmp =>
      if 254 ≤ tmp.length then tmp
      else if c = 0x24 then
        if rest.head? = some 0x3F then
          expandLoop s fuel rest.tail (putExitCode tmp s.lastExitCode)
        else if rest.head? = some 0x24 then
          expandLoop s fuel rest.tail (putTmp tmp (itoa s.current))
        else
          let vname := (rest.takeWhile isWord).take 23
          expandLoop s fuel (rest.drop vname.length) (putTmp tmp (scGetvar s.env vname))
      else expandLoop s fuel rest (tmp ++ [c])

/-- `shell_expand_vars`. -/
def shellExpandVars (s : ShellVars) (input : Text) : Text := expandLoop s input.length input []

/-! ## The table -/

/-- The keys of the table. -/
def keys (env : Env) : List Text := env.map Prod.fst

section Table
variable {env : Env} {key k val : Text}

theorem mem_keys : key ∈ keys env ↔ ∃ e ∈ env, e.1 = key := List.mem_map

@[simp] theorem keys_setEntry : keys (setEntry key val env) = keys env := by
  induction env with
  | nil => rfl
  | cons e env ih =>
      unfold setEntry
      split
      · rfl
      · exact congrArg (e.1 :: ·) ih

theorem findVar_setEntry (hmem : key ∈ keys env) :
    findVar (setEntry key val env) k = if k = key then some val else findVar env k := by
  induction env with
  | nil => cases hmem
  | cons e env ih =>
      unfold setEntry findVar
      by_cases hkey : e.1 = key
      · rw [if_pos hkey]
        by_cases hk : k = key
        · simp [hk, hkey]
        · have hne : ¬ e.1 = k := fun h => hk (h.symm.trans hkey)
          simp [hk, hne]
      · have hrest : key ∈ keys env := by
          obtain h | h := List.mem_cons.mp hmem
          · exact absurd h.symm hkey
          · exact h
        rw [if_neg hkey]
        by_cases hk : e.1 = k
        · have hne : k ≠ key := fun h => hkey (hk.trans h)
          simp [hk, hne]
        · have hih := ih hrest
          unfold findVar at hih
          simp only [List.find?_cons, hk, decide_false]
          exact hih

theorem findVar_eq_none (h : key ∉ keys env) : findVar env key = none := by
  unfold findVar
  rw [Option.map_eq_none_iff, List.find?_eq_none]
  intro e he hkey
  exact h (mem_keys.mpr ⟨e, he, of_decide_eq_true hkey⟩)

theorem findVar_append (h : key ∉ keys env) :
    findVar (env ++ [(key, val)]) k = if k = key then some val else findVar env k := by
  by_cases hk : k = key
  · subst hk
    have hnone := findVar_eq_none h
    unfold findVar at hnone ⊢
    rw [List.find?_append, Option.map_eq_none_iff.mp hnone]
    simp
  · have hne : ¬ key = k := fun he => hk he.symm
    unfold findVar
    rw [List.find?_append, if_neg hk]
    simp [hne]

end Table

/-! ## The latest assignment -/

/-- The name and the value that a line assigns, neither of them cut. -/
def assigned (line : Text) : Option (Text × Text) :=
  (assignPlace line).map fun eq => (line.take eq, valueText (line.drop (eq + 1)))

/-- The value of a name after one more line. -/
def assignLatest (latest : Text → Option Text) (line : Text) : Text → Option Text :=
  match assigned line with
  | some (name, val) => Function.update latest name (some val)
  | none => latest

/-- The value of the latest assignment to each name. -/
def latest (lines : List Text) : Text → Option Text := lines.foldl assignLatest fun _ => none

/-- The names that the lines assign to. -/
def names (lines : List Text) : List Text :=
  lines.filterMap fun line => (assigned line).map Prod.fst

/-- A name that no buffer cuts and that an expansion reads to its end. -/
def GoodName (name : Text) : Prop := name.length ≤ 23 ∧ name.all isWord

instance (name : Text) : Decidable (GoodName name) := by unfold GoodName; infer_instance

/-- The table holds the latest assignment to each name, cut at 63 characters: `sc_getvar`
returns it, `$name` in a text expands to it, and there is one entry for each key. -/
structure HoldsLatest (env : Env) (latest : Text → Option Text) : Prop where
  get : ∀ name val, latest name = some val → scGetvar env name = val.take 63
  absent : ∀ name, latest name = none → scGetvar env name = []
  expand : ∀ name val, latest name = some val → ∀ (code : Int) (current : Nat) (pre post : Text),
    0x24 ∉ pre → pre.length < 254 → 0x24 ∉ post → (∀ c, post.head? = some c → ¬ isWord c) →
      shellExpandVars ⟨env, code, current⟩ (pre ++ 0x24 :: (name ++ post)) =
        (pre ++ val.take 63 ++ post).take 254
  nodup : (keys env).Nodup

theorem latest_snoc (lines : List Text) (line : Text) :
    latest (lines ++ [line]) = assignLatest (latest lines) line := by
  unfold latest
  rw [List.foldl_append, List.foldl_cons, List.foldl_nil]

theorem names_snoc (lines : List Text) (line : Text) :
    names (lines ++ [line]) = names lines ++ names [line] := List.filterMap_append

theorem mem_names {line name val : Text} (h : assigned line = some (name, val)) :
    names [line] = [name] := by
  simp [names, h]

theorem assigned_ne_nil {line name val : Text} (h : assigned line = some (name, val)) :
    name ≠ [] := by
  unfold assigned assignPlace at h
  split at h
  · rename_i eq hplace
    have hname : line.take (eq + 1) = name := congrArg Prod.fst (Option.some.inj h)
    rw [← hname]
    intro hnil
    rw [List.take_eq_nil_iff] at hnil
    obtain hzero | hline := hnil
    · exact Nat.succ_ne_zero eq hzero
    · rw [hline] at hplace
      cases hplace
  · cases h

/-- What `kbuf` and `vbuf` hold. -/
theorem parseAssignment_eq (line : Text) :
    parseAssignment line = (assigned line).map fun p => (p.1.take 31, p.2.take 63) := by
  unfold parseAssignment assigned
  rw [Option.map_map]
  rfl

/-! ## An expansion -/

section Expand
variable (s : ShellVars)

/-- Text with no `$` in it is copied while there is room. -/
theorem expandLoop_plain {text : Text} (htext : 0x24 ∉ text) (rest tmp : Text) (fuel : Nat)
    (hroom : tmp.length + text.length ≤ 254) :
    expandLoop s (text.length + fuel) (text ++ rest) tmp =
      expandLoop s fuel rest (tmp ++ text) := by
  induction text generalizing tmp with
  | nil => rw [List.append_nil, List.length_nil, Nat.zero_add, List.nil_append]
  | cons c text ih =>
      have hc : c ≠ 0x24 := fun h => htext (h ▸ List.mem_cons_self)
      have hrest : 0x24 ∉ text := fun h => htext (List.mem_cons_of_mem _ h)
      have hlen : (c :: text).length + fuel = text.length + fuel + 1 := by
        rw [List.length_cons]
        omega
      rw [List.length_cons] at hroom
      rw [hlen, List.cons_append, expandLoop, if_neg (by omega), if_neg hc,
        ih hrest _ (by rw [List.length_append, List.length_singleton]; omega),
        List.append_assoc, List.singleton_append]

/-- The rest of a text with no `$` in it is copied as far as there is room. -/
theorem expandLoop_rest {text : Text} (htext : 0x24 ∉ text) (tmp : Text) (fuel : Nat)
    (hroom : tmp.length ≤ 254) (hfuel : text.length ≤ fuel) :
    expandLoop s fuel text tmp = (tmp ++ text).take 254 := by
  induction text generalizing tmp fuel with
  | nil =>
      rw [List.append_nil, List.take_of_length_le hroom]
      cases fuel <;> rfl
  | cons c text ih =>
      obtain _ | fuel := fuel
      · cases hfuel
      have hc : c ≠ 0x24 := fun h => htext (h ▸ List.mem_cons_self)
      have hrest : 0x24 ∉ text := fun h => htext (List.mem_cons_of_mem _ h)
      rw [expandLoop, if_neg hc]
      split
      · have hfull : tmp.length = 254 := by omega
        rw [← hfull, List.take_left]
      · rw [ih hrest _ _ (by rw [List.length_append, List.length_singleton]; omega)
          (Nat.le_of_succ_le_succ hfuel), List.append_assoc, List.singleton_append]

theorem take_take_append (a b : Text) (n : Nat) : (a.take n ++ b).take n = (a ++ b).take n := by
  obtain hlt | hle := Nat.lt_or_ge n a.length
  · have htake : (a.take n).length = n := List.length_take_of_le (Nat.le_of_lt hlt)
    calc (a.take n ++ b).take n
        = a.take n := List.take_left' htake
      _ = (a ++ b).take n := (List.take_append_of_le_length (Nat.le_of_lt hlt)).symm
  · rw [List.take_of_length_le hle]

/-- A name behind a `$` is replaced by its value. -/
theorem expandLoop_name {name post : Text} (hgood : GoodName name) (hne : name ≠ [])
    (hpost : ∀ c, post.head? = some c → ¬ isWord c) {tmp : Text} (hroom : tmp.length < 254)
    (fuel : Nat) :
    expandLoop s (fuel + 1) (0x24 :: (name ++ post)) tmp =
      expandLoop s fuel post ((tmp ++ scGetvar s.env name).take 254) := by
  obtain ⟨hlen, hword⟩ := hgood
  have hend : post.takeWhile isWord = [] := by
    cases post with
    | nil => rfl
    | cons c post => exact List.takeWhile_cons_of_neg (hpost c rfl)
  have hread : (name ++ post).takeWhile isWord = name := by
    rw [List.takeWhile_append_of_pos (List.all_eq_true.mp hword), hend, List.append_nil]
  have hhead : ∀ c, ¬ isWord c → (name ++ post).head? ≠ some c := by
    intro c hc hsome
    cases name with
    | nil => exact hne rfl
    | cons d name =>
        have hd : d = c := Option.some.inj hsome
        exact hc (hd ▸ List.all_eq_true.mp hword d List.mem_cons_self)
  have hmax : max tmp.length 254 = 254 := Nat.max_eq_right (Nat.le_of_lt hroom)
  rw [expandLoop, if_neg (by omega), if_pos rfl, if_neg (hhead 0x3F (by decide)),
    if_neg (hhead 0x24 (by decide)), hread, List.take_of_length_le hlen]
  dsimp only
  rw [List.drop_left, putTmp, hmax]

theorem shellExpandVars_name {name pre post : Text} (hgood : GoodName name) (hne : name ≠ [])
    (hpre : 0x24 ∉ pre) (hroom : pre.length < 254) (hpost : 0x24 ∉ post)
    (hend : ∀ c, post.head? = some c → ¬ isWord c) :
    shellExpandVars s (pre ++ 0x24 :: (name ++ post)) =
      (pre ++ scGetvar s.env name ++ post).take 254 := by
  have hfuel : (pre ++ 0x24 :: (name ++ post)).length =
      pre.length + (name.length + post.length + 1) := by
    simp only [List.length_append, List.length_cons]
  unfold shellExpandVars
  rw [hfuel, expandLoop_plain s hpre _ [] _ (by rw [List.length_nil]; omega), List.nil_append,
    expandLoop_name s hgood hne hend hroom,
    expandLoop_rest s hpost _ _ (List.length_take_le _ _) (by omega), take_take_append]

end Expand

/-! ## Runs -/

/-- What the table has to do with the lines so far. -/
structure Agrees (env : Env) (lines : List Text) : Prop where
  find : ∀ name, findVar env name = (latest lines name).map fun val => val.take 63
  keys : ∀ key ∈ keys env, key ∈ names lines
  nodup : (Vars.keys env).Nodup

namespace Agrees
variable {env : Env} {lines : List Text} {line : Text}

theorem nil : Agrees [] [] := ⟨fun _ => rfl, fun _ h => (List.not_mem_nil h).elim, List.nodup_nil⟩

/-- There is room for one more name while there are fewer than `envMax` of them. -/
theorem room (h : Agrees env lines) (hnames : (names lines).toFinset.card < envMax) :
    env.length < envMax := by
  have hsub : (Vars.keys env).toFinset ⊆ (names lines).toFinset := by
    intro key hkey
    exact List.mem_toFinset.mpr (h.keys key (List.mem_toFinset.mp hkey))
  calc env.length
      = (Vars.keys env).length := (List.length_map _).symm
    _ = (Vars.keys env).toFinset.card := (List.toFinset_card_of_nodup h.nodup).symm
    _ ≤ (names lines).toFinset.card := Finset.card_le_card hsub
    _ < envMax := hnames

/-- A line that is no assignment leaves the table alone. -/
theorem skip (h : Agrees env lines) (hline : assigned line = none) :
    Agrees (exec env line) (lines ++ [line]) := by
  have hexec : exec env line = env := by
    unfold exec
    rw [parseAssignment_eq, hline, Option.map_none]
  rw [hexec]
  refine ⟨?_, ?_, h.nodup⟩
  · intro name
    rw [latest_snoc, assignLatest, hline]
    exact h.find name
  · intro key hkey
    rw [names_snoc]
    exact List.mem_append_left _ (h.keys key hkey)

/-- An assignment to a name that is not cut. -/
theorem assign (h : Agrees env lines) {name val : Text} (hline : assigned line = some (name, val))
    (hlen : name.length ≤ 23) (hnames : (names lines).toFinset.card < envMax) :
    Agrees (exec env line) (lines ++ [line]) := by
  have hexec : exec env line = scSetvar env name (val.take 63) := by
    unfold exec
    rw [parseAssignment_eq, hline, Option.map_some]
    dsimp only
    rw [List.take_of_length_le (by omega)]
  have hcut : name.take 23 = name := List.take_of_length_le hlen
  have htwice : (val.take 63).take 63 = val.take 63 := by rw [List.take_take, Nat.min_self]
  have hlatest : ∀ k, (latest (lines ++ [line]) k).map (fun val => val.take 63) =
      if k = name then some (val.take 63) else findVar env k := by
    intro k
    rw [latest_snoc, assignLatest, hline, h.find k]
    dsimp only
    rw [Function.update_apply]
    split <;> rfl
  rw [hexec, scSetvar, htwice, hcut]
  by_cases hmem : name ∈ Vars.keys env
  · rw [if_pos (mem_keys.mp hmem)]
    refine ⟨?_, ?_, by rw [keys_setEntry]; exact h.nodup⟩
    · intro k
      rw [findVar_setEntry hmem, hlatest]
    · intro key hkey
      rw [keys_setEntry] at hkey
      rw [names_snoc]
      exact List.mem_append_left _ (h.keys key hkey)
  · rw [if_neg fun he => hmem (mem_keys.mpr he), if_pos (h.room hnames)]
    refine ⟨?_, ?_, ?_⟩
    · intro k
      rw [findVar_append hmem, hlatest]
    · intro key hkey
      unfold Vars.keys at hkey
      rw [List.map_append, List.mem_append] at hkey
      rw [names_snoc, mem_names hline]
      obtain hold | hnew := hkey
      · exact List.mem_append_left _ (h.keys key hold)
      · exact List.mem_append_right _ hnew
    · unfold Vars.keys
      rw [List.map_append]
      exact List.nodup_append.mpr ⟨h.nodup, List.nodup_singleton _, by
        rintro key hkey key' hkey' rfl
        have hname : key = name := List.mem_singleton.mp hkey'
        exact hmem (hname ▸ hkey)⟩

end Agrees

theorem names_subset_snoc (lines : List Text) (line : Text) :
    (names lines).toFinset ⊆ (names (lines ++ [line])).toFinset := by
  intro name hname
  rw [names_snoc]
  exact List.mem_toFinset.mpr (List.mem_append_left _ (List.mem_toFinset.mp hname))

/-- The table after a run of lines whose names are not cut. -/
theorem run_agrees (lines : List Text) (hnames : (names lines).toFinset.card < envMax)
    (hgood : ∀ name ∈ names lines, name.length ≤ 23) : Agrees (lines.foldl exec []) lines := by
  induction lines using List.reverseRecOn with
  | nil => exact Agrees.nil
  | append_singleton lines line ih =>
      have hfew : (names lines).toFinset.card < envMax :=
        lt_of_le_of_lt (Finset.card_le_card (names_subset_snoc lines line)) hnames
      have hold := ih hfew fun name hname =>
        hgood name (by rw [names_snoc]; exact List.mem_append_left _ hname)
      rw [List.foldl_append, List.foldl_cons, List.foldl_nil]
      cases hline : assigned line with
      | none => exact hold.skip hline
      | some p =>
          obtain ⟨name, val⟩ := p
          have hlen : name.length ≤ 23 := hgood name (by
            rw [names_snoc, mem_names hline]
            exact List.mem_append_right _ List.mem_cons_self)
          exact hold.assign hline hlen hfew

/-- A name with a value is one that was assigned. -/
theorem mem_of_latest {lines : List Text} {name val : Text} (h : latest lines name = some val) :
    name ∈ names lines ∧ name ≠ [] := by
  induction lines using List.reverseRecOn with
  | nil => cases h
  | append_singleton lines line ih =>
      rw [latest_snoc, assignLatest] at h
      rw [names_snoc]
      cases hline : assigned line with
      | none =>
          rw [hline] at h
          exact ⟨List.mem_append_left _ (ih h).1, (ih h).2⟩
      | some p =>
          obtain ⟨k, v⟩ := p
          rw [hline] at h
          dsimp only at h
          by_cases hk : name = k
          · rw [hk, mem_names hline]
            exact ⟨List.mem_append_right _ List.mem_cons_self, assigned_ne_nil hline⟩
          · rw [Function.update_of_ne hk] at h
            exact ⟨List.mem_append_left _ (ih h).1, (ih h).2⟩

/-- **Variables.** In a run of lines that assign to fewer than `envMax` names, each of them at
most 23 letters, digits and underscores, the table holds the latest assignment to each name. -/
theorem run_holdsLatest (lines : List Text) (hnames : (names lines).toFinset.card < envMax)
    (hgood : ∀ name ∈ names lines, GoodName name) :
    HoldsLatest (lines.foldl exec []) (latest lines) := by
  have hrun := run_agrees lines hnames fun name hname => (hgood name hname).1
  have hget : ∀ name val, latest lines name = some val →
      scGetvar (lines.foldl exec []) name = val.take 63 := by
    intro name val hval
    unfold scGetvar
    rw [hrun.find, hval]
    rfl
  refine ⟨hget, ?_, ?_, hrun.nodup⟩
  · intro name hnone
    unfold scGetvar
    rw [hrun.find, hnone]
    rfl
  · intro name val hval code current pre post hpre hroom hpost hend
    obtain ⟨hmem, hne⟩ := mem_of_latest hval
    rw [shellExpandVars_name _ (hgood name hmem) hne hpre hroom hpost hend]
    dsimp only
    rw [hget name val hval]

/-- `A=1`, `PATH="/bin"`, `A=2`. -/
def assignments : List Text :=
  [[0x41, 0x3D, 0x31], [0x50, 0x41, 0x54, 0x48, 0x3D, 0x22, 0x2F, 0x62, 0x69, 0x6E, 0x22],
    [0x41, 0x3D, 0x32]]

theorem run_holdsLatest_assignments : HoldsLatest (assignments.foldl exec []) (latest assignments) :=
  run_holdsLatest assignments (by decide) (by decide)

/-- A name of 24 letters is stored under its first 23 and is not found again. -/
theorem name_of_24_lost : ¬ ∀ lines : List Text, (names lines).toFinset.card < envMax →
    HoldsLatest (lines.foldl exec []) (latest lines) := by
  intro h
  let line : Text := List.replicate 24 0x41 ++ [0x3D, 0x31]
  have hlost := (h [line] (by decide)).get (List.replicate 24 0x41) [0x31] (by decide)
  exact absurd hlost (by decide)

end OriaOS.Shell.Vars
