import OriaOS.Shell.Script

/-!
# Heads of blocks

The heads of `if`, `for` and `while` by their grammar: a condition, a variable with a list of
words, and behind either perhaps a semicolon with `then` or `do`. The engine copies a head into
a buffer of 128 bytes and a word into one of 96, so it reads the heads back that fit.
-/

namespace OriaOS.Shell.Script

open Vars (Text)

abbrev semicolon : UInt8 := 0x3B

/-! ## The grammar -/

/-- Only spaces. -/
def Blank (t : Text) : Prop := ∀ c ∈ t, c = space

/-- The end of a head: nothing, or a semicolon and perhaps the word. -/
def HeadEnd (word tail : Text) : Prop :=
  tail = [] ∨ ∃ pre post, Blank pre ∧ Blank post ∧
    (tail = semicolon :: pre ∨ tail = semicolon :: (pre ++ word ++ post))

/-- A condition: no semicolon, and no space at either end. -/
structure CondText (c : Text) : Prop where
  first : ∃ b rest, c = b :: rest ∧ b ≠ space
  last : ∃ rest b, c = rest ++ [b] ∧ b ≠ space
  plain : semicolon ∉ c

/-- `if COND`. -/
def IfHead (cond head : Text) : Prop :=
  ∃ pre post tail, Blank pre ∧ CondText cond ∧ Blank post ∧ HeadEnd kwThen tail ∧
    skipSpaces head = kwIf ++ (pre ++ (cond ++ (post ++ tail)))

/-- `while COND`. The condition is what stands in front of the semicolon, with its spaces. -/
def WhileHead (cond head : Text) : Prop :=
  ∃ tail, semicolon ∉ cond ∧ HeadEnd kwDo tail ∧ skipSpaces head = kwWhile ++ (cond ++ tail)

/-- A variable or a word of a list. -/
structure Word (w : Text) : Prop where
  ne : w ≠ []
  plain : ∀ c ∈ w, c ≠ space ∧ c ≠ semicolon

/-- The words of a list, each behind spaces. -/
def Spells : List Text → Text → Prop
  | [], t => Blank t
  | w :: ws, t =>
      ∃ gap rest, gap ≠ [] ∧ Blank gap ∧ Word w ∧ t = gap ++ (w ++ rest) ∧ Spells ws rest

/-- `for VAR in WORD...`. -/
def ForHead (var : Text) (ws : List Text) (head : Text) : Prop :=
  ∃ pre gap list tail, Blank pre ∧ Word var ∧ gap ≠ [] ∧ Blank gap ∧ Spells ws list ∧
    HeadEnd kwDo tail ∧
    skipSpaces head = kwFor ++ (pre ++ (var ++ (gap ++ (ascii ['i', 'n'] ++ (list ++ tail)))))

/-! ## What fits -/

/-- The head up to its semicolon. -/
def headText (head : Text) : Text := (skipSpaces head).takeWhile (· ≠ semicolon)

/-- The condition of an `if` fits into `cbuf`, and the bytes ` the` at its end do not make the
engine compare a byte that it has not written. -/
structure IfFits (cond : Text) : Prop where
  room : cond.length ≤ 127
  written : ¬ (ascii [' ', 't', 'h', 'e'] <:+ cond ∧ 5 < cond.length)

/-- The list of a `for` fits into `fbuf` and each word into `wbuf`. Behind `in` the engine
wants a space, also when no word follows. -/
structure ForFits (ws : List Text) (head : Text) : Prop where
  room : (headText head).length ≤ kwFor.length + 127
  words : ∀ w ∈ ws, w.length ≤ 95
  list : ws = [] → (headText head).getLast? = some space

/-! ## What the engine reads -/

section Read
variable {cond head var pre t tail : Text} {ws : List Text}

theorem HeadEnd.cases {word : Text} (h : HeadEnd word tail) :
    tail = [] ∨ ∃ rest, tail = semicolon :: rest := by
  rcases h with h | ⟨pre, post, -, -, h | h⟩
  · exact Or.inl h
  · exact Or.inr ⟨_, h⟩
  · exact Or.inr ⟨_, h⟩

theorem skipSpaces_blank (h : Blank pre) (t : Text) : skipSpaces (pre ++ t) = skipSpaces t :=
  List.dropWhile_append_of_pos fun c hc => decide_eq_true (h c hc)

theorem skipSpaces_cons {b : UInt8} (h : b ≠ space) (t : Text) : skipSpaces (b :: t) = b :: t :=
  List.dropWhile_cons_of_neg (by simpa using h)

theorem stripSpaces_blank {b : UInt8} (hb : b ≠ space) (h : Blank pre) (t : Text) :
    stripSpaces (t ++ [b] ++ pre) = t ++ [b] := by
  have hrev : ∀ c ∈ pre.reverse, c = space := fun c hc => h c (List.mem_reverse.mp hc)
  rw [stripSpaces, List.reverse_append,
    List.dropWhile_append_of_pos fun c hc => decide_eq_true (hrev c hc), List.reverse_append,
    List.reverse_singleton, List.singleton_append, List.dropWhile_cons_of_neg (by simpa using hb),
    List.reverse_cons, List.reverse_reverse]

/-- What stands in front of the end of a head has no semicolon. -/
theorem takeWhile_head {word : Text} (ht : semicolon ∉ t) (htail : HeadEnd word tail) :
    (t ++ tail).takeWhile (· ≠ semicolon) = t := by
  have hall : ∀ c ∈ t, decide (c ≠ semicolon) = true := by
    intro c hc
    rw [decide_eq_true_eq]
    intro heq
    exact ht (heq ▸ hc)
  rw [List.takeWhile_append_of_pos hall]
  rcases htail.cases with rfl | ⟨rest, rfl⟩
  · rw [List.takeWhile_nil, List.append_nil]
  · rw [List.takeWhile_cons_of_neg (by simp), List.append_nil]

theorem Blank.noSemicolon (h : Blank pre) : semicolon ∉ pre := by
  intro hmem
  exact absurd (h _ hmem) (by decide)

theorem Word.noSemicolon (h : Word t) : semicolon ∉ t := fun hmem => (h.plain _ hmem).2 rfl

theorem IfHead.opens (h : IfHead cond head) : kwIf.isPrefixOf (skipSpaces head) = true := by
  obtain ⟨pre, post, tail, -, -, -, -, heq⟩ := h
  rw [heq]
  exact List.isPrefixOf_iff_prefix.mpr (List.prefix_append _ _)

theorem ForHead.opens (h : ForHead var ws head) : kwFor.isPrefixOf (skipSpaces head) = true := by
  obtain ⟨pre, gap, list, tail, -, -, -, -, -, -, heq⟩ := h
  rw [heq]
  exact List.isPrefixOf_iff_prefix.mpr (List.prefix_append _ _)

theorem WhileHead.opens (h : WhileHead cond head) :
    kwWhile.isPrefixOf (skipSpaces head) = true := by
  obtain ⟨tail, -, -, heq⟩ := h
  rw [heq]
  exact List.isPrefixOf_iff_prefix.mpr (List.prefix_append _ _)

theorem IfHead.read (h : IfHead cond head) (hfits : IfFits cond) :
    ifCond (skipSpaces head) = cond := by
  obtain ⟨pre, post, tail, hpre, ⟨hfirst, hlast, hplain⟩, hpost, htail, heq⟩ := h
  have hroom := hfits.room
  have htext : semicolon ∉ cond ++ post := by
    rw [List.mem_append]
    exact not_or.mpr ⟨hplain, hpost.noSemicolon⟩
  have hskip : skipSpaces ((skipSpaces head).drop 3) = cond ++ post ++ tail := by
    obtain ⟨b, rest, hc, hb⟩ := hfirst
    rw [heq, show (kwIf ++ (pre ++ (cond ++ (post ++ tail)))).drop 3 =
      pre ++ (cond ++ (post ++ tail)) from rfl, skipSpaces_blank hpre, ← List.append_assoc, hc]
    exact skipSpaces_cons hb _
  obtain ⟨rest, b, hc, hb⟩ := hlast
  have hblank : Blank (post.take (127 - cond.length)) :=
    fun c hmem => hpost c (List.mem_of_mem_take hmem)
  rw [ifCond, hskip, takeWhile_head htext htail, List.take_append, List.take_of_length_le hroom]
  calc stripSpaces (cond ++ post.take (127 - cond.length))
      _ = stripSpaces (rest ++ [b] ++ post.take (127 - cond.length)) := by rw [← hc]
      _ = rest ++ [b] := stripSpaces_blank hb hblank rest
      _ = cond := hc.symm

theorem WhileHead.read (h : WhileHead cond head) (hroom : cond.length ≤ 127) :
    whileCond (skipSpaces head) = cond := by
  obtain ⟨tail, hplain, htail, heq⟩ := h
  rw [whileCond, heq, show (kwWhile ++ (cond ++ tail)).drop 6 = cond ++ tail from rfl,
    takeWhile_head hplain htail, List.take_of_length_le hroom]

/-- A word is read to its end. -/
theorem words_word {acc rest : Text} (hw : ∀ c ∈ t, c ≠ space)
    (hroom : acc.length + t.length ≤ 95) : words (t ++ rest) acc = words rest (acc ++ t) := by
  induction t generalizing acc with
  | nil => rw [List.nil_append, List.append_nil]
  | cons c t ih =>
      rw [List.length_cons] at hroom
      rw [List.cons_append, words, if_neg (hw c List.mem_cons_self), if_pos (by omega),
        ih (fun b hb => hw b (List.mem_cons_of_mem c hb)) (by
          rw [List.length_append, List.length_singleton]
          omega), List.append_assoc, List.singleton_append]

theorem words_blank {rest : Text} (h : Blank pre) : words (pre ++ rest) [] = words rest [] := by
  induction pre with
  | nil => rfl
  | cons c pre ih =>
      rw [List.cons_append, words, if_pos (h c List.mem_cons_self), if_pos rfl,
        ih fun b hb => h b (List.mem_cons_of_mem c hb)]

/-- Behind a word comes a space, or nothing. -/
theorem words_end {acc rest : Text} (hacc : acc ≠ []) (h : Spells ws rest) :
    words rest acc = acc :: words rest [] := by
  have hspace : ∀ t, words (space :: t) acc = acc :: words (space :: t) [] := by
    intro t
    rw [words, if_pos rfl, if_neg hacc, words, if_pos rfl, if_pos rfl]
  cases rest with
  | nil => rw [words, if_neg hacc, words, if_pos rfl]
  | cons c rest =>
      have hc : c = space := by
        cases ws with
        | nil => exact h c List.mem_cons_self
        | cons w ws =>
            obtain ⟨gap, rest', hne, hgap, -, heq, -⟩ := h
            obtain ⟨b, gap, rfl⟩ := List.exists_cons_of_ne_nil hne
            rw [(List.cons.inj heq).1]
            exact hgap b List.mem_cons_self
      rw [hc]
      exact hspace rest

theorem words_spells (h : Spells ws t) (hroom : ∀ w ∈ ws, w.length ≤ 95) : words t [] = ws := by
  induction ws generalizing t with
  | nil =>
      have hblank : words (t ++ []) [] = words [] [] := words_blank h
      rwa [List.append_nil] at hblank
  | cons w ws ih =>
      obtain ⟨gap, rest, -, hgap, hw, rfl, hrest⟩ := h
      rw [words_blank hgap, words_word (fun c hc => (hw.plain c hc).1)
        (by simpa using hroom w List.mem_cons_self), List.nil_append, words_end hw.ne hrest,
        ih hrest fun v hv => hroom v (List.mem_cons_of_mem w hv)]

theorem Spells.noSemicolon (h : Spells ws t) : semicolon ∉ t := by
  induction ws generalizing t with
  | nil => exact Blank.noSemicolon h
  | cons w ws ih =>
      obtain ⟨gap, rest, -, hgap, hw, rfl, hrest⟩ := h
      simp only [List.mem_append, not_or]
      exact ⟨hgap.noSemicolon, hw.noSemicolon, ih hrest⟩

/-- A list begins with a space, unless it is empty. -/
theorem Spells.first (h : Spells ws t) (hne : ws ≠ [] ∨ t ≠ []) : ∃ rest, t = space :: rest := by
  cases ws with
  | nil =>
      obtain ⟨c, rest, rfl⟩ := List.exists_cons_of_ne_nil (hne.resolve_left fun h => h rfl)
      exact ⟨rest, by rw [h c List.mem_cons_self]⟩
  | cons w ws =>
      obtain ⟨gap, rest, hgap, hblank, -, rfl, -⟩ := h
      obtain ⟨c, gap, rfl⟩ := List.exists_cons_of_ne_nil hgap
      exact ⟨gap ++ (w ++ rest), by rw [hblank c List.mem_cons_self, List.cons_append]⟩

theorem ForHead.read (h : ForHead var ws head) (hfits : ForFits ws head) :
    forVar (skipSpaces head) = var ∧ forWords (skipSpaces head) = ws := by
  obtain ⟨pre, gap, list, tail, hpre, hvar, hne, hgap, hlist, htail, heq⟩ := h
  obtain ⟨hroom, hwords, hempty⟩ := hfits
  set body := pre ++ (var ++ (gap ++ (ascii ['i', 'n'] ++ list))) with hbody
  have hline : skipSpaces head = kwFor ++ (body ++ tail) := by
    rw [heq, hbody]
    simp only [List.append_assoc]
  have hplain : semicolon ∉ body := by
    have hin : semicolon ∉ ascii ['i', 'n'] := by decide
    simp only [hbody, List.mem_append, not_or]
    exact ⟨hpre.noSemicolon, hvar.noSemicolon, hgap.noSemicolon, hin, hlist.noSemicolon⟩
  have htext : headText head = kwFor ++ body := by
    have hfor : semicolon ∉ kwFor := by decide
    rw [headText, hline, ← List.append_assoc]
    apply takeWhile_head _ htail
    rw [List.mem_append]
    exact not_or.mpr ⟨hfor, hplain⟩
  rw [htext, List.length_append] at hroom
  have hfor : forText (skipSpaces head) = var ++ (gap ++ (ascii ['i', 'n'] ++ list)) := by
    obtain ⟨b, var', rfl⟩ := List.exists_cons_of_ne_nil hvar.ne
    rw [forText, hline, show (kwFor ++ (body ++ tail)).drop 4 = body ++ tail from rfl,
      takeWhile_head hplain htail, List.take_of_length_le (by omega), hbody, skipSpaces_blank hpre]
    exact skipSpaces_cons (hvar.plain b List.mem_cons_self).1 _
  have hvarAll : ∀ c ∈ var, decide (c ≠ space) = true :=
    fun c hc => decide_eq_true (hvar.plain c hc).1
  obtain ⟨c, gap', rfl⟩ := List.exists_cons_of_ne_nil hne
  have hc : c = space := hgap c List.mem_cons_self
  have hgap' : Blank gap' := fun b hb => hgap b (List.mem_cons_of_mem c hb)
  constructor
  · rw [forVar, hfor, List.takeWhile_append_of_pos hvarAll, List.cons_append,
      List.takeWhile_cons_of_neg (by simp [hc]), List.append_nil]
  · have hfirst : ∃ rest, list = space :: rest := by
      apply hlist.first
      by_contra hnone
      obtain ⟨hws, hnil⟩ := not_or.mp hnone
      have hlast := hempty (not_not.mp hws)
      have hends : kwFor ++ (pre ++ (var ++ (c :: gap' ++ (ascii ['i', 'n'] ++ [])))) =
          kwFor ++ (pre ++ (var ++ (c :: gap' ++ [0x69]))) ++ [0x6E] := by simp [ascii]
      rw [htext, hbody, not_not.mp hnil, hends, List.getLast?_concat] at hlast
      exact absurd hlast (by decide)
    obtain ⟨rest, rfl⟩ := hfirst
    have hread : words rest [] = ws := by
      have hspells := words_spells hlist hwords
      rwa [words, if_pos rfl, if_pos rfl] at hspells
    have hfin : skipSpaces (((forText (skipSpaces head)).dropWhile (· ≠ space)).drop 1) =
        kwIn ++ rest := by
      rw [hfor, List.dropWhile_append_of_pos hvarAll, List.cons_append,
        List.dropWhile_cons_of_neg (by simp [hc]), List.drop_succ_cons, List.drop_zero,
        skipSpaces_blank hgap']
      rfl
    have hin : kwIn.isPrefixOf (kwIn ++ rest) = true :=
      List.isPrefixOf_iff_prefix.mpr (List.prefix_append _ _)
    rw [forWords]
    simp only [hfin, hin, if_true]
    exact hread

end Read

end OriaOS.Shell.Script
