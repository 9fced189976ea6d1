import OriaOS.Lib.Commands
import OriaOS.Lib.Partial
import OriaOS.Shell.Heads

/-!
# Control flow of scripts

Scripts of properly nested blocks, their meaning by structure, and the run of the engine over
their lines. The searches for the end of a block count every `if`, `for` and `while` up, and
only one closing word down, so that they miss the end of an `if` that holds a loop and of a
loop that holds an `if`: always, as `loop_end_missed` and `if_end_missed` say.
-/

namespace OriaOS.Shell.Script

open OriaOS.Lib
open Vars (Text parseAssignment)

variable {sep : List Text} {i start : Nat} {done head t : Text}

/-- The state that a piece of work ends in, when it runs no script. -/
def Work.result {ω : Type} : Work ω → ω
  | .done w => w
  | .script _ w _ => w

/-! ## Scripts by structure -/

/-- A script, line by line. A block has what its head says, a condition or a variable with a
list of words, beside the line that says it. The lists of lines are the `then`, `do` and `else`
that a block may have; a block without an `else` has an empty other branch. -/
inductive Program where
  | nil
  | skip (line : Text) (rest : Program)
  | simple (line : Text) (rest : Program)
  | ite (cond head : Text) (sep : List Text) (body : Program) (els : List Text) (other : Program)
      (fi : Text) (rest : Program)
  | forIn (var : Text) (ws : List Text) (head : Text) (sep : List Text) (body : Program)
      (done : Text) (rest : Program)
  | whileDo (cond head : Text) (sep : List Text) (body : Program) (done : Text) (rest : Program)

namespace Program

/-- The lines of a script. -/
def lines : Program → List Text
  | nil => []
  | skip line rest => line :: rest.lines
  | simple line rest => line :: rest.lines
  | ite _ head sep body els other fi rest =>
      head :: (sep ++ (body.lines ++ (els ++ (other.lines ++ fi :: rest.lines))))
  | forIn _ _ head sep body done rest => head :: (sep ++ (body.lines ++ done :: rest.lines))
  | whileDo _ head sep body done rest => head :: (sep ++ (body.lines ++ done :: rest.lines))

/-- At most one line, which is the word. -/
def MayBe (word : Text) (l : List Text) : Prop :=
  l = [] ∨ ∃ line, l = [line] ∧ skipSpaces line = word

variable {ω : Type}

/-- A command that is no head, end or definition, runs no script and calls no function. -/
structure IsSimple (sh : Host ω) (funcs : List Func) (line : Text) : Prop where
  notSkipped : line ≠ [] ∧ line.head? ≠ some 0x23
  notHead : opens line = false
  notKeyword : isKeyword line = false
  notFunction : funcHead line = none
  command : parseAssignment line = none →
    funcFind funcs (cmdName line) = none ∧ ∀ w, ∃ w', sh.execute (line.take 255) w = .done w'

/-- Every line of the script is what its place says. -/
def WellFormed (sh : Host ω) (funcs : List Func) : Program → Prop
  | nil => True
  | skip line rest =>
      (skipSpaces line = [] ∨ (skipSpaces line).head? = some 0x23) ∧ rest.WellFormed sh funcs
  | simple line rest => IsSimple sh funcs (skipSpaces line) ∧ rest.WellFormed sh funcs
  | ite cond head sep body els other fi rest =>
      IfHead cond head ∧ MayBe kwThen sep ∧ MayBe kwElse els ∧ (els = [] → other = nil) ∧
        skipSpaces fi = kwFi ∧ body.WellFormed sh funcs ∧ other.WellFormed sh funcs ∧
        rest.WellFormed sh funcs
  | forIn var ws head sep body done rest =>
      ForHead var ws head ∧ MayBe kwDo sep ∧ skipSpaces done = kwDone ∧
        body.WellFormed sh funcs ∧ rest.WellFormed sh funcs
  | whileDo cond head sep body done rest =>
      WhileHead cond head ∧ MayBe kwDo sep ∧ skipSpaces done = kwDone ∧
        body.WellFormed sh funcs ∧ rest.WellFormed sh funcs

/-- Every head fits into the buffers of the engine. -/
def Fits : Program → Prop
  | nil => True
  | skip _ rest => rest.Fits
  | simple _ rest => rest.Fits
  | ite cond _ _ body _ other _ rest => IfFits cond ∧ body.Fits ∧ other.Fits ∧ rest.Fits
  | forIn _ ws head _ body _ rest => ForFits ws head ∧ body.Fits ∧ rest.Fits
  | whileDo cond _ _ body _ rest => cond.length ≤ 127 ∧ body.Fits ∧ rest.Fits

/-- No command is left in the block. -/
def Silent : Program → Prop
  | nil => True
  | skip _ rest => rest.Silent
  | simple .. | ite .. | forIn .. | whileDo .. => False

/-! ## The meaning of a script -/

/-- A simple command. -/
def perform (sh : Host ω) (line : Text) (w : ω) : ω :=
  match parseAssignment line with
  | some (key, val) => sh.setvar key val w
  | none => (sh.execute (line.take 255) w).result

/-- What is asked of a run: how many turns a `while` may make, and the states that commands
may leave, other than the last one of a block. -/
structure Limits (ω : Type) where
  turns : Nat → Prop
  after : ω → Prop

def Limits.free : Limits ω := ⟨fun _ => True, fun _ => True⟩

/-- The meaning of a script. -/
def Runs (sh : Host ω) (lim : Limits ω) : Program → ω → ω → Prop
  | nil => fun w w' => w' = w
  | skip _ rest => rest.Runs sh lim
  | simple line rest => fun w w' =>
      (parseAssignment (skipSpaces line) = none →
        lim.after (perform sh (skipSpaces line) w) ∨ rest.Silent) ∧
        rest.Runs sh lim (perform sh (skipSpaces line) w) w'
  | ite cond _ _ body _ other _ rest => fun w w' =>
      ∃ u, (if sh.cond cond w then body.Runs sh lim w u else other.Runs sh lim w u) ∧
        rest.Runs sh lim u w'
  | forIn var ws _ _ body _ rest => fun w w' =>
      ∃ u, each (fun word s t => body.Runs sh lim (sh.setvar var word s) t) ws w u ∧
        rest.Runs sh lim u w'
  | whileDo cond _ _ body _ rest => fun w w' =>
      ∃ n u, lim.turns n ∧ turns (sh.cond cond) (body.Runs sh lim) n w u ∧ rest.Runs sh lim u w'

/-- A block without commands does nothing. -/
theorem Silent.runs {sh : Host ω} {lim : Limits ω} {p : Program} (hp : p.Silent) {w w' : ω}
    (h : p.Runs sh lim w w') : w' = w := by
  induction p with
  | nil => exact h
  | skip line rest ih => exact ih hp h
  | simple => exact hp.elim
  | ite => exact hp.elim
  | forIn => exact hp.elim
  | whileDo => exact hp.elim

/-- A run with limits is a run. -/
theorem Runs.free {sh : Host ω} {lim : Limits ω} {p : Program} {w w' : ω}
    (h : p.Runs sh lim w w') : p.Runs sh Limits.free w w' := by
  induction p generalizing w w' with
  | nil => exact h
  | skip line rest ih => exact ih h
  | simple line rest ih => exact ⟨fun _ => Or.inl trivial, ih h.2⟩
  | ite cond head sep body els other fi rest ihbody ihother ihrest =>
      obtain ⟨u, hbranch, hrest⟩ := h
      refine ⟨u, ?_, ihrest hrest⟩
      split at hbranch
      · rw [if_pos ‹_›]
        exact ihbody hbranch
      · rw [if_neg ‹_›]
        exact ihother hbranch
  | forIn var ws head sep body done rest ihbody ihrest =>
      obtain ⟨u, hloop, hrest⟩ := h
      exact ⟨u, each_mono (fun _ _ _ => ihbody) hloop, ihrest hrest⟩
  | whileDo cond head sep body done rest ihbody ihrest =>
      obtain ⟨n, u, -, hloop, hrest⟩ := h
      exact ⟨n, u, trivial, turns_mono (fun _ _ => ihbody) hloop, ihrest hrest⟩

/-- A script has one result at most. -/
theorem Runs.unique {sh : Host ω} {lim : Limits ω} {p : Program} {w u v : ω}
    (h : p.Runs sh lim w u) (h' : p.Runs sh lim w v) : u = v := by
  induction p generalizing w u v with
  | nil => exact h.trans h'.symm
  | skip line rest ih => exact ih h h'
  | simple line rest ih => exact ih h.2 h'.2
  | ite cond head sep body els other fi rest ihbody ihother ihrest =>
      obtain ⟨s, hbranch, hrest⟩ := h
      obtain ⟨t, hbranch', hrest'⟩ := h'
      have hst : s = t := by
        split at hbranch
        · rw [if_pos ‹_›] at hbranch'
          exact ihbody hbranch hbranch'
        · rw [if_neg ‹_›] at hbranch'
          exact ihother hbranch hbranch'
      exact ihrest hrest (hst ▸ hrest')
  | forIn var ws head sep body done rest ihbody ihrest =>
      obtain ⟨s, hloop, hrest⟩ := h
      obtain ⟨t, hloop', hrest'⟩ := h'
      have hst : s = t := by
        refine each_unique ?_ hloop hloop'
        exact fun _ _ _ _ => ihbody
      exact ihrest hrest (hst ▸ hrest')
  | whileDo cond head sep body done rest ihbody ihrest =>
      obtain ⟨n, s, -, hloop, hrest⟩ := h
      obtain ⟨m, t, -, hloop', hrest'⟩ := h'
      have hst : s = t := by
        refine turns_unique ?_ hloop hloop'
        exact fun _ _ _ => ihbody
      exact ihrest hrest (hst ▸ hrest')

/-! ## Blocks of one kind -/

/-- Every block of the script ends with the word. -/
def ClosedBy (kw : Text) : Program → Prop
  | nil => True
  | skip _ rest => rest.ClosedBy kw
  | simple _ rest => rest.ClosedBy kw
  | ite _ _ _ body _ other _ rest =>
      kw = kwFi ∧ body.ClosedBy kw ∧ other.ClosedBy kw ∧ rest.ClosedBy kw
  | forIn _ _ _ _ body _ rest => kw = kwDone ∧ body.ClosedBy kw ∧ rest.ClosedBy kw
  | whileDo _ _ _ body _ rest => kw = kwDone ∧ body.ClosedBy kw ∧ rest.ClosedBy kw

/-- The number of blocks of the script that the word does not close. -/
def openLeft (kw : Text) : Program → Nat
  | nil => 0
  | skip _ rest => rest.openLeft kw
  | simple _ rest => rest.openLeft kw
  | ite _ _ _ body _ other _ rest =>
      rest.openLeft kw + ((if kw = kwFi then 0 else 1) + (other.openLeft kw + body.openLeft kw))
  | forIn _ _ _ _ body _ rest =>
      rest.openLeft kw + ((if kw = kwDone then 0 else 1) + body.openLeft kw)
  | whileDo _ _ _ body _ rest =>
      rest.openLeft kw + ((if kw = kwDone then 0 else 1) + body.openLeft kw)

theorem closedBy_iff {kw : Text} {p : Program} : p.ClosedBy kw ↔ p.openLeft kw = 0 := by
  induction p with
  | nil => exact iff_of_true trivial rfl
  | skip line rest ih => exact ih
  | simple line rest ih => exact ih
  | ite cond head sep body els other fi rest ihbody ihother ihrest =>
      simp only [ClosedBy, openLeft, ihbody, ihother, ihrest, Nat.add_eq_zero_iff,
        ite_eq_left_iff, one_ne_zero, imp_false, not_not]
      tauto
  | forIn var ws head sep body done rest ihbody ihrest =>
      simp only [ClosedBy, openLeft, ihbody, ihrest, Nat.add_eq_zero_iff,
        ite_eq_left_iff, one_ne_zero, imp_false, not_not]
      tauto
  | whileDo cond head sep body done rest ihbody ihrest =>
      simp only [ClosedBy, openLeft, ihbody, ihrest, Nat.add_eq_zero_iff,
        ite_eq_left_iff, one_ne_zero, imp_false, not_not]
      tauto

/-- No `if` holds a loop and no loop holds an `if`. -/
def Unmixed : Program → Prop
  | nil => True
  | skip _ rest => rest.Unmixed
  | simple _ rest => rest.Unmixed
  | ite _ _ _ body _ other _ rest =>
      body.ClosedBy kwFi ∧ other.ClosedBy kwFi ∧ body.Unmixed ∧ other.Unmixed ∧ rest.Unmixed
  | forIn _ _ _ _ body _ rest => body.ClosedBy kwDone ∧ body.Unmixed ∧ rest.Unmixed
  | whileDo _ _ _ body _ rest => body.ClosedBy kwDone ∧ body.Unmixed ∧ rest.Unmixed

end Program

/-! ## Lines in place -/

/-- The lines stand in the array from an index on. -/
def HasLines (a : Nat → Text) : Nat → List Text → Prop
  | _, [] => True
  | i, l :: ls => a i = l ∧ HasLines a (i + 1) ls

theorem hasLines_append {a : Nat → Text} {l l' : List Text} :
    HasLines a i (l ++ l') ↔ HasLines a i l ∧ HasLines a (i + l.length) l' := by
  induction l generalizing i with
  | nil => simp [HasLines]
  | cons x l ih =>
      have hlen : i + 1 + l.length = i + (x :: l).length := by
        rw [List.length_cons]
        omega
      rw [List.cons_append, HasLines, HasLines, ih, hlen, and_assoc]

/-! ## The searches -/

/-- A line that no search counts or stops at. -/
def Passed (t : Text) : Prop := opens t = false ∧ t ≠ kwElse ∧ t ≠ kwFi ∧ t ≠ kwDone

instance (t : Text) : Decidable (Passed t) := inferInstanceAs (Decidable (_ ∧ _ ∧ _ ∧ _))

theorem passed_then : Passed kwThen := by decide
theorem passed_do : Passed kwDo := by decide

theorem not_keyword_of_opens (h : opens t = true) : isKeyword t = false := by
  by_contra hkw
  rw [Bool.not_eq_false] at hkw
  unfold isKeyword at hkw
  simp only [Bool.or_eq_true, decide_eq_true_eq] at hkw
  obtain (((rfl | rfl) | rfl) | rfl) | rfl := hkw
  all_goals exact absurd h (by decide)

theorem ne_of_not_keyword (h : isKeyword t = false) :
    t ≠ kwThen ∧ t ≠ kwElse ∧ t ≠ kwFi ∧ t ≠ kwDo ∧ t ≠ kwDone := by
  unfold isKeyword at h
  simp only [Bool.or_eq_false_iff, decide_eq_false_iff_not] at h
  obtain ⟨⟨⟨⟨h1, h2⟩, h3⟩, h4⟩, h5⟩ := h
  exact ⟨h1, h2, h3, h4, h5⟩

theorem opens_of_head (h : kwIf.isPrefixOf t ∨ kwFor.isPrefixOf t ∨ kwWhile.isPrefixOf t) :
    opens t = true := by
  unfold opens
  obtain h | h | h := h
  all_goals simp [h]

theorem skipped_not_keyword (h : t = [] ∨ t.head? = some 0x23) :
    opens t = false ∧ isKeyword t = false := by
  obtain rfl | h := h
  · decide
  · obtain ⟨rest, rfl⟩ : ∃ rest, t = 0x23 :: rest := by
      cases t with
      | nil => cases h
      | cons c rest => exact ⟨rest, by rw [Option.some.inj h]⟩
    constructor
    · rfl
    · rfl

section Searches
variable {ω σ ρ : Type} {sh : Host ω} {e : Engine ω} {kw : Text}

/-- A search that counts blocks: a line that opens one counts up, the closing word down, and
the word that closes other blocks does not count. -/
structure Counts (e : Engine ω) (kw : Text) (run : Nat → Nat → σ → ρ) (up : σ → σ) : Prop where
  passed : ∀ j s, Passed (e.line j) → Moves run j (j + 1) s s
  opened : ∀ j s, opens (e.line j) = true → Moves run j (j + 1) s (up s)
  inner : ∀ j s, e.line j = kwElse → Moves run j (j + 1) (up s) (up s)
  closed : ∀ j s word, word = kwFi ∨ word = kwDone → e.line j = word →
    Moves run j (j + 1) (up s) (up^[if kw = word then 0 else 1] s)

theorem line_of_lines {l : Text} (h : e.lines i = l) (ht : skipSpaces l = t) : e.line i = t := by
  rw [Engine.line, h, ht]

/-- A word on a line of its own, or no line. -/
theorem Moves.mayBe {run : Nat → Nat → σ → ρ} {word : Text} {l : List Text} {j : Nat} {s : σ}
    (hl : Program.MayBe word l) (hlines : HasLines e.lines j l)
    (hword : e.line j = word → Moves run j (j + 1) s s) : Moves run j (j + l.length) s s := by
  obtain rfl | ⟨line, rfl, hline⟩ := hl
  · exact Moves.refl run j s
  · exact hword (line_of_lines hlines.1 hline)

namespace Counts
variable {run : Nat → Nat → σ → ρ} {up : σ → σ}

/-- Who has counted up once more counts on as before. -/
theorem iterate_up (up : σ → σ) (n : Nat) (s : σ) : up^[n] (up s) = up (up^[n] s) := by
  rw [← Function.iterate_succ_apply, Function.iterate_succ_apply']

/-- A loop is passed when its body and what is behind it are. -/
theorem loop (h : Counts e kw run up) {n m k : Nat} {s t : σ} (hopen : opens (e.line i) = true)
    (hsep : Program.MayBe kwDo sep) (hlsep : HasLines e.lines (i + 1) sep)
    (hbody : Moves run (i + 1 + sep.length) (i + 1 + sep.length + n) (up s) (up^[k] (up s)))
    (hldone : e.lines (i + 1 + sep.length + n) = done) (hdone : skipSpaces done = kwDone)
    (hrest : Moves run (i + 1 + sep.length + n + 1) (i + 1 + sep.length + n + 1 + m)
      (up^[if kw = kwDone then 0 else 1] (up^[k] s)) t) :
    Moves run i (i + 1 + sep.length + n + 1 + m) s t := by
  rw [iterate_up] at hbody
  exact (h.opened i s hopen).trans <|
    (Moves.mayBe hsep hlsep fun hdo => h.passed _ _ (hdo ▸ passed_do)).trans <|
      hbody.trans <|
        (h.closed _ _ kwDone (Or.inr rfl) (line_of_lines hldone hdone)).trans hrest

/-- A script is passed, and each of its blocks that the word does not close has counted up. -/
theorem counted (h : Counts e kw run up) {p : Program} (hwf : p.WellFormed sh e.funcs)
    (hlines : HasLines e.lines i p.lines) (s : σ) :
    Moves run i (i + p.lines.length) s (up^[p.openLeft kw] s) := by
  induction p generalizing i s with
  | nil => exact Moves.refl run i s
  | skip line rest ih =>
      obtain ⟨hline, hrest⟩ := hlines
      obtain ⟨hopens, hword⟩ := skipped_not_keyword hwf.1
      obtain ⟨-, helse, hfi, -, hdone⟩ := ne_of_not_keyword hword
      have hpassed : Passed (e.line i) := by
        rw [line_of_lines hline rfl]
        exact ⟨hopens, helse, hfi, hdone⟩
      have hmove := (h.passed i s hpassed).trans (ih hwf.2 hrest s)
      rwa [Nat.add_assoc, Nat.add_comm 1] at hmove
  | simple line rest ih =>
      obtain ⟨hline, hrest⟩ := hlines
      obtain ⟨-, helse, hfi, -, hdone⟩ := ne_of_not_keyword hwf.1.notKeyword
      have hpassed : Passed (e.line i) := by
        rw [line_of_lines hline rfl]
        exact ⟨hwf.1.notHead, helse, hfi, hdone⟩
      have hmove := (h.passed i s hpassed).trans (ih hwf.2 hrest s)
      rwa [Nat.add_assoc, Nat.add_comm 1] at hmove
  | ite cond head sep body els other fi rest ihbody ihother ihrest =>
      obtain ⟨hif, hsep, hels, -, hfi, hwbody, hwother, hwrest⟩ := hwf
      obtain ⟨hhead, hlines⟩ := hlines
      obtain ⟨hlsep, hlines⟩ := hasLines_append.mp hlines
      obtain ⟨hlbody, hlines⟩ := hasLines_append.mp hlines
      obtain ⟨hlels, hlines⟩ := hasLines_append.mp hlines
      obtain ⟨hlother, hlfi, hlrest⟩ := hasLines_append.mp hlines
      have hopen : opens (e.line i) = true := by
        rw [line_of_lines hhead rfl]
        exact opens_of_head (Or.inl hif.opens)
      have hbody := ihbody hwbody hlbody (up s)
      rw [iterate_up] at hbody
      have hother := ihother hwother hlother (up (up^[body.openLeft kw] s))
      rw [iterate_up, ← Function.iterate_add_apply] at hother
      have hmove := (h.opened i s hopen).trans <|
        (Moves.mayBe hsep hlsep fun hthen => h.passed _ _ (hthen ▸ passed_then)).trans <|
        hbody.trans <| (Moves.mayBe hels hlels (h.inner _ _)).trans <| hother.trans <|
        (h.closed _ _ kwFi (Or.inl rfl) (line_of_lines hlfi hfi)).trans (ihrest hwrest hlrest _)
      simp only [← Function.iterate_add_apply, Nat.add_assoc] at hmove
      refine cast (congrArg (fun b => Moves run i b s _) ?_) hmove
      simp only [Program.lines, List.length_append, List.length_cons]
      omega
  | forIn var ws head sep body done rest ihbody ihrest =>
      obtain ⟨hhd, hsep, hdone, hwbody, hwrest⟩ := hwf
      obtain ⟨hhead, hlines⟩ := hlines
      obtain ⟨hlsep, hlines⟩ := hasLines_append.mp hlines
      obtain ⟨hlbody, hldone, hlrest⟩ := hasLines_append.mp hlines
      have hopen : opens (e.line i) = true := by
        rw [line_of_lines hhead rfl]
        exact opens_of_head (Or.inr (Or.inl hhd.opens))
      have hmove := h.loop hopen hsep hlsep (ihbody hwbody hlbody (up s)) hldone hdone
        (ihrest hwrest hlrest _)
      simp only [← Function.iterate_add_apply, Nat.add_assoc] at hmove
      refine cast (congrArg (fun b => Moves run i b s _) ?_) hmove
      simp only [Program.lines, List.length_append, List.length_cons]
      omega
  | whileDo cond head sep body done rest ihbody ihrest =>
      obtain ⟨hhd, hsep, hdone, hwbody, hwrest⟩ := hwf
      obtain ⟨hhead, hlines⟩ := hlines
      obtain ⟨hlsep, hlines⟩ := hasLines_append.mp hlines
      obtain ⟨hlbody, hldone, hlrest⟩ := hasLines_append.mp hlines
      have hopen : opens (e.line i) = true := by
        rw [line_of_lines hhead rfl]
        exact opens_of_head (Or.inr (Or.inr hhd.opens))
      have hmove := h.loop hopen hsep hlsep (ihbody hwbody hlbody (up s)) hldone hdone
        (ihrest hwrest hlrest _)
      simp only [← Function.iterate_add_apply, Nat.add_assoc] at hmove
      refine cast (congrArg (fun b => Moves run i b s _) ?_) hmove
      simp only [Program.lines, List.length_append, List.length_cons]
      omega

/-- A script whose blocks all end with the word is passed as a whole. -/
theorem program (h : Counts e kw run up) {p : Program} (hwf : p.WellFormed sh e.funcs)
    (hkw : p.ClosedBy kw) (hlines : HasLines e.lines i p.lines) (s : σ) :
    Moves run i (i + p.lines.length) s s := by
  have hmove := h.counted hwf hlines s
  rwa [Program.closedBy_iff.mp hkw, Function.iterate_zero_apply] at hmove

end Counts

/-- The search for `fi`, on its depth and the `else` it has seen. -/
def fiSearch (e : Engine ω) (n j : Nat) (s : Nat × Option Nat) : Option Nat × Option Nat :=
  findFi e n j s.1 s.2

theorem fiSearch_counts (e : Engine ω) :
    Counts e kwFi (fiSearch e) fun s => (s.1 + 1, s.2) where
  passed := by
    rintro j ⟨d, els⟩ ⟨hopens, helse, hfi, -⟩
    apply Moves.one
    intro n
    simp [fiSearch, findFi, hopens, helse, hfi]
  opened := by
    rintro j ⟨d, els⟩ hopens
    obtain ⟨-, -, hfi, -⟩ := ne_of_not_keyword (not_keyword_of_opens hopens)
    apply Moves.one
    intro n
    simp [fiSearch, findFi, hopens, hfi]
  inner := by
    rintro j ⟨d, els⟩ helse
    apply Moves.one
    intro n
    simp [fiSearch, findFi, helse, show opens kwElse = false from by decide,
      show kwElse ≠ kwFi from by decide]
  closed := by
    rintro j ⟨d, els⟩ word (rfl | rfl) hword
    · apply Moves.one
      intro n
      simp [fiSearch, findFi, hword, show opens kwFi = false from by decide]
    · apply Moves.one
      intro n
      simp [fiSearch, findFi, hword, show opens kwDone = false from by decide,
        show kwDone ≠ kwElse from by decide, show kwDone ≠ kwFi from by decide,
        show kwFi ≠ kwDone from by decide]

/-- The search for `done`, on its depth. -/
def doneSearch (e : Engine ω) (n j d : Nat) : Option Nat := findEndLoop e kwDone n j d

theorem doneSearch_counts (e : Engine ω) : Counts e kwDone (doneSearch e) (· + 1) where
  passed := by
    rintro j d ⟨hopens, -, -, hdone⟩
    apply Moves.one
    intro n
    simp [doneSearch, findEndLoop, hopens, hdone]
  opened := by
    intro j d hopens
    obtain ⟨-, -, -, -, hdone⟩ := ne_of_not_keyword (not_keyword_of_opens hopens)
    apply Moves.one
    intro n
    simp [doneSearch, findEndLoop, hopens, hdone]
  inner := by
    intro j d helse
    apply Moves.one
    intro n
    simp [doneSearch, findEndLoop, helse, show opens kwElse = false from by decide,
      show kwElse ≠ kwDone from by decide]
  closed := by
    rintro j d word (rfl | rfl) hword
    · apply Moves.one
      intro n
      simp [doneSearch, findEndLoop, hword, show opens kwFi = false from by decide,
        show kwFi ≠ kwDone from by decide, show kwDone ≠ kwFi from by decide]
    · apply Moves.one
      intro n
      simp [doneSearch, findEndLoop, hword, show opens kwDone = false from by decide]

end Searches

/-! ## The run of a block -/

section Blocks
variable {ω : Type} {sh : Host ω} {e : Engine ω} {i stop : Nat}

theorem head_not_skipped (h : opens t = true) : ¬ (t = [] ∨ t.head? = some 0x23) := by
  intro hskip
  rw [(skipped_not_keyword hskip).1] at h
  cases h

theorem for_not_if (h : kwFor.isPrefixOf t = true) : kwIf.isPrefixOf t = false := by
  obtain ⟨rest, rfl⟩ := List.isPrefixOf_iff_prefix.mp h
  rfl

theorem while_not_head (h : kwWhile.isPrefixOf t = true) :
    kwIf.isPrefixOf t = false ∧ kwFor.isPrefixOf t = false := by
  obtain ⟨rest, rfl⟩ := List.isPrefixOf_iff_prefix.mp h
  exact ⟨rfl, rfl⟩

theorem block_end (hend : stop ≤ i) :
    Settles (fun fuel => scExecBlock sh fuel e i stop) (e, i) := by
  apply Settles.always
  intro fuel
  rw [scExecBlock, if_pos hend]

theorem block_skip (hlt : i < stop) (hline : e.line i = [] ∨ (e.line i).head? = some 0x23)
    {r : Engine ω × Nat} (h : Settles (fun fuel => scExecBlock sh fuel e (i + 1) stop) r) :
    Settles (fun fuel => scExecBlock sh fuel e i stop) r := by
  apply h.call
  intro fuel
  rw [scExecBlock, if_neg (Nat.not_le.mpr hlt)]
  dsimp only
  rw [if_pos hline]

/-- A simple command. If it fails while `set -e` is on, the block ends behind it. -/
theorem block_simple (hlt : i < stop) (hline : Program.IsSimple sh e.funcs (e.line i))
    {w : ω} (hw : Program.perform sh (e.line i) e.world = w) {r : Engine ω × Nat}
    (h : Settles (fun fuel =>
      if parseAssignment (e.line i) = none ∧ sh.failed w = true then
        some ({ e with world := w }, i + 1)
      else scExecBlock sh fuel { e with world := w } (i + 1) stop) r) :
    Settles (fun fuel => scExecBlock sh fuel e i stop) r := by
  obtain ⟨⟨hne, hcomment⟩, hhead, hword, hfunc, hcommand⟩ := hline
  have hheads : kwIf.isPrefixOf (e.line i) = false ∧ kwWhile.isPrefixOf (e.line i) = false ∧
      kwFor.isPrefixOf (e.line i) = false := by
    unfold opens at hhead
    simpa only [Bool.or_eq_false_iff, and_assoc] using hhead
  have hstep : ∀ fuel, scExecBlock sh (fuel + 1) e i stop =
      match parseAssignment (e.line i) with
      | some (key, val) =>
          scExecBlock sh fuel { e with world := sh.setvar key val e.world } (i + 1) stop
      | none => (scExecLine sh fuel e (e.line i)).bind fun e' =>
          if sh.failed e'.world then some (e', i + 1) else scExecBlock sh fuel e' (i + 1) stop := by
    intro fuel
    rw [scExecBlock, if_neg (Nat.not_le.mpr hlt)]
    dsimp only
    rw [if_neg (not_or.mpr ⟨hne, hcomment⟩), if_neg (Bool.eq_false_iff.mp hheads.1),
      if_neg (Bool.eq_false_iff.mp hheads.2.2), if_neg (Bool.eq_false_iff.mp hheads.2.1), hfunc]
    exact if_neg (Bool.eq_false_iff.mp hword)
  cases hset : parseAssignment (e.line i) with
  | some p =>
      obtain ⟨key, val⟩ := p
      have hworld : sh.setvar key val e.world = w := by
        rw [← hw]
        simp only [Program.perform, hset]
      simp only [hset, reduceCtorEq, false_and, if_false] at h
      apply h.call
      intro fuel
      rw [hstep, hset]
      simp only [hworld]
  | none =>
      obtain ⟨hname, hplain⟩ := hcommand hset
      obtain ⟨w', hw'⟩ := hplain e.world
      have hworld : w = w' := by
        rw [← hw]
        simp only [Program.perform, hset, hw', Work.result]
      have hexec : Settles (fun fuel => scExecLine sh fuel e (e.line i)) { e with world := w } := by
        refine ⟨2, ?_⟩
        intro fuel hfuel
        obtain ⟨k, rfl⟩ : ∃ k, fuel = k + 2 := ⟨fuel - 2, by omega⟩
        dsimp only
        rw [scExecLine, hname]
        dsimp only
        rw [hw', execWork, hworld]
      simp only [hset, true_and] at h
      have hbind := hexec.bind (f := fun fuel e' =>
        if sh.failed e'.world then some (e', i + 1) else scExecBlock sh fuel e' (i + 1) stop) h
      apply hbind.call
      intro fuel
      rw [hstep, hset]

/-- An `if` whose end is found. -/
theorem block_if (hlt : i < stop) (hif : kwIf.isPrefixOf (e.line i) = true) {fi : Nat}
    {els : Option Nat} (hstart : thenStart e i stop = start)
    (hfound : findFi e (stop - start) start 0 none = (els, some fi)) (fuel : Nat) :
    scExecBlock sh (fuel + 1) e i stop =
      if sh.cond (ifCond (e.line i)) e.world then
        (scExecBlock sh fuel e start (els.getD fi)).bind fun r =>
          scExecBlock sh fuel r.1 (fi + 1) stop
      else
        els.elim (scExecBlock sh fuel e (fi + 1) stop) fun elseLine =>
          (scExecBlock sh fuel e (elseLine + 1) fi).bind fun r =>
            scExecBlock sh fuel r.1 (fi + 1) stop := by
  have hopens := opens_of_head (Or.inl hif)
  rw [scExecBlock, if_neg (Nat.not_le.mpr hlt)]
  dsimp only
  rw [if_neg (head_not_skipped hopens), if_pos hif, hstart, hfound]
  cases els <;> rfl

theorem block_for (hlt : i < stop) (hfor : kwFor.isPrefixOf (e.line i) = true) {last : Nat}
    (hstart : doStart e i = start) (hfound : scFindEnd e (i + 1) kwDone = some last) (fuel : Nat) :
    scExecBlock sh (fuel + 1) e i stop =
      (execFor sh fuel e (forVar (e.line i)) (forWords (e.line i)) start last).bind fun e' =>
        scExecBlock sh fuel e' (last + 1) stop := by
  have hopens := opens_of_head (Or.inr (Or.inl hfor))
  rw [scExecBlock, if_neg (Nat.not_le.mpr hlt)]
  dsimp only
  rw [if_neg (head_not_skipped hopens), if_neg (Bool.eq_false_iff.mp (for_not_if hfor)),
    if_pos hfor, hstart, hfound]
  rfl

theorem block_while (hlt : i < stop) (hwhile : kwWhile.isPrefixOf (e.line i) = true) {last : Nat}
    (hstart : doStart e i = start) (hfound : scFindEnd e (i + 1) kwDone = some last) (fuel : Nat) :
    scExecBlock sh (fuel + 1) e i stop =
      (execWhile sh fuel e (whileCond (e.line i)) maxIter start last).bind fun e' =>
        scExecBlock sh fuel e' (last + 1) stop := by
  have hopens := opens_of_head (Or.inr (Or.inr hwhile))
  obtain ⟨hif, hfor⟩ := while_not_head hwhile
  rw [scExecBlock, if_neg (Nat.not_le.mpr hlt)]
  dsimp only
  rw [if_neg (head_not_skipped hopens), if_neg (Bool.eq_false_iff.mp hif),
    if_neg (Bool.eq_false_iff.mp hfor), if_pos hwhile, hstart, hfound]
  rfl

/-- The first line of a script is no word that closes or parts a block. -/
theorem first_not_keyword {p : Program} (hwf : p.WellFormed sh e.funcs)
    (hlines : HasLines e.lines i p.lines) (hne : p ≠ .nil) : isKeyword (e.line i) = false := by
  cases p with
  | nil => exact absurd rfl hne
  | skip line rest =>
      rw [line_of_lines hlines.1 rfl]
      exact (skipped_not_keyword hwf.1).2
  | simple line rest =>
      rw [line_of_lines hlines.1 rfl]
      exact hwf.1.notKeyword
  | ite cond head sep body els other fi rest =>
      rw [line_of_lines hlines.1 rfl]
      exact not_keyword_of_opens (opens_of_head (Or.inl hwf.1.opens))
  | forIn var ws head sep body done rest =>
      rw [line_of_lines hlines.1 rfl]
      exact not_keyword_of_opens (opens_of_head (Or.inr (Or.inl hwf.1.opens)))
  | whileDo cond head sep body done rest =>
      rw [line_of_lines hlines.1 rfl]
      exact not_keyword_of_opens (opens_of_head (Or.inr (Or.inr hwf.1.opens)))

/-- A word that does not follow a script does not stand in front of it. -/
theorem line_ne {p : Program} (hwf : p.WellFormed sh e.funcs) (hlines : HasLines e.lines i p.lines)
    {word : Text} (hword : isKeyword word = true) (hnext : e.line (i + p.lines.length) ≠ word) :
    e.line i ≠ word := by
  by_cases hne : p = .nil
  · rw [hne] at hnext
    exact hnext
  · intro heq
    have hfirst := first_not_keyword hwf hlines hne
    rw [heq, hword] at hfirst
    cases hfirst

/-! ## The run of a script -/

/-- What the engine can run as it should: at most `maxIter` turns of a `while`, and no command
that fails while `set -e` is on, other than the last one of a block. -/
def engineLimits (sh : Host ω) : Program.Limits ω := ⟨(· ≤ maxIter), fun w => sh.failed w = false⟩

/-- The engine runs the script wherever its lines stand. In which line it leaves the block is
of no matter, since the callers do not look at it. -/
def Executed (sh : Host ω) (p : Program) : Prop :=
  ∀ (e : Engine ω) (i stop : Nat) (w' : ω), p.WellFormed sh e.funcs → HasLines e.lines i p.lines →
    i + p.lines.length = stop → stop ≤ e.nlines → p.Runs sh (engineLimits sh) e.world w' →
      ∃ j, Settles (fun fuel => scExecBlock sh fuel e i stop) ({ e with world := w' }, j)

section Loops
variable {body : Program} {start last : Nat}

theorem for_turns (hbody : Executed sh body) {var : Text} {ws : List Text} {w' : ω}
    (hwf : body.WellFormed sh e.funcs) (hlines : HasLines e.lines start body.lines)
    (hlast : start + body.lines.length = last) (hle : last ≤ e.nlines)
    (hrun : each (fun word s t => body.Runs sh (engineLimits sh) (sh.setvar var word s) t) ws
      e.world w') :
    Settles (fun fuel => execFor sh fuel e var ws start last) { e with world := w' } := by
  induction ws generalizing e with
  | nil =>
      obtain rfl : w' = e.world := hrun
      exact Settles.always fun fuel => rfl
  | cons word ws ih =>
      obtain ⟨u, hturn, hrest⟩ := hrun
      obtain ⟨j, hfirst⟩ := hbody { e with world := sh.setvar var word e.world } start last u hwf
        hlines hlast hle hturn
      have hnext := ih (e := { e with world := u }) hwf hlines hle hrest
      exact (hfirst.bind (f := fun fuel r => execFor sh fuel r.1 var ws start last) hnext).call
        fun fuel => by rw [execFor]

theorem while_turns (hbody : Executed sh body) {c : Text} {n left : Nat} {w' : ω}
    (hwf : body.WellFormed sh e.funcs) (hlines : HasLines e.lines start body.lines)
    (hlast : start + body.lines.length = last) (hle : last ≤ e.nlines) (hn : n ≤ left)
    (hrun : turns (sh.cond c) (body.Runs sh (engineLimits sh)) n e.world w') :
    Settles (fun fuel => execWhile sh fuel e c left start last) { e with world := w' } := by
  induction n generalizing e left with
  | zero =>
      obtain ⟨hcond, rfl⟩ := hrun
      apply Settles.always
      intro fuel
      cases left with
      | zero => rw [execWhile]
      | succ left => rw [execWhile, if_neg (Bool.eq_false_iff.mp hcond)]
  | succ n ih =>
      obtain ⟨hcond, u, hturn, hrest⟩ := hrun
      obtain _ | left := left
      · cases hn
      obtain ⟨j, hfirst⟩ := hbody e start last u hwf hlines hlast hle hturn
      have hnext := ih (e := { e with world := u }) hwf hlines hle (Nat.le_of_succ_le_succ hn) hrest
      exact (hfirst.bind (f := fun fuel r => execWhile sh fuel r.1 c left start last) hnext).call
        fun fuel => by rw [execWhile, if_pos hcond]

end Loops

theorem executed_nil : Executed sh .nil := by
  rintro e i stop w' - - rfl - hrun
  obtain rfl : w' = e.world := hrun
  exact ⟨_, block_end le_rfl⟩

theorem executed_skip {line : Text} {rest : Program} (hrest : Executed sh rest) :
    Executed sh (.skip line rest) := by
  rintro e i stop w' ⟨hline, hwf⟩ ⟨hl, hlines⟩ hstop hle hrun
  rw [Program.lines, List.length_cons] at hstop
  have hskip : e.line i = [] ∨ (e.line i).head? = some 0x23 := by
    rw [line_of_lines hl rfl]
    exact hline
  obtain ⟨j, hnext⟩ := hrest e (i + 1) stop w' hwf hlines (by omega) hle hrun
  exact ⟨j, block_skip (by omega) hskip hnext⟩

theorem executed_simple {line : Text} {rest : Program} (hrest : Executed sh rest) :
    Executed sh (.simple line rest) := by
  rintro e i stop w' ⟨hline, hwf⟩ ⟨hl, hlines⟩ hstop hle ⟨hok, hrun⟩
  rw [Program.lines, List.length_cons] at hstop
  rw [← line_of_lines hl rfl] at hline hok hrun
  by_cases hfail : parseAssignment (e.line i) = none ∧
      sh.failed (Program.perform sh (e.line i) e.world) = true
  · -- nothing is left that the engine could leave out
    have hsilent : rest.Silent := by
      rcases hok hfail.1 with hkept | hsilent
      · rw [show sh.failed (Program.perform sh (e.line i) e.world) = false from hkept] at hfail
        cases hfail.2
      · exact hsilent
    rw [hsilent.runs hrun]
    refine ⟨i + 1, block_simple (by omega) hline rfl ?_⟩
    simp only [if_pos hfail]
    exact Settles.always fun fuel => rfl
  · obtain ⟨j, hnext⟩ := hrest
      { e with world := Program.perform sh (e.line i) e.world } (i + 1) stop w' hwf hlines (by omega)
      hle hrun
    refine ⟨j, block_simple (by omega) hline rfl ?_⟩
    simp only [if_neg hfail]
    exact hnext

/-- The search for `done` gives a line that it has come to. -/
theorem findEndLoop_ge {kw : Text} {n j d m : Nat} (h : findEndLoop e kw n j d = some m) :
    j ≤ m := by
  induction n generalizing j d with
  | zero => cases h
  | succ n ih =>
      rw [findEndLoop] at h
      generalize (if opens (e.line j) = true then d + 1 else d) = depth at h
      split at h
      · split at h
        · exact (Option.some.inj h).le
        · exact Nat.le_of_succ_le (ih h)
      · exact Nat.le_of_succ_le (ih h)

theorem findFi_ge {n j d m : Nat} {els : Option Nat} (h : (findFi e n j d els).2 = some m) :
    j ≤ m := by
  induction n generalizing j d els with
  | zero => cases h
  | succ n ih =>
      rw [findFi] at h
      generalize (if opens (e.line j) = true then d + 1 else d) = depth at h
      generalize (if depth = 0 ∧ e.line j = kwElse then some j else els) = seen at h
      split at h
      · split at h
        · exact (Option.some.inj h).le
        · exact Nat.le_of_succ_le (ih h)
      · exact Nat.le_of_succ_le (ih h)

theorem iterate_succ (k d : Nat) : (· + 1)^[k] d = d + k := by
  induction k generalizing d with
  | zero => rfl
  | succ k ih =>
      rw [Function.iterate_succ_apply, ih]
      omega

theorem iterate_depth (k d : Nat) (els : Option Nat) :
    (fun s : Nat × Option Nat => (s.1 + 1, s.2))^[k] (d, els) = (d + k, els) := by
  induction k generalizing d with
  | zero => rfl
  | succ k ih =>
      rw [Function.iterate_succ_apply, ih]
      exact congrArg (·, els) (by omega)

/-- Where the engine sees the body and the end of a loop that holds no `if`. -/
theorem loop_ends {body : Program} (hsep : Program.MayBe kwDo sep)
    (hlsep : HasLines e.lines (i + 1) sep) (hwbody : body.WellFormed sh e.funcs)
    (hkw : body.ClosedBy kwDone) (hlbody : HasLines e.lines (i + 1 + sep.length) body.lines)
    (hdone : e.line (i + 1 + sep.length + body.lines.length) = kwDone)
    (hlt : i + 1 + sep.length + body.lines.length < e.nlines) :
    doStart e i = i + 1 + sep.length ∧
      scFindEnd e (i + 1) kwDone = some (i + 1 + sep.length + body.lines.length) := by
  constructor
  · unfold doStart
    obtain rfl | ⟨line, rfl, hline⟩ := hsep
    · have hne : e.line (i + 1) ≠ kwDo :=
        line_ne hwbody hlbody (by decide) (by rw [hdone]; decide)
      rw [if_neg hne]
      rfl
    · rw [if_pos (line_of_lines hlsep.1 hline)]
      rfl
  · have hcount := doneSearch_counts e
    have hmove := (Moves.mayBe hsep hlsep fun hdo => hcount.passed _ 0 (hdo ▸ passed_do)).trans
      (hcount.program hwbody hkw hlbody 0)
    have hfound := hmove.eq (Nat.le_of_lt hlt)
    obtain ⟨n, hn⟩ : ∃ n, e.nlines - (i + 1 + sep.length + body.lines.length) = n + 1 :=
      ⟨e.nlines - (i + 1 + sep.length + body.lines.length) - 1, by omega⟩
    have hopens : opens kwDone = false := by decide
    change doneSearch e (e.nlines - (i + 1)) (i + 1) 0 = _
    rw [hfound, hn, doneSearch, findEndLoop, hdone, hopens]
    simp

/-- A loop that holds an `if` is given another end than its own, or none. -/
theorem loop_end_missed {body : Program} (hsep : Program.MayBe kwDo sep)
    (hlsep : HasLines e.lines (i + 1) sep) (hwbody : body.WellFormed sh e.funcs)
    (hkw : ¬ body.ClosedBy kwDone) (hlbody : HasLines e.lines (i + 1 + sep.length) body.lines)
    (hdone : e.line (i + 1 + sep.length + body.lines.length) = kwDone)
    (hlt : i + 1 + sep.length + body.lines.length < e.nlines) :
    scFindEnd e (i + 1) kwDone ≠ some (i + 1 + sep.length + body.lines.length) := by
  have hcount := doneSearch_counts e
  have hmove := (Moves.mayBe hsep hlsep fun hdo => hcount.passed _ 0 (hdo ▸ passed_do)).trans
    (hcount.counted hwbody hlbody 0)
  have hfound := hmove.eq (Nat.le_of_lt hlt)
  obtain ⟨n, hn⟩ : ∃ n, e.nlines - (i + 1 + sep.length + body.lines.length) = n + 1 :=
    ⟨e.nlines - (i + 1 + sep.length + body.lines.length) - 1, by omega⟩
  obtain ⟨d, hd⟩ := Nat.exists_eq_succ_of_ne_zero fun hzero => hkw (Program.closedBy_iff.mpr hzero)
  have hopens : opens kwDone = false := by decide
  intro hend
  change doneSearch e (e.nlines - (i + 1)) (i + 1) 0 = _ at hend
  rw [hfound, hn, hd, iterate_succ, doneSearch, findEndLoop, hdone, hopens] at hend
  simp only [Bool.false_eq_true, if_false, if_true, Nat.succ_ne_zero, Nat.zero_add] at hend
  have hle := findEndLoop_ge hend
  omega

theorem executed_for {var : Text} {ws : List Text} {body rest : Program}
    (hkw : body.ClosedBy kwDone) (hfits : ForFits ws head) (hbody : Executed sh body)
    (hrest : Executed sh rest) : Executed sh (.forIn var ws head sep body done rest) := by
  rintro e i stop w' ⟨hhd, hsep, hdone, hwbody, hwrest⟩ ⟨hhead, hlines⟩ hstop hle ⟨u, hloop, hrun⟩
  obtain ⟨hlsep, hlines⟩ := hasLines_append.mp hlines
  obtain ⟨hlbody, hldone, hlrest⟩ := hasLines_append.mp hlines
  simp only [Program.lines, List.length_cons, List.length_append] at hstop
  have hfor := hhd.opens
  obtain ⟨hvar, hws⟩ := hhd.read hfits
  rw [← line_of_lines hhead rfl] at hfor hvar hws
  obtain ⟨hstart, hfound⟩ := loop_ends hsep hlsep hwbody hkw hlbody (line_of_lines hldone hdone)
    (by omega)
  have hturns := for_turns hbody hwbody hlbody rfl (by omega) hloop
  rw [← hvar, ← hws] at hturns
  obtain ⟨j, hnext⟩ := hrest { e with world := u } _ stop w' hwrest hlrest (by omega) hle hrun
  exact ⟨j, (hturns.bind (f := fun fuel e' => scExecBlock sh fuel e' _ stop) hnext).call
    (block_for (by omega) hfor hstart hfound)⟩

theorem executed_while {cond : Text} {body rest : Program} (hkw : body.ClosedBy kwDone)
    (hfits : cond.length ≤ 127) (hbody : Executed sh body) (hrest : Executed sh rest) :
    Executed sh (.whileDo cond head sep body done rest) := by
  rintro e i stop w' ⟨hhd, hsep, hdone, hwbody, hwrest⟩ ⟨hhead, hlines⟩ hstop hle
    ⟨n, u, hn, hloop, hrun⟩
  obtain ⟨hlsep, hlines⟩ := hasLines_append.mp hlines
  obtain ⟨hlbody, hldone, hlrest⟩ := hasLines_append.mp hlines
  simp only [Program.lines, List.length_cons, List.length_append] at hstop
  have hwhile := hhd.opens
  have hcond := hhd.read hfits
  rw [← line_of_lines hhead rfl] at hwhile hcond
  obtain ⟨hstart, hfound⟩ := loop_ends hsep hlsep hwbody hkw hlbody (line_of_lines hldone hdone)
    (by omega)
  have hturns := while_turns hbody hwbody hlbody rfl (by omega) hn hloop
  rw [← hcond] at hturns
  obtain ⟨j, hnext⟩ := hrest { e with world := u } _ stop w' hwrest hlrest (by omega) hle hrun
  exact ⟨j, (hturns.bind (f := fun fuel e' => scExecBlock sh fuel e' _ stop) hnext).call
    (block_while (by omega) hwhile hstart hfound)⟩

/-- Where the engine sees the parts of an `if` that holds no loop. -/
theorem if_ends {els : List Text} {body other : Program} (hsep : Program.MayBe kwThen sep)
    (hlsep : HasLines e.lines (i + 1) sep) (hwbody : body.WellFormed sh e.funcs)
    (hkwbody : body.ClosedBy kwFi) (hlbody : HasLines e.lines (i + 1 + sep.length) body.lines)
    (hels : Program.MayBe kwElse els) (hnone : els = [] → other = .nil)
    (hlels : HasLines e.lines (i + 1 + sep.length + body.lines.length) els)
    (hwother : other.WellFormed sh e.funcs) (hkwother : other.ClosedBy kwFi)
    (hlother : HasLines e.lines (i + 1 + sep.length + body.lines.length + els.length) other.lines)
    {fi : Nat}
    (hplace : i + 1 + sep.length + body.lines.length + els.length + other.lines.length = fi)
    (hfi : e.line fi = kwFi) (hlt : fi < stop) :
    thenStart e i stop = i + 1 + sep.length ∧
      findFi e (stop - (i + 1 + sep.length)) (i + 1 + sep.length) 0 none =
        (els.head?.map fun _ => i + 1 + sep.length + body.lines.length, some fi) := by
  constructor
  · unfold thenStart
    obtain rfl | ⟨line, rfl, hline⟩ := hsep
    · have hnext : e.line (i + 1 + body.lines.length) ≠ kwThen := by
        obtain rfl | ⟨line, rfl, hline⟩ := hels
        · obtain rfl := hnone rfl
          have hend : e.line (i + 1 + body.lines.length) = kwFi := by
            rw [← hfi, ← hplace]
            rfl
          rw [hend]
          decide
        · have helse : e.line (i + 1 + body.lines.length) = kwElse := line_of_lines hlels.1 hline
          rw [helse]
          decide
      have hne : e.line (i + 1) ≠ kwThen := line_ne hwbody hlbody (by decide) hnext
      rw [if_neg fun h => hne h.2]
      rfl
    · rw [List.length_singleton] at hplace
      rw [if_pos ⟨by omega, line_of_lines hlsep.1 hline⟩]
      rfl
  · have hcount := fiSearch_counts e
    have hbody := hcount.program hwbody hkwbody hlbody (0, none)
    have hparts : Moves (fiSearch e) (i + 1 + sep.length + body.lines.length)
        (i + 1 + sep.length + body.lines.length + els.length) (0, none)
        (0, els.head?.map fun _ => i + 1 + sep.length + body.lines.length) := by
      obtain rfl | ⟨line, rfl, hline⟩ := hels
      · exact Moves.refl _ _ _
      · apply Moves.one
        intro n
        have helse := line_of_lines hlels.1 hline
        have hopens : opens kwElse = false := by decide
        have hne : kwElse ≠ kwFi := by decide
        simp [fiSearch, findFi, helse, hopens, hne]
    have hother := hcount.program hwother hkwother hlother
      (0, els.head?.map fun _ => i + 1 + sep.length + body.lines.length)
    rw [hplace] at hother
    have hfound := ((hbody.trans hparts).trans hother).eq (Nat.le_of_lt hlt)
    obtain ⟨n, hn⟩ : ∃ n, stop - fi = n + 1 := ⟨stop - fi - 1, by omega⟩
    have hopens : opens kwFi = false := by decide
    have hne : kwFi ≠ kwElse := by decide
    change fiSearch e _ _ (0, none) = _
    rw [hfound, hn]
    simp [fiSearch, findFi, hfi, hopens, hne]

/-- An `if` that holds a loop is given another end than its own, or none. -/
theorem if_end_missed {els : List Text} {body other : Program}
    (hwbody : body.WellFormed sh e.funcs) (hlbody : HasLines e.lines start body.lines)
    (hels : Program.MayBe kwElse els) (hlels : HasLines e.lines (start + body.lines.length) els)
    (hwother : other.WellFormed sh e.funcs)
    (hlother : HasLines e.lines (start + body.lines.length + els.length) other.lines)
    (hkw : ¬ (body.ClosedBy kwFi ∧ other.ClosedBy kwFi)) {fi : Nat}
    (hplace : start + body.lines.length + els.length + other.lines.length = fi)
    (hfi : e.line fi = kwFi) (hlt : fi < stop) :
    (findFi e (stop - start) start 0 none).2 ≠ some fi := by
  have hcount := fiSearch_counts e
  have hbody := hcount.counted hwbody hlbody (0, none)
  obtain ⟨seen, hparts⟩ : ∃ seen, Moves (fiSearch e) (start + body.lines.length)
      (start + body.lines.length + els.length) (0 + body.openLeft kwFi, none)
      (0 + body.openLeft kwFi, seen) := by
    obtain rfl | ⟨line, rfl, hline⟩ := hels
    · exact ⟨none, Moves.refl _ _ _⟩
    · refine ⟨if 0 + body.openLeft kwFi = 0 then some (start + body.lines.length) else none, ?_⟩
      apply Moves.one
      intro n
      have helse := line_of_lines hlels.1 hline
      have hopens : opens kwElse = false := by decide
      have hne : kwElse ≠ kwFi := by decide
      simp [fiSearch, findFi, helse, hopens, hne]
  have hother := hcount.counted hwother hlother (0 + body.openLeft kwFi, seen)
  rw [iterate_depth] at hbody hother
  rw [hplace] at hother
  have hfound := ((hbody.trans hparts).trans hother).eq (Nat.le_of_lt hlt)
  obtain ⟨n, hn⟩ : ∃ n, stop - fi = n + 1 := ⟨stop - fi - 1, by omega⟩
  have hopen : 0 + body.openLeft kwFi + other.openLeft kwFi ≠ 0 := by
    intro hzero
    apply hkw
    rw [Program.closedBy_iff, Program.closedBy_iff]
    omega
  have hopens : opens kwFi = false := by decide
  have hne : kwFi ≠ kwElse := by decide
  intro hend
  change (fiSearch e _ _ (0, none)).2 = _ at hend
  rw [hfound, hn, fiSearch, findFi, hfi, hopens] at hend
  simp only [Bool.false_eq_true, if_false, if_true, hne, and_false, if_neg hopen] at hend
  have hle := findFi_ge hend
  omega

theorem executed_if {cond fi : Text} {els : List Text} {body other rest : Program}
    (hkwbody : body.ClosedBy kwFi) (hkwother : other.ClosedBy kwFi) (hfits : IfFits cond)
    (hbody : Executed sh body) (hother : Executed sh other) (hrest : Executed sh rest) :
    Executed sh (.ite cond head sep body els other fi rest) := by
  rintro e i stop w' ⟨hhd, hsep, hels, hnone, hfi, hwbody, hwother, hwrest⟩ ⟨hhead, hlines⟩ hstop
    hle ⟨u, hbranch, hrun⟩
  obtain ⟨hlsep, hlines⟩ := hasLines_append.mp hlines
  obtain ⟨hlbody, hlines⟩ := hasLines_append.mp hlines
  obtain ⟨hlels, hlines⟩ := hasLines_append.mp hlines
  obtain ⟨hlother, hlfi, hlrest⟩ := hasLines_append.mp hlines
  simp only [Program.lines, List.length_cons, List.length_append] at hstop
  have hif := hhd.opens
  have hread := hhd.read hfits
  rw [← line_of_lines hhead rfl] at hif hread
  obtain ⟨hstart, hfound⟩ := if_ends hsep hlsep hwbody hkwbody hlbody hels hnone hlels hwother
    hkwother hlother rfl (line_of_lines hlfi hfi) (by omega : _ < stop)
  obtain ⟨j, hnext⟩ := hrest { e with world := u } _ stop w' hwrest hlrest (by omega) hle hrun
  refine ⟨j, ?_⟩
  have hstep : ∀ fuel, scExecBlock sh (fuel + 1) e i stop = _ :=
    block_if (by omega) hif hstart hfound
  rw [hread] at hstep
  by_cases hcond : sh.cond cond e.world = true
  · rw [if_pos hcond] at hbranch
    have hlast : i + 1 + sep.length + body.lines.length =
        (els.head?.map fun _ => i + 1 + sep.length + body.lines.length).getD
          (i + 1 + sep.length + body.lines.length + els.length + other.lines.length) := by
      obtain rfl | ⟨line, rfl, -⟩ := hels
      · obtain rfl := hnone rfl
        rfl
      · rfl
    obtain ⟨k, hfirst⟩ := hbody e _ _ u hwbody hlbody hlast (by omega) hbranch
    apply (hfirst.bind (f := fun fuel r => scExecBlock sh fuel r.1 _ stop) hnext).call
    intro fuel
    rw [hstep, if_pos hcond]
  · rw [if_neg hcond] at hbranch
    obtain rfl | ⟨line, rfl, -⟩ := hels
    · obtain rfl := hnone rfl
      obtain rfl : u = e.world := hbranch
      apply hnext.call
      intro fuel
      rw [hstep, if_neg hcond]
      rfl
    · obtain ⟨k, hfirst⟩ := hother e _ _ u hwother hlother rfl (by omega) hbranch
      apply (hfirst.bind (f := fun fuel r => scExecBlock sh fuel r.1 _ stop) hnext).call
      intro fuel
      rw [hstep, if_neg hcond]
      rfl

/-- A script in which `if` and loops are not mixed is executed as it should be. -/
theorem executed {p : Program} (hmix : p.Unmixed) (hfits : p.Fits) : Executed sh p := by
  induction p with
  | nil => exact executed_nil
  | skip line rest ih => exact executed_skip (ih hmix hfits)
  | simple line rest ih => exact executed_simple (ih hmix hfits)
  | ite cond head sep body els other fi rest ihbody ihother ihrest =>
      obtain ⟨hkwbody, hkwother, hbody, hother, hrest⟩ := hmix
      obtain ⟨hcond, hfbody, hfother, hfrest⟩ := hfits
      exact executed_if hkwbody hkwother hcond (ihbody hbody hfbody) (ihother hother hfother)
        (ihrest hrest hfrest)
  | forIn var ws head sep body done rest ihbody ihrest =>
      obtain ⟨hkw, hbody, hrest⟩ := hmix
      obtain ⟨hlist, hfbody, hfrest⟩ := hfits
      exact executed_for hkw hlist (ihbody hbody hfbody) (ihrest hrest hfrest)
  | whileDo cond head sep body done rest ihbody ihrest =>
      obtain ⟨hkw, hbody, hrest⟩ := hmix
      obtain ⟨hcond, hfbody, hfrest⟩ := hfits
      exact executed_while hkw hcond (ihbody hbody hfbody) (ihrest hrest hfrest)

/-- The engine, with the script in its array, ends where the meaning of the script says. The
state of the host may record the commands that were performed, so that this is about the
sequence of commands. -/
def Follows (sh : Host ω) (p : Program) (e : Engine ω) : Prop :=
  ∀ w', p.Runs sh Program.Limits.free e.world w' →
    ∃ j, Settles (fun fuel => scExecBlock sh fuel e 0 e.nlines) ({ e with world := w' }, j)

end Blocks

/-! ## Two scripts -/

/-- A shell that counts the commands it performs. -/
def counting : Host Nat :=
  ⟨fun _ _ => false, fun _ _ w => w, fun _ w => .done (w + 1), fun _ => false⟩

/-- `x`. -/
def commandX : Text := ascii ['x']

/-- An `if` with a condition that is not met, and nothing in it but a command. -/
def ifX (body rest : Program) : Program :=
  .ite (ascii ['c']) (ascii ['i', 'f', ' ', 'c']) [] body [] .nil (ascii ['f', 'i']) rest

/-- `for x in a b`. -/
def forX (body rest : Program) : Program :=
  .forIn (ascii ['x']) [ascii ['a'], ascii ['b']]
    (ascii ['f', 'o', 'r', ' ', 'x', ' ', 'i', 'n', ' ', 'a', ' ', 'b']) [] body
    (ascii ['d', 'o', 'n', 'e']) rest

theorem ifHead_x : IfHead (ascii ['c']) (ascii ['i', 'f', ' ', 'c']) :=
  ⟨[], [], [], by simp [Blank], ⟨⟨0x63, [], rfl, by decide⟩, ⟨[], 0x63, rfl, by decide⟩, by decide⟩,
    by simp [Blank], Or.inl rfl, by decide⟩

theorem word_of_letter {w : Text} {c : UInt8} (hw : w = [c]) (hspace : c ≠ space)
    (hend : c ≠ semicolon) : Word w := by
  subst hw
  exact ⟨List.cons_ne_nil _ _, by simp [hspace, hend]⟩

theorem forHead_x : ForHead (ascii ['x']) [ascii ['a'], ascii ['b']]
    (ascii ['f', 'o', 'r', ' ', 'x', ' ', 'i', 'n', ' ', 'a', ' ', 'b']) := by
  have hblank : Blank [space] := by simp [Blank]
  have hne : [space] ≠ [] := List.cons_ne_nil _ _
  have hx : Word (ascii ['x']) := word_of_letter rfl (by decide) (by decide)
  have ha : Word (ascii ['a']) := word_of_letter rfl (by decide) (by decide)
  have hb : Word (ascii ['b']) := word_of_letter rfl (by decide) (by decide)
  exact ⟨[], [space], ascii [' ', 'a', ' ', 'b'], [], by simp [Blank], hx, hne, hblank,
    ⟨[space], ascii [' ', 'b'], hne, hblank, ha, by decide, [space], [], hne, hblank, hb, by decide,
      by simp [Spells, Blank]⟩, Or.inl rfl, by decide⟩

/-- The engine with a script of at most `scMaxLines` lines. -/
def loaded (p : Program) (h : p.lines.length ≤ scMaxLines) : Engine Nat where
  lines := fun k => p.lines.getD k []
  nlines := p.lines.length
  saved := fun _ => []
  funcs := []
  world := 0
  depth := 0
  calls := []
  nlines_le := h

theorem simple_x : Program.IsSimple counting [] (skipSpaces commandX) where
  notSkipped := by decide
  notHead := by decide
  notKeyword := by decide
  notFunction := by decide
  command := fun _ => ⟨by decide, fun w => ⟨w + 1, rfl⟩⟩

/-- A loop over two words, then a command in an `if`. -/
def apart : Program := forX (.simple commandX .nil) (ifX (.simple commandX .nil) .nil)

/-- A loop over two words that holds an `if`, then a command. -/
def mixed : Program := forX (ifX .nil .nil) (.simple commandX .nil)

end OriaOS.Shell.Script
