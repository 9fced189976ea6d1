import OriaOS.Lib.Partial
import OriaOS.Shell.Script

/-!
# Calls of shell functions

A call copies the script into one static array and restores it from there. The copy is
overwritten when a function is called while another call is running, and by nothing else.
-/

namespace OriaOS.Shell.Script

open OriaOS.Lib
open Vars (Text)

variable {ω : Type} {sh : Host ω}

/-- The script is after the call what it was before it. -/
def Call.Restored (c : Call) : Prop :=
  c.nlinesAfter = c.nlinesBefore ∧ ∀ k < c.nlinesBefore, c.linesAfter k = c.linesBefore k

/-- What a run with the given calls does to the history and to the copy of the script. -/
structure Ran (e e' : Engine ω) (made : List Call) : Prop where
  depth : e'.depth = e.depth
  calls : e'.calls = made ++ e.calls
  deeper : ∀ c ∈ made, e.depth ≤ c.depth
  saved : made = [] → e'.saved = e.saved
  restored : (∀ c ∈ made, c.depth = 0) → ∀ c ∈ made, c.Restored

namespace Ran
variable {e e₁ e' : Engine ω} {made later : List Call}

/-- A step that makes no call. -/
theorem still (hdepth : e'.depth = e.depth) (hcalls : e'.calls = e.calls)
    (hsaved : e'.saved = e.saved) : Ran e e' [] where
  depth := hdepth
  calls := hcalls
  deeper := fun _ h => absurd h List.not_mem_nil
  saved := fun _ => hsaved
  restored := fun _ _ h => absurd h List.not_mem_nil

theorem refl (e : Engine ω) : Ran e e [] := still rfl rfl rfl

theorem trans (h : Ran e e₁ made) (h' : Ran e₁ e' later) : Ran e e' (later ++ made) where
  depth := h'.depth.trans h.depth
  calls := by rw [h'.calls, h.calls, List.append_assoc]
  deeper := by
    intro c hc
    obtain hlater | hmade := List.mem_append.mp hc
    · exact h.depth ▸ h'.deeper c hlater
    · exact h.deeper c hmade
  saved := by
    intro hnil
    obtain ⟨hlater, hmade⟩ := List.append_eq_nil_iff.mp hnil
    exact (h'.saved hlater).trans (h.saved hmade)
  restored := by
    intro hflat c hc
    obtain hlater | hmade := List.mem_append.mp hc
    · exact h'.restored (fun d hd => hflat d (List.mem_append_left _ hd)) c hlater
    · exact h.restored (fun d hd => hflat d (List.mem_append_right _ hd)) c hmade

/-- A call. When no call was running and none is made in the body, the copy is intact when
the script is restored from it. -/
theorem call {f : Func} (h : Ran (enterCall e f) e' made) :
    Ran e (leaveCall e e')
      (⟨e.depth, e.lines, e.nlines, (leaveCall e e').lines, e.nlines⟩ :: made) where
  depth := rfl
  calls := congrArg (_ :: ·) h.calls
  deeper := by
    intro c hc
    obtain rfl | hmade := List.mem_cons.mp hc
    · exact le_rfl
    · have hle : e.depth + 1 ≤ c.depth := h.deeper c hmade
      exact Nat.le_of_succ_le hle
  saved := fun hnil => absurd hnil (List.cons_ne_nil _ _)
  restored := by
    intro hflat
    have hmade : made = [] := by
      rw [List.eq_nil_iff_forall_not_mem]
      intro c hc
      have hle : e.depth + 1 ≤ c.depth := h.deeper c hc
      have hzero := hflat c (List.mem_cons_of_mem _ hc)
      omega
    intro c hc
    rw [hmade, List.mem_singleton] at hc
    subst hc
    refine ⟨rfl, ?_⟩
    intro k hk
    have hsaved : e'.saved k = (enterCall e f).saved k := congrFun (h.saved hmade) k
    change (if k < e.nlines then e'.saved k else e'.lines k) = e.lines k
    rw [if_pos hk, hsaved]
    exact if_pos hk

end Ran

/-- A run leads from one state to another. -/
def Onward (e e' : Engine ω) : Prop := ∃ made, Ran e e' made

namespace Onward
variable {e e₁ e' : Engine ω}

theorem refl (e : Engine ω) : Onward e e := ⟨[], Ran.refl e⟩

theorem trans (h : Onward e e₁) (h' : Onward e₁ e') : Onward e e' := by
  obtain ⟨made, hran⟩ := h
  obtain ⟨later, hran'⟩ := h'
  exact ⟨later ++ made, hran.trans hran'⟩

/-- The state of the shell does not belong to the history. -/
theorem world (e : Engine ω) (w : ω) : Onward e { e with world := w } :=
  ⟨[], Ran.still rfl rfl rfl⟩

theorem load (e : Engine ω) (data : List UInt8) (w : ω) : Onward e (loadScript e data w) :=
  ⟨[], Ran.still rfl rfl rfl⟩

theorem define (e : Engine ω) (name : Text) (start bodyTo : Nat) :
    Onward e (shellFuncDefine e name start bodyTo) := by
  unfold shellFuncDefine
  split
  · exact refl e
  · exact ⟨[], Ran.still rfl rfl rfl⟩

end Onward

/-- The functions of the engine with some fuel lead onward. -/
structure AllOnward (sh : Host ω) (fuel : Nat) : Prop where
  block : ∀ e i stop, Whenever (scExecBlock sh fuel e i stop) fun r => Onward e r.1
  forLoop : ∀ e v ws start stop, Whenever (execFor sh fuel e v ws start stop) (Onward e)
  whileLoop : ∀ e c n start stop, Whenever (execWhile sh fuel e c n start stop) (Onward e)
  line : ∀ e l, Whenever (scExecLine sh fuel e l) (Onward e)
  work : ∀ e w, Whenever (execWork sh fuel e w) (Onward e)

namespace AllOnward
variable {fuel : Nat}

/-- The block goes on from a state that a run has led to. -/
theorem thenBlock (h : AllOnward sh fuel) {e e₁ : Engine ω} (honward : Onward e e₁) (i stop : Nat) :
    Whenever (scExecBlock sh fuel e₁ i stop) fun r => Onward e r.1 :=
  (h.block e₁ i stop).mono fun _ => honward.trans

theorem block_succ (h : AllOnward sh fuel) (e : Engine ω) (i stop : Nat) :
    Whenever (scExecBlock sh (fuel + 1) e i stop) fun r => Onward e r.1 := by
  have here := Onward.refl e
  rw [scExecBlock]
  dsimp only
  split
  · exact Whenever.some here
  split
  · exact h.block e _ _
  split
  · -- if
    split
    · exact (h.block e _ _).bind fun r hr => h.thenBlock hr _ _
    · split
      · exact (h.block e _ _).bind fun r hr => h.thenBlock hr _ _
      · exact h.block e _ _
  split
  · exact (h.forLoop e _ _ _ _).bind fun e' he' => h.thenBlock he' _ _
  split
  · exact (h.whileLoop e _ _ _ _).bind fun e' he' => h.thenBlock he' _ _
  split
  · exact h.block e _ _
  split
  · exact h.thenBlock (Onward.define e _ _ _) _ _
  split
  · exact h.thenBlock (Onward.world e _) _ _
  · refine (h.line e _).bind ?_
    intro e' he'
    split
    · exact Whenever.some he'
    · exact h.thenBlock he' _ _

theorem forLoop_succ (h : AllOnward sh fuel) (e : Engine ω) (v : Text) (ws : List Text)
    (start stop : Nat) : Whenever (execFor sh (fuel + 1) e v ws start stop) (Onward e) := by
  cases ws with
  | nil => exact Whenever.some (Onward.refl e)
  | cons w ws =>
      rw [execFor]
      refine (h.thenBlock (Onward.world e _) start stop).bind ?_
      intro r hr
      exact (h.forLoop r.1 v ws start stop).mono fun _ => hr.trans

theorem whileLoop_succ (h : AllOnward sh fuel) (e : Engine ω) (c : Text) (n start stop : Nat) :
    Whenever (execWhile sh (fuel + 1) e c n start stop) (Onward e) := by
  cases n with
  | zero => exact Whenever.some (Onward.refl e)
  | succ n =>
      rw [execWhile]
      split
      · refine (h.block e start stop).bind ?_
        intro r hr
        exact (h.whileLoop r.1 c n start stop).mono fun _ => hr.trans
      · exact Whenever.some (Onward.refl e)

theorem line_succ (h : AllOnward sh fuel) (e : Engine ω) (l : Text) :
    Whenever (scExecLine sh (fuel + 1) e l) (Onward e) := by
  rw [scExecLine]
  split
  · rename_i f _
    refine (h.block (enterCall e f) 0 f.body.length).map ?_
    rintro r ⟨made, hran⟩
    exact ⟨_, hran.call⟩
  · exact h.work e _

theorem work_succ (h : AllOnward sh fuel) (e : Engine ω) (w : Work ω) :
    Whenever (execWork sh (fuel + 1) e w) (Onward e) := by
  cases w with
  | done w => exact Whenever.some (Onward.world e w)
  | script data w next =>
      rw [execWork]
      refine (h.thenBlock (Onward.load e data w) _ _).bind ?_
      intro r hr
      exact (h.work r.1 (next r.1.world)).mono fun _ => hr.trans

end AllOnward

theorem allOnward (sh : Host ω) (fuel : Nat) : AllOnward sh fuel := by
  induction fuel with
  | zero =>
      exact ⟨fun _ _ _ => Whenever.none, fun _ _ _ _ _ => Whenever.none,
        fun _ _ _ _ _ => Whenever.none, fun _ _ => Whenever.none, fun _ _ => Whenever.none⟩
  | succ fuel ih => exact ⟨ih.block_succ, ih.forLoop_succ, ih.whileLoop_succ, ih.line_succ, ih.work_succ⟩

/-- **Calls.** In a run in which no function is called while another call is running, every
call leaves the script as it was. -/
theorem calls_restored {fuel : Nat} {e e' : Engine ω} {i stop k : Nat} (hstart : e.calls = [])
    (hrun : scExecBlock sh fuel e i stop = some (e', k)) (hflat : ∀ c ∈ e'.calls, c.depth = 0) :
    ∀ c ∈ e'.calls, c.Restored := by
  obtain ⟨made, hran⟩ := (allOnward sh fuel).block e i stop (e', k) hrun
  have hmade : e'.calls = made := by
    have hcalls : e'.calls = made ++ e.calls := hran.calls
    rw [hcalls, hstart, List.append_nil]
  rw [hmade] at hflat ⊢
  exact hran.restored hflat

/-! ## Two scripts -/

/-- A shell in which every command does nothing. -/
def idle : Host Unit := ⟨fun _ _ => false, fun _ _ _ => (), fun _ _ => .done (), fun _ => false⟩

abbrev nameF : Text := ascii ['f']
abbrev nameG : Text := ascii ['g']
abbrev nameX : Text := ascii ['x']

/-- The script `f`, `x`, with a function `f` of one line and a function `g` of the line `x`. -/
def scriptF (body : Text) : Engine Unit where
  lines := fun k => if k = 0 then nameF else nameX
  nlines := 2
  saved := fun _ => []
  funcs := [⟨nameF, [body], Nat.le_of_ble_eq_true rfl⟩, ⟨nameG, [nameX], Nat.le_of_ble_eq_true rfl⟩]
  world := ()
  depth := 0
  calls := []
  nlines_le := Nat.le_of_ble_eq_true rfl

/-- What the calls of a run found in the first line and left there. -/
def firstLines (x : Option (Engine Unit × Nat)) : Option (List (Nat × Nat × Text × Text)) :=
  x.map fun r => r.1.calls.map fun c =>
    (c.depth, c.nlinesBefore, c.linesBefore 0, c.linesAfter 0)

theorem calls_restored_one : ∃ e' : Engine Unit, e'.calls ≠ [] ∧ ∀ c ∈ e'.calls, c.Restored := by
  have hrun : firstLines (scExecBlock idle 9 (scriptF nameX) 0 2) =
      some [(0, 2, nameF, nameF)] := by decide
  obtain ⟨r, hr, hcalls⟩ := Option.map_eq_some_iff.mp hrun
  refine ⟨r.1, ?_, calls_restored (e := scriptF nameX) rfl hr ?_⟩
  · intro hnil
    rw [hnil] at hcalls
    cases hcalls
  · intro c hc
    have hmem := List.mem_map_of_mem (f := fun c : Call =>
      (c.depth, c.nlinesBefore, c.linesBefore 0, c.linesAfter 0)) hc
    rw [hcalls, List.mem_singleton] at hmem
    exact congrArg Prod.fst hmem

/-- When `f` calls `g`, the first line of the script is `g` after the call of `f`. -/
theorem nested_call_overwrites : ¬ ∀ (sh : Host Unit) (fuel : Nat) (e e' : Engine Unit)
    (i stop k : Nat), e.calls = [] → scExecBlock sh fuel e i stop = some (e', k) →
      ∀ c ∈ e'.calls, c.Restored := by
  intro h
  have hrun : firstLines (scExecBlock idle 9 (scriptF nameG) 0 2) =
      some [(0, 2, nameF, nameG), (1, 1, nameG, nameG)] := by decide
  obtain ⟨r, hr, hcalls⟩ := Option.map_eq_some_iff.mp hrun
  have hfirst : (0, 2, nameF, nameG) ∈ r.1.calls.map fun c =>
      (c.depth, c.nlinesBefore, c.linesBefore 0, c.linesAfter 0) :=
    hcalls ▸ List.mem_cons_self
  obtain ⟨c, hc, hlines⟩ := List.mem_map.mp hfirst
  obtain ⟨-, hkept⟩ := h idle 9 (scriptF nameG) r.1 0 2 r.2 rfl hr c hc
  injection hlines with _ hlines
  injection hlines with hlength hlines
  injection hlines with hbefore hafter
  have hsame : nameG = nameF := hafter.symm.trans ((hkept 0 (hlength ▸ Nat.zero_lt_two)).trans hbefore)
  exact absurd hsame (by decide)

end OriaOS.Shell.Script
