import OriaOS.Lib.Trace
import OriaOS.Shell.Script

/-!
# `set -e`

The commands that the script engine runs, each with the number of branches of an `if` and bodies
of a loop it stands in; a function stands where it is called. A command that fails ends the block
it is in, and a call passes the failure on, but an `if` and a loop do not.
-/

namespace OriaOS.Shell.Script

open OriaOS.Lib
open Vars (Text parseAssignment)

/-! ## The engine with its commands -/

/-- A command of the script, which may have failed while `set -e` is on. -/
structure Event where
  nest : Nat
  line : Text
  failed : Bool
  deriving DecidableEq

section Trace
variable {ω : Type} (sh : Host ω)

/-- A command with the state it ends in. -/
def traceCommand (nest : Nat) (line : Text) (x : Option (Engine ω)) : Traced Event (Engine ω) :=
  ⟨[⟨nest, line, x.any fun e => sh.failed e.world⟩], x⟩

/-- An assignment, which does not fail. -/
def traceAssignment (nest : Nat) (line : Text) (e : Engine ω) : Traced Event (Engine ω) :=
  ⟨[⟨nest, line, false⟩], some e⟩

mutual

/-- `sc_exec_block`. -/
def traceBlock : Nat → Nat → Engine ω → Nat → Nat → Traced Event (Engine ω × Nat)
  | 0, _, _, _, _ => .stuck
  | fuel + 1, nest, e, i, stop =>
      if stop ≤ i then .ret (e, i)
      else
        let line := e.line i
        if line = [] ∨ line.head? = some 0x23 then traceBlock fuel nest e (i + 1) stop
        else if kwIf.isPrefixOf line then
          let start := thenStart e i stop
          let found := findFi e (stop - start) start 0 none
          let fiLine := found.2.getD stop
          if sh.cond (ifCond line) e.world then
            (traceBlock fuel (nest + 1) e start (found.1.getD fiLine)).bind fun r =>
              traceBlock fuel nest r.1 (fiLine + 1) stop
          else
            match found.1 with
            | some elseLine =>
                (traceBlock fuel (nest + 1) e (elseLine + 1) fiLine).bind fun r =>
                  traceBlock fuel nest r.1 (fiLine + 1) stop
            | none => traceBlock fuel nest e (fiLine + 1) stop
        else if kwFor.isPrefixOf line then
          let doneLine := (scFindEnd e (i + 1) kwDone).getD stop
          (traceFor fuel nest e (forVar line) (forWords line) (doStart e i) doneLine).bind fun e' =>
            traceBlock fuel nest e' (doneLine + 1) stop
        else if kwWhile.isPrefixOf line then
          let doneLine := (scFindEnd e (i + 1) kwDone).getD stop
          (traceWhile fuel nest e (whileCond line) maxIter (doStart e i) doneLine).bind fun e' =>
            traceBlock fuel nest e' (doneLine + 1) stop
        else if isKeyword line then traceBlock fuel nest e (i + 1) stop
        else
          match funcHead line with
          | some (name, brace) =>
              let start := bodyFrom e i stop brace
              let last := bodyTo e start stop
              traceBlock fuel nest (shellFuncDefine e name start last) (last + 1) stop
          | none =>
              match parseAssignment line with
              | some (key, val) =>
                  (traceAssignment nest line { e with world := sh.setvar key val e.world }).bind
                    fun e' => traceBlock fuel nest e' (i + 1) stop
              | none =>
                  (traceLine fuel nest e line).bind fun e' =>
                    if sh.failed e'.world then .ret (e', i + 1)
                    else traceBlock fuel nest e' (i + 1) stop
termination_by structural fuel => fuel

/-- The turns of a `for`. -/
def traceFor : Nat → Nat → Engine ω → Text → List Text → Nat → Nat → Traced Event (Engine ω)
  | 0, _, _, _, _, _, _ => .stuck
  | _ + 1, _, e, _, [], _, _ => .ret e
  | fuel + 1, nest, e, v, w :: ws, start, stop =>
      (traceBlock fuel (nest + 1) { e with world := sh.setvar v w e.world } start stop).bind
        fun r => traceFor fuel nest r.1 v ws start stop
termination_by structural fuel => fuel

/-- The turns of a `while`. -/
def traceWhile : Nat → Nat → Engine ω → Text → Nat → Nat → Nat → Traced Event (Engine ω)
  | 0, _, _, _, _, _, _ => .stuck
  | _ + 1, _, e, _, 0, _, _ => .ret e
  | fuel + 1, nest, e, c, n + 1, start, stop =>
      if sh.cond c e.world then
        (traceBlock fuel (nest + 1) e start stop).bind fun r =>
          traceWhile fuel nest r.1 c n start stop
      else .ret e
termination_by structural fuel => fuel

/-- `sc_exec_line`. What a command does is its own matter, also when it runs a script. -/
def traceLine : Nat → Nat → Engine ω → Text → Traced Event (Engine ω)
  | 0, _, _, _ => .stuck
  | fuel + 1, nest, e, line =>
      match funcFind e.funcs (cmdName line) with
      | some f =>
          (traceBlock fuel nest (enterCall e f) 0 f.body.length).map fun r => leaveCall e r.1
      | none =>
          traceCommand sh nest line (execWork sh fuel e (sh.execute (line.take 255) e.world))
termination_by structural fuel => fuel

end

/-- `shell_run_script` on the bytes of a file. -/
def traceScript (fuel : Nat) (e : Engine ω) (data : List UInt8) (w : ω) :
    Traced Event (Engine ω × Nat) :=
  traceBlock sh fuel 0 (loadScript e data w) 0 (splitScript data).length

/-- No command of the script is run behind one that has failed, in any part of its run. -/
def Stops (e : Engine ω) (data : List UInt8) (w : ω) : Prop :=
  ∀ fuel, (traceScript sh fuel e data w).events.Pairwise fun a _ => a.failed = false

/-- No command fails in a branch of an `if` or in the body of a loop. -/
def FailsOutside (e : Engine ω) (data : List UInt8) (w : ω) : Prop :=
  ∀ fuel, (traceScript sh fuel e data w).Records fun a => a.failed = true → a.nest = 0

end Trace

/-! ## The commands beside it, the engine -/

section Result
variable {ω : Type}

/-- The functions that record commands end as those of the engine, with some fuel. -/
structure SameResult (sh : Host ω) (fuel : Nat) : Prop where
  block : ∀ nest e i stop, (traceBlock sh fuel nest e i stop).result = scExecBlock sh fuel e i stop
  forLoop : ∀ nest e v ws start stop,
    (traceFor sh fuel nest e v ws start stop).result = execFor sh fuel e v ws start stop
  whileLoop : ∀ nest e c n start stop,
    (traceWhile sh fuel nest e c n start stop).result = execWhile sh fuel e c n start stop
  line : ∀ nest e l, (traceLine sh fuel nest e l).result = scExecLine sh fuel e l

namespace SameResult
variable {sh : Host ω} {fuel : Nat}

/-- Two sequences with the same parts. -/
theorem bind_eq {α β : Type} {x : Traced Event α} {f : α → Traced Event β} {y : Option α}
    {g : α → Option β} (hx : x.result = y) (hf : ∀ a, (f a).result = g a) :
    (x.bind f).result = y.bind g := by
  rw [Traced.result_bind, hx]
  exact congrArg _ (funext hf)

theorem block_succ (h : SameResult sh fuel) (nest : Nat) (e : Engine ω) (i stop : Nat) :
    (traceBlock sh (fuel + 1) nest e i stop).result = scExecBlock sh (fuel + 1) e i stop := by
  rw [traceBlock, scExecBlock]
  dsimp only
  split
  · rfl
  split
  · exact h.block _ _ _ _
  split
  · -- if
    split
    · exact bind_eq (h.block _ _ _ _) fun r => h.block _ _ _ _
    · cases (findFi e (stop - thenStart e i stop) (thenStart e i stop) 0 none).1 with
      | some elseLine => exact bind_eq (h.block _ _ _ _) fun r => h.block _ _ _ _
      | none => exact h.block _ _ _ _
  split
  · exact bind_eq (h.forLoop _ _ _ _ _ _) fun e' => h.block _ _ _ _
  split
  · exact bind_eq (h.whileLoop _ _ _ _ _ _) fun e' => h.block _ _ _ _
  split
  · exact h.block _ _ _ _
  cases funcHead (e.line i) with
  | some head => exact h.block _ _ _ _
  | none =>
      cases parseAssignment (e.line i) with
      | some a => exact h.block _ _ _ _
      | none =>
          refine bind_eq (h.line _ _ _) fun e' => ?_
          split
          · rfl
          · exact h.block _ _ _ _

theorem forLoop_succ (h : SameResult sh fuel) (nest : Nat) (e : Engine ω) (v : Text)
    (ws : List Text) (start stop : Nat) :
    (traceFor sh (fuel + 1) nest e v ws start stop).result =
      execFor sh (fuel + 1) e v ws start stop := by
  cases ws with
  | nil => rfl
  | cons w ws =>
      rw [traceFor, execFor]
      exact bind_eq (h.block _ _ _ _) fun r => h.forLoop _ _ _ _ _ _

theorem whileLoop_succ (h : SameResult sh fuel) (nest : Nat) (e : Engine ω) (c : Text)
    (n start stop : Nat) :
    (traceWhile sh (fuel + 1) nest e c n start stop).result =
      execWhile sh (fuel + 1) e c n start stop := by
  cases n with
  | zero => rfl
  | succ n =>
      rw [traceWhile, execWhile]
      split
      · exact bind_eq (h.block _ _ _ _) fun r => h.whileLoop _ _ _ _ _ _
      · rfl

theorem line_succ (h : SameResult sh fuel) (nest : Nat) (e : Engine ω) (l : Text) :
    (traceLine sh (fuel + 1) nest e l).result = scExecLine sh (fuel + 1) e l := by
  rw [traceLine, scExecLine]
  cases funcFind e.funcs (cmdName l) with
  | some f => exact congrArg (Option.map _) (h.block nest (enterCall e f) 0 f.body.length)
  | none => rfl

end SameResult

theorem sameResult (sh : Host ω) (fuel : Nat) : SameResult sh fuel := by
  induction fuel with
  | zero =>
      exact ⟨fun _ _ _ _ => rfl, fun _ _ _ _ _ _ => rfl, fun _ _ _ _ _ _ => rfl, fun _ _ _ => rfl⟩
  | succ fuel ih => exact ⟨ih.block_succ, ih.forLoop_succ, ih.whileLoop_succ, ih.line_succ⟩

/-- A script that is recorded runs as the engine runs it. -/
theorem result_traceScript (sh : Host ω) (fuel : Nat) (e : Engine ω) (data : List UInt8) (w : ω) :
    (traceScript sh fuel e data w).result =
      scExecBlock sh fuel (loadScript e data w) 0 (splitScript data).length :=
  (sameResult sh fuel).block _ _ _ _

end Result

/-! ## Where commands stand -/

section Nest
variable {ω : Type}

/-- A command stands at least as deep as a part of a script. -/
def Within (nest : Nat) (a : Event) : Prop := nest ≤ a.nest

theorem Within.of_succ {nest : Nat} (a : Event) (h : Within (nest + 1) a) : Within nest a :=
  Nat.le_of_succ_le h

/-- The functions that record commands record them within their part. -/
structure AllWithin (sh : Host ω) (fuel : Nat) : Prop where
  block : ∀ nest e i stop, (traceBlock sh fuel nest e i stop).Records (Within nest)
  forLoop : ∀ nest e v ws start stop,
    (traceFor sh fuel nest e v ws start stop).Records (Within (nest + 1))
  whileLoop : ∀ nest e c n start stop,
    (traceWhile sh fuel nest e c n start stop).Records (Within (nest + 1))
  line : ∀ nest e l, (traceLine sh fuel nest e l).Records (Within nest)

namespace AllWithin
variable {sh : Host ω} {fuel : Nat}

theorem block_succ (h : AllWithin sh fuel) (nest : Nat) (e : Engine ω) (i stop : Nat) :
    (traceBlock sh (fuel + 1) nest e i stop).Records (Within nest) := by
  rw [traceBlock]
  dsimp only
  split
  · exact Traced.records_of_nil rfl
  split
  · exact h.block _ _ _ _
  split
  · -- if
    split
    · exact ((h.block _ _ _ _).mono Within.of_succ).bind fun r => h.block _ _ _ _
    · split
      · exact ((h.block _ _ _ _).mono Within.of_succ).bind fun r => h.block _ _ _ _
      · exact h.block _ _ _ _
  split
  · exact ((h.forLoop _ _ _ _ _ _).mono Within.of_succ).bind fun e' => h.block _ _ _ _
  split
  · exact ((h.whileLoop _ _ _ _ _ _).mono Within.of_succ).bind fun e' => h.block _ _ _ _
  split
  · exact h.block _ _ _ _
  split
  · exact h.block _ _ _ _
  split
  · refine Traced.Records.bind ?_ fun e' => h.block _ _ _ _
    intro a ha
    obtain rfl := List.mem_singleton.mp ha
    exact Nat.le_refl nest
  · refine (h.line _ _ _).bind fun e' => ?_
    split
    · exact Traced.records_of_nil rfl
    · exact h.block _ _ _ _

theorem forLoop_succ (h : AllWithin sh fuel) (nest : Nat) (e : Engine ω) (v : Text)
    (ws : List Text) (start stop : Nat) :
    (traceFor sh (fuel + 1) nest e v ws start stop).Records (Within (nest + 1)) := by
  cases ws with
  | nil => exact Traced.records_of_nil rfl
  | cons w ws =>
      rw [traceFor]
      exact (h.block _ _ _ _).bind fun r => h.forLoop _ _ _ _ _ _

theorem whileLoop_succ (h : AllWithin sh fuel) (nest : Nat) (e : Engine ω) (c : Text)
    (n start stop : Nat) :
    (traceWhile sh (fuel + 1) nest e c n start stop).Records (Within (nest + 1)) := by
  cases n with
  | zero => exact Traced.records_of_nil rfl
  | succ n =>
      rw [traceWhile]
      split
      · exact (h.block _ _ _ _).bind fun r => h.whileLoop _ _ _ _ _ _
      · exact Traced.records_of_nil rfl

theorem line_succ (h : AllWithin sh fuel) (nest : Nat) (e : Engine ω) (l : Text) :
    (traceLine sh (fuel + 1) nest e l).Records (Within nest) := by
  rw [traceLine]
  split
  · rename_i f _
    exact h.block nest (enterCall e f) 0 f.body.length
  · intro a ha
    obtain rfl := List.mem_singleton.mp ha
    exact Nat.le_refl nest

end AllWithin

theorem allWithin (sh : Host ω) (fuel : Nat) : AllWithin sh fuel := by
  induction fuel with
  | zero =>
      exact ⟨fun _ _ _ _ => Traced.records_of_nil rfl, fun _ _ _ _ _ _ => Traced.records_of_nil rfl,
        fun _ _ _ _ _ _ => Traced.records_of_nil rfl, fun _ _ _ => Traced.records_of_nil rfl⟩
  | succ fuel ih => exact ⟨ih.block_succ, ih.forLoop_succ, ih.whileLoop_succ, ih.line_succ⟩

end Nest

/-! ## Failures -/

section Stop
variable {ω : Type}

/-- The command fails right at a depth. -/
def FailsAt (nest : Nat) (a : Event) : Prop := a.failed = true ∧ a.nest = nest

/-- What is deeper does not fail at the depth. -/
theorem Within.not_failsAt {nest : Nat} (a : Event) (h : Within (nest + 1) a) : ¬FailsAt nest a :=
  fun hfail => Nat.ne_of_gt h hfail.2

/-- A block, and a line of it, ends behind a command that fails in it. The loops are deeper. -/
structure AllStop (sh : Host ω) (fuel : Nat) : Prop where
  block : ∀ nest e i stop, Traced.StopsAt (FailsAt nest) (fun r => sh.failed r.1.world = true)
    (traceBlock sh fuel nest e i stop)
  line : ∀ nest e l, Traced.StopsAt (FailsAt nest) (fun r => sh.failed r.world = true)
    (traceLine sh fuel nest e l)

namespace AllStop
variable {sh : Host ω} {fuel : Nat}

/-- A part that is deeper, and the rest of the block behind it. -/
theorem behind (h : AllStop sh fuel) {nest : Nat} {α : Type} {x : Traced Event α}
    (hx : x.Records (Within (nest + 1))) (next : α → Engine ω) (i stop : Nat) :
    Traced.StopsAt (FailsAt nest) (fun r => sh.failed r.1.world = true)
      (x.bind fun a => traceBlock sh fuel nest (next a) i stop) :=
  Traced.StopsAt.bind_records (hx.mono Within.not_failsAt) fun _ => h.block _ _ _ _

theorem block_succ (h : AllStop sh fuel) (nest : Nat) (e : Engine ω) (i stop : Nat) :
    Traced.StopsAt (FailsAt nest) (fun r => sh.failed r.1.world = true)
      (traceBlock sh (fuel + 1) nest e i stop) := by
  have hdeep := allWithin sh fuel
  rw [traceBlock]
  dsimp only
  split
  · exact Traced.StopsAt.of_records (Traced.records_of_nil rfl)
  split
  · exact h.block _ _ _ _
  split
  · -- if
    split
    · exact h.behind (hdeep.block _ _ _ _) Prod.fst _ _
    · split
      · exact h.behind (hdeep.block _ _ _ _) Prod.fst _ _
      · exact h.block _ _ _ _
  split
  · exact h.behind (hdeep.forLoop _ _ _ _ _ _) id _ _
  split
  · exact h.behind (hdeep.whileLoop _ _ _ _ _ _) id _ _
  split
  · exact h.block _ _ _ _
  split
  · exact h.block _ _ _ _
  split
  · refine Traced.StopsAt.bind_records ?_ fun e' => h.block _ _ _ _
    intro a ha hfail
    obtain rfl := List.mem_singleton.mp ha
    exact absurd hfail.1 Bool.false_ne_true
  · -- the test of `set -e`
    refine (h.line nest e _).bind (fun e' he' => ?_) fun e' he' => ?_
    · rw [if_neg he']
      exact h.block _ _ _ _
    · rw [if_pos he']
      refine ⟨rfl, fun r hr => ?_⟩
      obtain rfl := Option.some.inj hr
      exact he'

theorem line_succ (h : AllStop sh fuel) (nest : Nat) (e : Engine ω) (l : Text) :
    Traced.StopsAt (FailsAt nest) (fun r => sh.failed r.world = true)
      (traceLine sh (fuel + 1) nest e l) := by
  rw [traceLine]
  split
  · rename_i f _
    exact (h.block nest (enterCall e f) 0 f.body.length).map fun _ hr => hr
  · refine ⟨List.pairwise_singleton _ _, ?_⟩
    rintro e' he' ⟨a, ha, hfail⟩
    obtain rfl := List.mem_singleton.mp ha
    have hend : (execWork sh fuel e (sh.execute (l.take 255) e.world)).any
        (fun e => sh.failed e.world) = true := hfail.1
    have hres : execWork sh fuel e (sh.execute (l.take 255) e.world) = some e' := he'
    rw [hres] at hend
    exact hend

end AllStop

theorem allStop (sh : Host ω) (fuel : Nat) : AllStop sh fuel := by
  induction fuel with
  | zero =>
      exact ⟨fun _ _ _ _ => Traced.StopsAt.of_records (Traced.records_of_nil rfl),
        fun _ _ _ => Traced.StopsAt.of_records (Traced.records_of_nil rfl)⟩
  | succ fuel ih => exact ⟨ih.block_succ, ih.line_succ⟩

end Stop

/-! ## Two scripts -/

/-- A shell in which every command fails. -/
def failAll : Host Unit := ⟨fun _ _ => true, fun _ _ _ => (), fun _ _ => .done (), fun _ => true⟩

/-- The engine before the first script. -/
def freshEngine : Engine Unit := ⟨fun _ => [], 0, fun _ => [], [], (), 0, [], Nat.zero_le _⟩

/-- Two commands, `f` and `x`. -/
def twoCommands : List UInt8 := [0x66, 0x0A, 0x78]

theorem failsOutside_two : FailsOutside failAll freshEngine twoCommands () := by
  intro fuel a ha
  cases fuel with
  | zero => cases ha
  | succ n =>
      cases n with
      | zero => cases ha
      | succ n =>
          have hevents : ∃ failed, (traceScript failAll (n + 2) freshEngine twoCommands ()).events =
              [⟨0, [0x66], failed⟩] := by
            cases n with
            | zero => exact ⟨false, rfl⟩
            | succ n => exact ⟨true, rfl⟩
          obtain ⟨failed, hev⟩ := hevents
          rw [hev] at ha
          obtain rfl := List.mem_singleton.mp ha
          exact fun _ => rfl

/-- `f` in an `if`, then `x`. -/
def branchCommand : List UInt8 :=
  [0x69, 0x66, 0x20, 0x63, 0x0A, 0x66, 0x0A, 0x66, 0x69, 0x0A, 0x78]

end OriaOS.Shell.Script
