import EmbedScript.Proofs.Engine.Blame
import EmbedScript.Proofs.Engine.Trace

/-!
Lines of traces. They are right in every run in which nothing fails late: behind the statements in
it, a statement is at the line of the last of them.
-/

namespace EmbedScript

open Exec Accord

variable {w : World} {y : Exec α}

-- The line while a statement runs

theorem Returned.moving (returned : Returned m w left) : Returned true w left where
  back := returned.back
  line := Bool.noConfusion

variable {o' : Outcome α}

theorem Settles.moving {importless} (ends : Settles importless m w o o') : Settles importless true w o o' := by
  cases ends with
  | done a returned => exact .done a returned.moving
  | fault unwound => exact .fault { unwound with line := Bool.noConfusion }
  | halt h => exact .halt h
  | parted h _ allowed => exact .parted h _ allowed

theorem Settles.bindMoving {importless} {f : α → Exec β} (first : Settles importless m w (x w) (y w))
    (rest : ∀ a left, Returned m w left → Settles importless true left (f a left) (g a left)) :
    Settles importless true w ((x >>= f) w) ((y >>= g) w) := by
  rw [bind_apply,bind_apply]
  generalize x w = o, y w = o' at first
  cases first with
  | done a returned => exact .after returned.moving (rest a _ returned)
  | fault unwound => exact .fault { unwound with line := Bool.noConfusion }
  | halt h => exact .halt h
  | parted h _ allowed => exact .parted h _ allowed

theorem Settles.blame (here : w.line = line) (ends : Settles True false w o o') :
    Settles True false w (o.blame line) o' ∧ Settles True false w o (o'.blame line) := by
  cases ends with
  | done a returned => exact ⟨.done a returned,.done a returned⟩
  | @fault left e cause opened frames unwound =>
    have same : (Outcome.fault e left : Outcome α).blame line = .fault e left := by
      rw [← here,← unwound.line rfl,Outcome.blame]
    rw [same]
    exact ⟨.fault unwound,.fault unwound⟩
  | halt h => exact ⟨.halt h,.halt h⟩
  | parted h _ allowed => exact ⟨.parted h _ allowed,.parted h _ allowed⟩

theorem Settles.refuse (h : Halt) (line : Nat) (ends : Settles True m w o o') :
    Settles True m w (o.refuse h) o' ∧ Settles True m w (o.refuse h) (o'.blame line) := by
  cases ends with
  | done a returned => exact ⟨.done a returned,.done a returned⟩
  | fault unwound => exact ⟨.parted h _ trivial,.parted h _ trivial⟩
  | halt h => exact ⟨.halt h,.halt h⟩
  | parted h _ allowed => exact ⟨.parted h _ allowed,.parted h _ allowed⟩

def Tracks (o o' : Outcome α) : Prop := (∃ h, o = .halt h) ∨ o = o'

theorem Settles.tracks (ends : Settles True m w o o') : Tracks o o' := by
  cases ends with
  | done | fault | halt => exact .inr rfl
  | parted h => exact .inl ⟨h,rfl⟩

theorem Tracks.eq (tracks : Tracks o o') (runs : ∀ h, o ≠ .halt h) : o = o' := by
  obtain ⟨h,halted⟩ | same := tracks
  · exact absurd halted (runs h)
  · exact same

theorem Tracks.bind {f : α → Exec β} (first : Tracks (x w) (y w)) : Tracks ((x >>= f) w) ((y >>= f) w) := by
  obtain ⟨h,halted⟩ | same := first
  · exact .inl ⟨h,by rw [bind_apply,halted]⟩
  · exact .inr (by rw [bind_apply,bind_apply,same])

theorem Tracks.finish (runs : Tracks (x w) (y w)) : Tracks (Interpreter.finish x w) (Interpreter.finish y w) := by
  obtain ⟨h,halted⟩ | same := runs
  · exact .inl ⟨h,Interpreter.finish_halt halted⟩
  · have tried : attempt x w = attempt y w := by
      rw [attempt,attempt,same]
    exact .inr (by rw [Interpreter.finish,Interpreter.finish,bind_apply,bind_apply,tried])

namespace Blame

-- What two kinds of blame make of the same part of a statement. In time, the line is still the one
-- of the statement, and stays so.
structure Heeds (b b' : Blame) : Prop where
  judge {α : Type} {late : Bool} {line : Nat} {w : World} {x y : Exec α} :
    (late = false → w.line = line) → Settles True false w (x w) (y w) →
    Settles True late w (b.judge late line x w) (b'.judge late line y w)

theorem heeds_current : current.Heeds current := by
  refine ⟨@fun α late line w x y _ ends => ?_⟩
  cases late with
  | false => exact ends
  | true => exact ends.moving

theorem heeds_prompt : current.Heeds prompt := by
  refine ⟨@fun α late line w x y here ends => ?_⟩
  cases late with
  | false => exact (ends.blame (here rfl)).2
  | true => exact ends.moving

theorem strict_heeds_current (h : Halt) : (strict h).Heeds current := by
  refine ⟨@fun α late line w x y here ends => ?_⟩
  cases late with
  | false => exact (ends.blame (here rfl)).1
  | true => exact (ends.moving.refuse h line).1

theorem strict_heeds_own (h : Halt) : (strict h).Heeds own := by
  refine ⟨@fun α late line w x y here ends => ?_⟩
  cases late with
  | false => exact ((ends.blame (here rfl)).1.blame (here rfl)).2
  | true => exact (ends.moving.refuse h line).2

section

variable {b : Blame} (heeds : b.Heeds b')

include heeds

theorem settles_repeatWhile {test test'} (tests : (unwinding True).rel false test test')
    (bodies : (unwinding True).rel true body body') (fuel : Nat)
    (shallow : w.depth ≤ w.maxDepth) (here : late = false → w.line = line) :
    Settles True true w (b.repeatWhile line test body late fuel w)
      (b'.repeatWhile line test' body' late fuel w) := by
  induction fuel generalizing late w with
  | zero => exact .halt _
  | succ fuel ih =>
    refine .bindMoving (heeds.judge here (tests w shallow)) fun holds left returned => ?_
    have shallow := returned.shallow shallow
    cases holds with
    | false => exact .done _ (.of_eq rfl)
    | true =>
      refine .bind (bodies left shallow) fun flow last returned => ?_
      cases flow with
      | next | continues => exact ih (returned.shallow shallow) Bool.noConfusion
      | breaks | returns => exact .done _ (.of_eq rfl)

theorem settles_repeatFor {next next'} (nexts : (unwinding True).rel false next next')
    (puts : ∀ v, (unwinding True).rel false (put v) (put' v))
    (bodies : (unwinding True).rel true body body') (fuel : Nat)
    (shallow : w.depth ≤ w.maxDepth) (here : late = false → w.line = line) :
    Settles True true w (b.repeatFor line next put body late fuel w)
      (b'.repeatFor line next' put' body' late fuel w) := by
  induction fuel generalizing late w with
  | zero => exact .halt _
  | succ fuel ih =>
    refine .bindMoving (heeds.judge here (nexts w shallow)) fun item left returned => ?_
    have shallow := returned.shallow shallow
    have here (prompt : late = false) := (returned.line prompt).trans (here prompt)
    cases item with
    | none => exact .done _ (.of_eq rfl)
    | some item =>
      refine .bindMoving (heeds.judge here (puts item left shallow)) fun _ last returned => ?_
      have shallow := returned.shallow shallow
      refine .bind (bodies last shallow) fun flow last returned => ?_
      cases flow with
      | next | continues => exact ih (returned.shallow shallow) Bool.noConfusion
      | breaks | returns => exact .done _ (.of_eq rfl)

end

section

variable {b : Blame}

mutual

theorem rel_exec (heeds : b.Heeds b') [(unwinding True).Engines k k'] (f : Frame) (instr : Instr) :
    (unwinding True).rel true (b.exec k f instr) (b'.exec k' f instr) := by
  match instr with
  | .mk line kind =>
    intro w shallow
    have moved : Returned true w { w with line } := ⟨rfl,Bool.noConfusion⟩
    exact .after moved (settles_execKind heeds f kind shallow rfl)

theorem settles_execKind (heeds : b.Heeds b') [(unwinding True).Engines k k'] {line}
    {w} (f : Frame) (kind : InstrKind) (shallow : w.depth ≤ w.maxDepth)
    (here : w.line = line) :
    Settles True true w (b.execKind k f line kind w) (b'.execKind k' f line kind w) := by
  have alone {kind} (flat : flat kind) :
      Settles True false w (kind.exec k f w) (kind.exec k' f w) := by
    have same : (unwinding True).rel false (kind.exec k f) (kind.exec k' f) :=
      rel_flat f flat
    exact same w shallow
  match kind with
  | .cond branches otherwise =>
    refine .bind (settles_execBranches heeds f branches shallow here) fun flow left returned => ?_
    cases flow with
    | none => exact rel_execBlock heeds f otherwise left (returned.shallow shallow)
    | some flow => exact .done _ (.of_eq rfl)
  | .whileLoop condition body =>
    rw [execKind,fuel_eq (unwinding True) k k']
    have test : (unwinding True).rel false (condition.eval k f >>= k.truthy)
        (condition.eval k' f >>= k'.truthy) :=
      .bind (rel_eval f condition) fun _ => rel_truthy
    exact settles_repeatWhile heeds test (rel_execBlock heeds f body) _ shallow fun _ => here
  | .forLoop source store body =>
    rw [execKind,fuel_eq (unwinding True) k k']
    have begins : (unwinding True).rel false (source.eval k f >>= k.iter)
        (source.eval k' f >>= k'.iter) :=
      .bind (rel_eval f source) fun _ => rel_iter
    refine .bindMoving (heeds.judge (fun _ => here) (begins w shallow)) fun c left returned => ?_
    have here := (returned.line rfl).trans here
    exact settles_repeatFor heeds (rel_advance c) (fun _ => rel_put f store nofun)
      (rel_execBlock heeds f body) _ (returned.shallow shallow) fun _ => here
  | .classDef decorators bases plan body store =>
    have head : (unwinding True).rel false (classHead k f decorators bases plan)
        (classHead k' f decorators bases plan) :=
      .bind (rel_evalAll f decorators) fun _ _ => .bind (rel_evalBases f bases) fun _ _ =>
        .bind (quiet_newFrame ..) fun _ _ => .pure nofun
    refine .bindMoving (heeds.judge (fun _ => here) (head w shallow)) fun made left returned => ?_
    obtain ⟨decorators,bases,inner⟩ := made
    have shallow := returned.shallow shallow
    have inside : (unwinding True).rel true (discard (b.execBlock k inner body))
        (discard (b'.execBlock k' inner body)) :=
      .discard (rel_execBlock heeds inner body)
    refine .bind (inside left shallow) fun _ last returned => ?_
    have tail : (unwinding True).rel false (classTail k f inner decorators bases plan store)
        (classTail k' f inner decorators bases plan store) :=
      .bind (quiet_members inner plan) fun _ own => .bind (.heap fun _ _ => rfl) fun _ _ =>
        .bind (quiet_defineClass _ _ _ own) fun _ _ => .bind (.setCell _ nofun) fun _ _ =>
        .bind (rel_decorate nofun nofun) fun _ known =>
        .bind (rel_put f store known) fun _ _ => .pure nofun
    exact heeds.judge Bool.noConfusion (tail last (returned.shallow shallow))
  | .eval _ | .assign .. | .augment .. | .augmentAttribute .. | .augmentIndex .. | .returns _
  | .breaks | .continues | .skip | .deletes _ | .raises _ | .asserts .. | .importModule ..
  | .importAll _ | .importNames .. =>
    exact (heeds.judge (fun _ => here) (alone rfl)).moving

theorem settles_execBranches (heeds : b.Heeds b') [(unwinding True).Engines k k'] {line}
    {w} (f : Frame) (branches : List BranchCode) (shallow : w.depth ≤ w.maxDepth)
    (here : w.line = line) :
    Settles True true w (b.execBranches k f line branches w)
      (b'.execBranches k' f line branches w) := by
  match branches with
  | [] => exact .done _ (.of_eq rfl)
  | .mk condition body :: branches =>
    have test : (unwinding True).rel false (condition.eval k f >>= k.truthy)
        (condition.eval k' f >>= k'.truthy) :=
      .bind (rel_eval f condition) fun _ => rel_truthy
    refine .bindMoving (heeds.judge (fun _ => here) (test w shallow)) fun holds left returned => ?_
    have shallow := returned.shallow shallow
    cases holds with
    | true =>
      have inside : (unwinding True).rel true (some <$> b.execBlock k f body)
          (some <$> b'.execBlock k' f body) := 
        .bind (rel_execBlock heeds f body) fun _ _ => .pure nofun
      exact inside left shallow
    | false => exact settles_execBranches heeds f branches shallow ((returned.line rfl).trans here)

theorem rel_execBlock (heeds : b.Heeds b') [(unwinding True).Engines k k'] (f : Frame) (instrs : List Instr) :
    (unwinding True).rel true (b.execBlock k f instrs) (b'.execBlock k' f instrs) := by
  match instrs with
  | [] => exact .pure nofun
  | instr :: instrs =>
    refine .bind (rel_exec heeds f instr) fun flow _ => ?_
    cases flow with
    | next => exact rel_execBlock heeds f instrs
    | continues | breaks | returns => exact .pure nofun

end

-- Calls and modules

variable (heeds : b.Heeds b')

include heeds

section

variable [(unwinding True).Engines k k']

theorem rel_runBody (f : Frame) (body : Body) :
    (unwinding True).rel true (b.runBody k f body) (b'.runBody k' f body) := by
  cases body with
  | value code => exact rel_eval f code
  | block body =>
    refine .bind (rel_execBlock heeds f body) fun flow _ => ?_
    cases flow <;> exact .pure nofun

theorem rel_callFunction (r : Ref .function) (arguments : List Value) :
    (unwinding True).rel m (b.callFunction k r arguments) (b'.callFunction k' r arguments) := by
  refine .bind (.heap fun _ _ => rfl) fun info _ => ?_
  split
  · exact Engines.enter (by simp) (rel_applyBuiltin _ nofun)
  · refine Engines.enter (by simp) (.bind (.look fun _ _ => plain_maybe) fun plan _ => ?_)
    cases plan with
    | none => exact .stop _
    | some plan =>
      exact .bind (quiet_newFrame ..) fun f _ =>
        .bind (rel_bindParams f _ nofun) fun _ _ => rel_runBody heeds f plan.body

theorem rel_callValue (callee : Value) (arguments : List Value) :
    (unwinding True).rel m (b.callValue k callee arguments) (b'.callValue k' callee arguments) := by
  unfold callValue
  split
  · exact rel_callFunction heeds _ _
  · exact rel_callFunction heeds _ _
  · exact Accord.rel_callValue id ..

theorem rel_runInstrs (r : Ref .module) (code : List Instr) :
    (unwinding True).rel true (b.runInstrs k r code) (b'.runInstrs k' r code) := by
  refine .bind (rel_execBlock heeds _ code) fun flow _ => ?_
  cases flow <;> exact .pure nofun

end

theorem engines (fuel : Nat) : (unwinding True).Engines (b.engine fuel) (b'.engine fuel) := by
  have parts {α} [Plainness α] {m} (h : Halt) (y : Exec α) : (unwinding True).rel m (stop h) y :=
    fun _ _ => .parted h _ trivial
  induction fuel with
  | zero =>
    exact {
      fuel := rfl
      call _ _ := parts _ _
      step _ := parts _ _
      importModule _ := parts _ _
      importBelow _ _ := parts _ _
      enter function same := rel_inCall (fun _ => function) same }
  | succ fuel below =>
    exact {
      fuel := rfl
      call _ _ := rel_callValue heeds _ _
      step given := rel_generatorStep _ given
      importModule _ := parts _ _
      importBelow _ _ := parts _ _
      enter function same := rel_inCall (fun _ => function) same }

theorem tracks_runCode [(unwinding True).Engines k k'] (r : Ref .module) (code : List Instr)
    (shallow : w.depth ≤ w.maxDepth) : Tracks (b.runCode k r code w) (b'.runCode k' r code w) := by
  have runs : (unwinding True).rel true (b.runInstrs k r code) (b'.runInstrs k' r code) :=
    rel_runInstrs heeds r code
  unfold runCode inModule inCode
  obtain ⟨h,halted⟩ | same :=
    (runs { w with running := r :: w.running, calls := .module :: w.calls } shallow).tracks
  · exact .inl ⟨h,by simp only [halted]⟩
  · exact .inr (by simp only [same])

theorem tracks_runSource [(unwinding True).Engines k k'] (name source : String) (shallow : w.depth ≤ w.maxDepth) :
    Tracks (b.runSource k name source w) (b'.runSource k' name source w) := by
  cases new : newModule name w with
  | fault | halt => nomatch new
  | done r made =>
    have kept : made.toBookkeeping = w.toBookkeeping := by
      cases new
      rfl
    obtain ⟨code,compiled,prepared,kept',-⟩ := prepare_still source false made
    rw [runSource,runSource,bind_done new,bind_done new]
    apply Tracks.bind
    rw [prepareAndRun,prepareAndRun,bind_done prepared,bind_done prepared]
    cases code with
    | error e => exact .inr rfl
    | ok code =>
      refine (tracks_runCode heeds r code ?_).finish
      rw [kept',kept]
      exact shallow

end

end Blame

theorem Blame.strict_tracks (h : Halt) (name source : String) (shallow : w.depth ≤ w.maxDepth) :
    Tracks ((strict h).runSource ((strict h).engine amply) name source w)
      ((secluded amply).runSource name source w) := by
  have := engines (strict_heeds_current h) amply
  rw [← current_engine,← current_runSource]
  exact tracks_runSource (strict_heeds_current h) name source shallow

-- In a run without imports, what fails in time is always blamed on the statement. If nothing fails
-- late besides, no line of a trace is other than the one of the statement.
theorem Interpreter.runSource_lines (name source : String) (shallow : w.depth ≤ w.maxDepth) :
    ((∀ h, (secluded amply).runSource name source w ≠ .halt h) →
      Interpreter.runSource name source w =
        Blame.prompt.runSource (Blame.prompt.engine amply) name source w) ∧
    ∀ h, (∀ h', (Blame.strict h).runSource ((Blame.strict h).engine amply) name source w ≠
        .halt h') →
      Interpreter.runSource name source w =
        Blame.own.runSource (Blame.own.engine amply) name source w := by
  have alone : Tracks ((secluded amply).runSource name source w)
      (Interpreter.runSource name source w) := by
    have : (unwinding True).Engines (secluded amply) Interpreter.k := Accord.secluded_engine amply
    rw [← Blame.current_runSource, Interpreter.runSource, ← Blame.current_runSource]
    exact Blame.tracks_runSource Blame.heeds_current name source shallow
  refine ⟨fun runs => ?_, fun h runs => ?_⟩
  · have := Blame.engines Blame.heeds_prompt amply
    have prompt : Tracks (Blame.current.runSource (Blame.current.engine amply) name source w)
        (Blame.prompt.runSource (Blame.prompt.engine amply) name source w) :=
      Blame.tracks_runSource Blame.heeds_prompt name source shallow
    rw [Blame.current_runSource, Blame.current_engine] at prompt
    exact (alone.eq runs).symm.trans (prompt.eq runs)
  · have := Blame.engines (Blame.strict_heeds_own h) amply
    have own : Tracks ((Blame.strict h).runSource ((Blame.strict h).engine amply) name source w)
        (Blame.own.runSource (Blame.own.engine amply) name source w) :=
      Blame.tracks_runSource (Blame.strict_heeds_own h) name source shallow
    have same := (Blame.strict_tracks h name source shallow).eq runs
    rw [← alone.eq fun h' => same ▸ runs h', ← same]
    exact own.eq runs

-- The test of the loop fails before a turn, and the class is not made.
def promptSource : String := "def half(n):
    while 1 // n:
        n = 0

class Box:
    y = half(0)
"

theorem Interpreter.runSource_lines_prompt :
    Interpreter.runSource "main" promptSource shallowWorld =
      Blame.prompt.runSource (Blame.prompt.engine amply) "main" promptSource shallowWorld ∧
    Interpreter.runSource "main" promptSource shallowWorld =
      Blame.own.runSource (Blame.own.engine amply) "main" promptSource shallowWorld ∧
    (Interpreter.runSource "main" promptSource shallowWorld).error?.map (·.2.1) =
      some [⟨"half", 2⟩, ⟨"<module>", 6⟩] := by
  have fails : ((Blame.strict .crash).runSource ((Blame.strict .crash).engine amply) "main"
        promptSource shallowWorld).error?.isSome ∧
      (Interpreter.runSource "main" promptSource shallowWorld).error?.map (·.2.1) =
        some [⟨"half", 2⟩, ⟨"<module>", 6⟩] := by
    decide +kernel
  obtain ⟨strict, trace⟩ := fails
  have runs : ∀ h, (Blame.strict .crash).runSource ((Blame.strict .crash).engine amply) "main"
      promptSource shallowWorld ≠ .halt h := by
    intro h halted
    rw [halted] at strict
    cases strict
  have shallow := shallowWorld_idle.shallow
  have same := (Blame.strict_tracks .crash "main" promptSource shallow).eq runs
  have lines := Interpreter.runSource_lines "main" promptSource shallow
  exact ⟨lines.1 fun h => same ▸ runs h, lines.2 .crash runs, trace⟩

-- The test fails behind the first turn, at the line of the body.
def lateSource : String := "i = 0
while 1 // (1 - i):
    i += 1
"

theorem Interpreter.runSource_late :
    (Interpreter.runSource "main" lateSource shallowWorld).error?.map (·.2.1) =
      some [⟨"<module>", 3⟩] ∧
    (Blame.own.runSource (Blame.own.engine amply) "main" lateSource shallowWorld).error?.map
      (·.2.1) = some [⟨"<module>", 2⟩] := by
  decide +kernel

end EmbedScript
