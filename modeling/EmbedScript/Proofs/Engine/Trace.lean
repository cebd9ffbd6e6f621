import EmbedScript.Proofs.Engine.Session

/-!
Traces of errors: the calls that were open where the error was raised.
-/

namespace EmbedScript

open Exec Interpreter

variable {w left : World} {e : Fault}

-- Runs that fail

variable {k : Engine} {trace : List TraceFrame}

theorem Engine.runCode_fault (failed : k.runCode r code w = .fault e left) : ∃ inner,
    k.runInstrs r code { w with running := r :: w.running, calls := .module :: w.calls } =
      .fault e inner ∧ left.raised = inner.raised ∧
    left.trace = inner.trace.push ⟨moduleFrame,inner.line⟩ := by
  unfold runCode inModule inCode at failed
  cases ran : k.runInstrs r code
      { w with running := r :: w.running, calls := .module :: w.calls } with
  | fault e' inner =>
    simp only [ran] at failed
    cases failed
    exact ⟨inner,rfl,rfl,rfl⟩
  | done a inner | halt h =>
    simp only [ran] at failed
    contradiction

theorem Engine.runCode_halt
    (halted : k.runInstrs r code { w with running := r :: w.running, calls := .module :: w.calls } =
      .halt h) : k.runCode r code w = .halt h := by
  unfold runCode inModule inCode
  simp only [halted]

theorem Interpreter.finish_eq_error
    (failed : finish x w = .done (.error (.runtime e trace)) left) : ∃ inner,
    x w = .fault e inner ∧ trace = inner.trace.toList ∧ left = { inner with trace := #[] } := by
  cases ran : x w with
  | done a inner =>
    rw [finish_done ran] at failed
    cases failed
  | fault e' inner =>
    rw [finish_fault ran] at failed
    cases failed
    exact ⟨inner,rfl,rfl,rfl⟩
  | halt h =>
    rw [finish_halt ran] at failed
    cases failed

theorem prepare_ne_runtime :
    prepare source snippet w ≠ .done (.error (.runtime e trace)) left := by
  unfold prepare
  repeat' split
  all_goals nofun

theorem Engine.runSource_error {source} {k' : Engine}
    (failed : k'.runSource name source w = .done (.error (.runtime e trace)) left) :
    ∃ r code compiled, compiled.toBookkeeping = w.toBookkeeping ∧
      finish (k'.runCode r code) compiled = .done (.error (.runtime e trace)) left ∧
      ∀ (k : Engine) h, k.runCode r code compiled = .halt h →
        k.runSource name source w = .halt h := by
  obtain ⟨r,made,new,failed⟩ := bind_eq_done failed
  obtain ⟨result,final,failed,returned⟩ := bind_eq_done failed
  cases result with
  | ok v => cases returned
  | error failure =>
    cases returned
    obtain ⟨code,compiled,prepared,failed⟩ := bind_eq_done failed
    cases code with
    | error failure =>
      cases failed
      exact absurd prepared prepare_ne_runtime
    | ok code =>
      refine ⟨r,code,compiled,?_,failed,fun k h halted => ?_⟩
      · obtain ⟨_,_,prepared',kept,-⟩ := prepare_still source false made
        rw [prepared] at prepared'
        cases prepared'
        cases new
        exact kept
      · have ended : k.prepareAndRun r source false made = .halt h := by
          rw [prepareAndRun,bind_done prepared]
          exact finish_halt halted
        rw [runSource,bind_done new,bind_apply,ended]

-- Their traces

-- The engine `k` is either like `k'`, or it does not import; then the run is one without imports.
theorem runSource_unwound {k k'} [(unwinding importless).Engines k k']
    {name source} {trace} (idle : w.Idle)
    (failed : k'.runSource name source w = .done (.error (.runtime e trace)) left)
    (runs : importless → ∀ h, k.runSource name source w ≠ .halt h) :
    ∃ cause opened, left.raised = some (cause,opened ++ .module :: w.calls) ∧
      trace.map (·.routine) = opened.filterMap Call.frame? ++ [moduleFrame] ∧
      (importless → cause = e ∧ .module ∉ opened) := by
  obtain ⟨r,code,compiled,kept,finished,halts⟩ := Engine.runSource_error failed
  obtain ⟨last,ran,rfl,rfl⟩ := finish_eq_error finished
  obtain ⟨inner,raises,raised,traced⟩ := Engine.runCode_fault ran
  have same : (unwinding importless).rel true (k.runInstrs r code) (k'.runInstrs r code) :=
    Accord.rel_runInstrs r code
  have ends := same
    { compiled with running := r :: compiled.running, calls := .module :: compiled.calls }
    (idle.of_eq kept).shallow
  rw [raises] at ends
  generalize begins : k.runInstrs r code _ = o at ends
  cases ends with
  | @fault _ _ cause opened frames unwound =>
    refine ⟨cause,opened,?_,?_,unwound.direct⟩
    · rw [raised,unwound.raised,kept]
    · rw [traced,unwound.back]
      simp [kept,idle.trace,unwound.routines]
  | parted h _ alone => exact absurd (halts k h (Engine.runCode_halt begins)) (runs alone h)

-- The routines of the trace are those that were being called where the error was raised. If the run
-- does not halt on an engine without imports, it imports nothing; then it runs no other module, and
-- what it reports is just the error that was raised.
theorem Interpreter.runSource_trace {name source : String} {trace : List TraceFrame}
    (idle : w.Idle)
    (failed : Interpreter.runSource name source w = .done (.error (.runtime e trace)) left) :
    ∃ cause opened, left.raised = some (cause, opened ++ .module :: w.calls) ∧
      trace.map (·.routine) = opened.filterMap Call.frame? ++ [moduleFrame] ∧
      ((∀ h, (secluded amply).runSource name source w ≠ .halt h) →
        cause = e ∧ .module ∉ opened) := by
  obtain ⟨cause, opened, raised, routines, _⟩ :=
    @runSource_unwound _ _ _ False _ _ (Accord.watched_engine .crash amply) _ _ _ idle failed
      False.elim
  refine ⟨cause, opened, raised, routines, fun runs => ?_⟩
  obtain ⟨cause', opened', raised', _, direct⟩ :=
    @runSource_unwound _ _ _ True _ _ (Accord.secluded_engine amply) _ _ _ idle failed
      fun _ => runs
  obtain ⟨rfl, same⟩ := Prod.mk.inj (Option.some.inj (raised.symm.trans raised'))
  obtain rfl := List.append_cancel_right same
  exact direct trivial

-- The attribute is missing twice, and only the second time that is an error.
def boxSource : String := "class Box:
    def __getattr__(self, name):
        return None.lid

def peek(box):
    hasattr(box, \"lid\")
    box.lid

peek(Box())
"

theorem Interpreter.runSource_trace_box : ∃ e trace left,
    Interpreter.runSource "main" boxSource shallowWorld = .done (.error (.runtime e trace)) left ∧
    trace.map (·.routine) = ["Box.__getattr__", "peek", "<module>"] ∧
    ∃ opened, left.raised = some (e, opened ++ .module :: shallowWorld.calls) ∧
      trace.map (·.routine) = opened.filterMap Call.frame? ++ [moduleFrame] ∧ .module ∉ opened := by
  have fails :
      ((Interpreter.runSource "main" boxSource shallowWorld).error?.map (·.2.1.map (·.routine)) =
        some ["Box.__getattr__", "peek", "<module>"]) ∧
      ((secluded amply).runSource "main" boxSource shallowWorld).error?.isSome := by
    decide +kernel
  obtain ⟨fails, runs⟩ := fails
  obtain ⟨⟨e, trace, left⟩, failed, names⟩ := Option.map_eq_some_iff.mp fails
  have ran := Outcome.eq_of_error? failed
  obtain ⟨cause, opened, raised, routines, direct⟩ :=
    Interpreter.runSource_trace shallowWorld_idle ran
  obtain ⟨rfl, alone⟩ := direct fun h halted => by
    rw [halted] at runs
    cases runs
  exact ⟨cause, trace, left, ran, names, opened, raised, routines, alone⟩

end EmbedScript
