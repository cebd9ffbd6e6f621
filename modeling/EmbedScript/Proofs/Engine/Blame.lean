import EmbedScript.Proofs.Engine.Bookkeeping

/-!
Which statement an error is blamed on. `Blame` runs statements with something done about every part
that a statement evaluates itself: in time, before the statements in it have run, or late.
-/

namespace EmbedScript

open Exec

def Outcome.blame (line : Nat) : Outcome α → Outcome α
  | .done a left => .done a left
  | .fault e left => .fault e { left with line }
  | .halt h => .halt h

def Outcome.refuse (h : Halt) : Outcome α → Outcome α
  | .done a left => .done a left
  | .fault _ _ => .halt h
  | .halt h => .halt h

structure Blame where
  judge : {α : Type} → (late : Bool) → (line : Nat) → Exec α → Exec α

namespace Blame

-- The line that is current, which is what statements do.
def current : Blame where
  judge _ _ x := x

def own : Blame where
  judge _ line x := fun w => (x w).blame line

-- The line of the statement in time, and the one that is current when it is late.
def prompt : Blame where
  judge late line x := fun w => if late then x w else (x w).blame line

-- The line of the statement in time. Nothing may fail late.
def strict (h : Halt) : Blame where
  judge late line x := fun w => if late then (x w).refuse h else (x w).blame line

variable (b : Blame) (k : Engine)

def repeatWhile (line : Nat) (test : Exec Bool) (body : Exec Flow) : (late : Bool) → (fuel : Nat) → Exec Flow
  | _, 0 => stop .outOfFuel
  | late, fuel + 1 => do
    if ← b.judge late line test then
      match ← body with
      | .next => repeatWhile line test body true fuel
      | .continues => repeatWhile line test body true fuel
      | .breaks => return .next
      | .returns v => return .returns v
    else return .next

def repeatFor (line : Nat) (next : Exec (Option Value)) (put : Value → Exec Unit)
    (body : Exec Flow) : (late : Bool) → (fuel : Nat) → Exec Flow
  | _, 0 => stop .outOfFuel
  | late, fuel + 1 => do
    match ← b.judge late line next with
    | some item =>
      b.judge late line (put item)
      match ← body with
      | .next => repeatFor line next put body true fuel
      | .continues => repeatFor line next put body true fuel
      | .breaks => return .next
      | .returns v => return .returns v
    | none => return .next

def classHead (f : Frame) (decorators bases : List Code) (plan : ClassPlan) : Exec (List Value × List (Ref .cls) × Frame) := do
  let decorators ← Code.evalAll k f decorators
  let bases ← Code.evalBases k f bases
  let inner ← newFrame plan.slots (f.captured plan.captures) f.home
  return (decorators,bases,inner)

def classTail (f inner : Frame) (decorators : List Value) (bases : List (Ref .cls))
    (plan : ClassPlan) (store : Store) : Exec Flow := do
  let own ← inner.members plan
  let module ← heap fun h => (h.module f.home).name
  let cls ← defineClass plan.name module bases own
  setCell (inner.cell (.slot plan.classSlot)) (some (.cls cls))
  store.put k f (← k.decorate decorators (.cls cls))
  return .next

mutual

def exec (f : Frame) : Instr → Exec Flow
  | .mk line kind => do
    setLine line
    execKind f line kind

def execKind (f : Frame) (line : Nat) : InstrKind → Exec Flow
  | .cond branches otherwise => do
    match ← execBranches f line branches with
    | none => execBlock f otherwise
    | some flow => return flow
  | .whileLoop condition body => b.repeatWhile line (do k.truthy (← condition.eval k f)) (execBlock f body) false k.fuel
  | .forLoop source store body => do
    let c ← b.judge false line (do k.iter (← source.eval k f))
    b.repeatFor line (k.advance c) (store.put k f) (execBlock f body) false k.fuel
  | .classDef decorators bases plan body store => do
    let (decorators,bases,inner) ← b.judge false line (classHead k f decorators bases plan)
    discard (execBlock inner body)
    b.judge true line (classTail k f inner decorators bases plan store)
  | kind => b.judge false line (kind.exec k f)

def execBranches (f : Frame) (line : Nat) : List BranchCode → Exec (Option Flow)
  | [] => return none
  | .mk condition body :: branches => do
    if ← b.judge false line (do k.truthy (← condition.eval k f)) then
      return some (← execBlock f body)
    execBranches f line branches

def execBlock (f : Frame) : List Instr → Exec Flow
  | [] => return .next
  | instr :: instrs => do
    match ← exec f instr with
    | .next => execBlock f instrs
    | .continues => return .continues
    | .breaks => return .breaks
    | .returns v => return .returns v

end

-- Calls and modules

def runBody (f : Frame) : Body → Exec Value
  | .value code => code.eval k f
  | .block body => do
    match ← b.execBlock k f body with
    | .next | .continues | .breaks => return .none
    | .returns v => return v

def runRoutine (plan : RoutinePlan) (captures : Array (Ref .cell)) (home : Ref .module)
    (arguments : List Value) : Exec Value := do
  let received := receiveArguments (plan.params.map fun p => (p.name,p.kind)) arguments
  let f ← newFrame plan.slots captures home
  k.bindParams f plan.params received
  b.runBody k f plan.body

def callFunction (r : Ref .function) (arguments : List Value) : Exec Value := do
  let info ← heap (·.function r)
  match info.routine with
  | .builtin builtin => k.enter (.builtin builtin.name) (k.applyBuiltin builtin arguments)
  | .script plan captures home => k.enter (.routine info.qualname) do
      match ← look (·.plans.routines[plan]?) with
      | some plan => b.runRoutine k plan captures home arguments
      | none => stop .crash

def callValue (callee : Value) (arguments : List Value) : Exec Value :=
  match callee with
  | .function f => b.callFunction k f arguments
  | .method _ receiver f => b.callFunction k f (receiver :: arguments)
  | _ => k.callValue callee arguments

def engine : (fuel : Nat) → Engine
  | 0 => secluded 0
  | fuel + 1 =>
    { fuel
      call := fun callee arguments => b.callValue (engine fuel) callee arguments
      enter := inCall
      step := fun g item => (engine fuel).generatorStep g item
      importModule := fun _ => stop .crash }

def runInstrs (m : Ref .module) (code : List Instr) : Exec Value := do
  match ← b.execBlock k { base := 0, captures := #[], home := m } code with
  | .next | .continues | .breaks => return .none
  | .returns v => return v

def runCode (m : Ref .module) (code : List Instr) : Exec Value := inModule m (inCode .module (b.runInstrs k m code))

def prepareAndRun (m : Ref .module) (source : String) : Exec (Except Failure Value) := do
  match ← prepare source false with
  | .error e => return .error e
  | .ok code => Interpreter.finish (b.runCode k m code)

def runSource (name source : String) : Exec (Except Failure (Ref .module)) := do
  let m ← newModule name
  return (← b.prepareAndRun k m source).map fun _ => m

-- Nothing is done about what fails

theorem current_judge (late : Bool) (line : Nat) (x : Exec α) : current.judge late line x = x := rfl

theorem current_repeatWhile (line : Nat) (test : Exec Bool) (body : Exec Flow) (late : Bool) (fuel : Nat) :
    current.repeatWhile line test body late fuel = Engine.repeatWhile test body fuel := by
  induction fuel generalizing late with
  | zero => rfl
  | succ fuel ih =>
    refine bind_congr fun holds => ?_
    split
    · refine bind_congr fun flow => ?_
      cases flow with
      | next | continues => exact ih true
      | breaks | returns => rfl
    · rfl

theorem current_repeatFor (line : Nat) (next : Exec (Option Value)) (put : Value → Exec Unit)
    (body : Exec Flow) (late : Bool) (fuel : Nat) :
    current.repeatFor line next put body late fuel = Engine.repeatFor next (fun item => do put item; body) fuel := by
  induction fuel generalizing late with
  | zero => rfl
  | succ fuel ih =>
    refine bind_congr fun item => ?_
    cases item with
    | none => rfl
    | some item =>
      refine (bind_congr fun _ => bind_congr fun flow => ?_).trans (bind_assoc _ _ _).symm
      cases flow with
      | next | continues => exact ih true
      | breaks | returns => rfl

mutual

theorem current_exec (f : Frame) (instr : Instr) : current.exec k f instr = instr.exec k f := by
  match instr with
  | .mk line kind => rw [exec,Instr.exec,current_execKind f line kind]

theorem current_execKind (f : Frame) (line : Nat) (kind : InstrKind) : current.execKind k f line kind = kind.exec k f := by
  match kind with
  | .cond branches otherwise =>
    rw [execKind,current_execBranches f line branches]
    refine bind_congr fun flow => ?_
    cases flow with
    | none => exact current_execBlock f otherwise
    | some flow => rfl
  | .whileLoop condition body => rw [execKind,InstrKind.exec,current_repeatWhile,current_execBlock f body]
  | .forLoop source store body =>
    rw [execKind,InstrKind.exec,current_execBlock f body,current_judge,bind_assoc]
    simp only [current_repeatFor]
  | .classDef decorators bases plan body store =>
    have inside (inner : Frame) := current_execBlock inner body
    simp only [execKind,InstrKind.exec,current_judge,classHead,classTail,bind_assoc,pure_bind,inside]
  | .eval _ | .assign .. | .augment .. | .augmentAttribute .. | .augmentIndex .. | .returns _
  | .breaks | .continues | .skip | .deletes _ | .raises _ | .asserts .. | .importModule ..
  | .importAll _ | .importNames .. => rfl

theorem current_execBranches (f : Frame) (line : Nat) (branches : List BranchCode) :
    current.execBranches k f line branches = Instr.execBranches k f branches := by
  match branches with
  | [] => rfl
  | .mk condition body :: branches => rw [execBranches,Instr.execBranches,current_execBlock f body,
      current_execBranches f line branches,current_judge,bind_assoc]

theorem current_execBlock (f : Frame) (instrs : List Instr) : current.execBlock k f instrs = Instr.execBlock k f instrs := by
  match instrs with
  | [] => rfl
  | instr :: instrs =>
    rw [execBlock,current_exec f instr]
    refine bind_congr fun flow => ?_
    cases flow with
    | next => exact current_execBlock f instrs
    | continues | breaks | returns => rfl

end

theorem current_runBody (f : Frame) (body : Body) : current.runBody k f body = k.runBody f body := by
  cases body with
  | value code => rfl
  | block body =>
    rw [runBody,current_execBlock]
    refine bind_congr fun flow => ?_
    cases flow <;> rfl

theorem current_callFunction (r : Ref .function) (arguments : List Value) :
    current.callFunction k r arguments = k.callFunction r arguments := by
  have same := current_runBody k
  simp only [callFunction,runRoutine,same]
  rfl

theorem current_callValue (callee : Value) (arguments : List Value) :
    current.callValue k callee arguments = k.callValue callee arguments := by
  unfold callValue
  split
  · exact current_callFunction ..
  · exact current_callFunction ..
  · rfl

theorem current_engine (fuel : Nat) : current.engine fuel = secluded fuel := by
  induction fuel with
  | zero => rfl
  | succ fuel ih =>
    unfold engine secluded
    simp only [current_callValue,ih]

theorem current_runInstrs (m : Ref .module) (code : List Instr) : current.runInstrs k m code = k.runInstrs m code := by
  rw [runInstrs,current_execBlock]
  refine bind_congr fun flow => ?_
  cases flow <;> rfl

theorem current_runSource (name source : String) : current.runSource k name source = k.runSource name source := by
  have same := current_runInstrs k
  simp only [runSource,prepareAndRun,runCode,same]
  rfl

end Blame

end EmbedScript
