import EmbedScript.Builtin.Apply
import EmbedScript.Eval.Statement

namespace EmbedScript

open Exec

namespace Engine

def received (k : Engine) (f : Frame) (param : ParamCode) (r : Received) : Exec Value := do
  let v ← match r with
    | .value v => pure v
    | .rest vs => newTuple vs
    | .keywords entries => newDict (Dict.ofNames entries)
    | .missing =>
      match param.default with
      | some code => code.eval k f
      | none => pure .none
  match param.declared with
  | some kind => kind.coerce param.name v
  | none => return v

def bindParams (k : Engine) (f : Frame) : List ParamCode → List Received → Exec Unit
  | param :: params, r :: rs => do
    let v ← k.received f param r
    setCell (f.cell (.slot param.slot)) (some v)
    k.bindParams f params rs
  | _, _ => return ()

def runBody (k : Engine) (f : Frame) : Body → Exec Value
  | .value code => code.eval k f
  | .block body => do
    match ← Instr.execBlock k f body with
    | .returns v => return v
    | _ => return .none

def runRoutine (k : Engine) (plan : RoutinePlan) (captures : Array (Ref .cell))
    (home : Ref .module) (arguments : List Value) : Exec Value := do
  let received := receiveArguments (plan.params.map fun p => (p.name,p.kind)) arguments
  let f ← newFrame plan.slots captures home
  k.bindParams f plan.params received
  k.runBody f plan.body

def callFunction (k : Engine) (r : Ref .function) (arguments : List Value) : Exec Value := do
  let info ← heap (·.function r)
  match info.routine with
  | .builtin b => k.enter (.builtin b.name) (k.applyBuiltin b arguments)
  | .script plan captures home => k.enter (.routine info.qualname) do
      match ← look (·.plans.routines[plan]?) with
      | some plan => k.runRoutine plan captures home arguments
      | none => stop .crash

/-- A new instance. `__init__` runs only if `__new__` made an instance of just this class. -/
def instantiate (k : Engine) (cls : Ref .cls) (arguments : List Value) : Exec Value := do
  match ← classMember cls "__new__" with
  | none =>
    let name ← heap fun h => (h.cls cls).name
    fail (.type s!"cannot create '{name}' instances")
  | some constructor =>
    let made ← k.call constructor (.cls cls :: arguments)
    match made with
    | .object _ own =>
      if own = cls then
        match ← classMember cls "__init__" with
        | some initializer => discard (k.call initializer (made :: arguments))
        | none => pure ()
    | _ => pure ()
    return made

def callValue (k : Engine) (callee : Value) (arguments : List Value) : Exec Value := do
  match callee with
  | .function f => k.callFunction f arguments
  | .method _ receiver f => k.callFunction f (receiver :: arguments)
  | .cls cls => k.instantiate cls arguments
  | .nil _ receiver key name statics => k.invokeMember receiver key name statics arguments
  | .type key => k.construct key arguments
  | _ =>
    match ← k.hook callee "__call__" arguments with
    | some v => return v
    | none => fail (.notCallable (← typeName callee))

def generatorStep (k : Engine) (g : Ref .generator) (item : Value) : Exec (Option Value) := do
  let info ← heap (·.generator g)
  match ← look (·.plans.elements[info.plan]?) with
  | none => stop .crash
  | some plan =>
    let f ← newFrame plan.slots info.captures info.home
    plan.store.put k f item
    let kept ← match plan.condition with
      | some condition => do k.truthy (← condition.eval k f)
      | none => pure true
    if kept then return some (← plan.element.eval k f)
    return none

end Engine

end EmbedScript
