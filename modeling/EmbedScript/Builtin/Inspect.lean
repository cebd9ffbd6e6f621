import EmbedScript.Builtin.Object
import EmbedScript.Host.Invoke

namespace EmbedScript

open Exec

mutual

def Heap.isOfType (h : Heap) (v : Value) : Value → Except Fault Bool
  | .cls cls => .ok (h.isInstance v cls)
  | .type key => .ok (h.isIdentical v (.type key))
  | .tuple _ targets => h.isOfAny v targets
  | other =>
    let found := h.typeName other
    .error (.type s!"isinstance() arg 2 must be a type or tuple of types, not '{found}'")

def Heap.isOfAny (h : Heap) (v : Value) : List Value → Except Fault Bool
  | [] => .ok false
  | target :: targets => do
    if ← h.isOfType v target then return true
    h.isOfAny v targets

end

def Heap.derivesFrom (h : Heap) (cls : Ref .cls) : Value → Except Fault Bool
  | .cls sup => .ok (h.isSubclass cls sup)
  | other =>
    let found := h.typeName other
    .error (.type s!"issubclass() arg 2 must be a class, not '{found}'")

/-- Every target is looked at, also when one before it answers. -/
def Heap.derivesFromAny (h : Heap) (cls : Ref .cls) (target : Value) : Except Fault Bool :=
  match target with
  | .tuple _ targets => targets.foldlM (fun found t => return (← h.derivesFrom cls t) || found) false
  | other => h.derivesFrom cls other

def typeOf (v : Value) : Exec Value := do
  match v with
  | .object _ cls => return .cls cls
  | _ =>
    match ← hostType? v with
    | some type => return .type type.name
    | none =>
      let found ← typeName v
      fail (.type s!"type of '{found}' values is not inspectable")

def Value.identity : Value → Nat
  | .nil tag .. => 16 * tag + 1
  | .tuple tag _ => 16 * tag + 2
  | .keyword tag .. => 16 * tag + 3
  | .method tag .. => 16 * tag + 4
  | .super tag .. => 16 * tag + 5
  | .list r => 16 * r.id + 6
  | .dict r => 16 * r.id + 7
  | .set r => 16 * r.id + 8
  | .function r => 16 * r.id + 9
  | .cls r => 16 * r.id + 10
  | .object r _ => 16 * r.id + 11
  | .module r => 16 * r.id + 12
  | .generator r => 16 * r.id + 13
  | .iterator r => 16 * r.id + 14
  | .native r _ => 16 * r.id + 15
  | _ => 0

def superOf (cls receiver : Value) : Exec Value := do
  match cls with
  | .cls cls =>
    let fits ← heap fun h => match receiver with
      | .object _ own => h.isSubclass own cls
      | .cls own => h.isSubclass own cls
      | _ => false
    if fits then return .super (← newTag) cls receiver
    fail (.type "super(type, obj): obj must be an instance or subtype of type")
  | other =>
    let found ← typeName other
    fail (.type s!"super() argument 1 must be a class, not {found}")

def makeStatic (v : Value) : Exec Value := do
  match v with
  | .function f =>
    markStatic f
    return v
  | _ =>
    let found ← typeName v
    fail (.type s!"staticmethod() expects a function, not '{found}'")

def attach (target name function : Value) : Exec Value := do
  match target with
  | .type key =>
    let name ← attributeName name
    match function with
    | .function f =>
      modify fun w => { w with extensions := w.extensions.register key name f }
      return function
    | _ =>
      let found ← typeName function
      fail (.type s!"extension '{name}' must be a function, not '{found}'")
  | _ =>
    let found ← typeName target
    fail (.type s!"extensions attach to host types, not '{found}'")

def currentGlobals : Exec Value := do
  match ← look (·.running) with
  | [] => newDict {}
  | m :: _ => newDict (Dict.ofNames (← heap fun h => (h.module m).globals.toList))

def isCallable (v : Value) : Exec Bool := do
  match v with
  | .function _ | .method .. | .cls _ | .type _ => return true
  | .nil _ _ key name statics => isResolvable key name statics
  | .object _ cls => hasMember cls "__call__"
  | _ => return (← extension? v.typeKey "__call__").isSome

namespace Engine

def findAttr (k : Engine) (v : Value) (name : String) : Exec (Option Value) := do
  let mark ← look (·.trace.size)
  match ← excusing mark Fault.isMissingAttribute none do return some (← k.getAttr v name) with
  | some (.nil tag receiver key name statics) =>
    if ← isResolvable key name statics then return some (.nil tag receiver key name statics)
    return none
  | found => return found

def inspect (k : Engine) (b : Builtin) (arguments : List Value) : Exec Value := do
  match b, arguments with
  | .isInstance, [v,target] => return .bool (← heapExcept (·.isOfType v target))
  | .isInstance, _ => wrongCount b 2 arguments
  | .isSubclass, [.cls cls,target] => return .bool (← heapExcept (·.derivesFromAny cls target))
  | .isSubclass, [_,_] => fail (.type "issubclass() arg 1 must be a class")
  | .isSubclass, _ => wrongCount b 2 arguments
  | .type, [v] => typeOf v
  | .hasAttr, [v,name] =>
    let name ← attributeName name
    return .bool (← k.findAttr v name).isSome
  | .hasAttr, _ => wrongCount b 2 arguments
  | .getAttr, [v,name] => k.getAttr v (← attributeName name)
  | .getAttr, [v,name,default] =>
    let name ← attributeName name
    return (← k.findAttr v name).getD default
  | .getAttr, _ => fail (.argumentRange b.name 2 3 arguments.length)
  | .setAttr, [v,name,value] =>
    k.setAttr v (← attributeName name) value
    return .none
  | .setAttr, _ => wrongCount b 3 arguments
  | .callable, [v] => return .bool (← isCallable v)
  | .id, [v] => return .int (Word.wrap v.identity)
  | .globals, [] => currentGlobals
  | .globals, _ => wrongCount b 0 arguments
  | .super, [cls,receiver] => superOf cls receiver
  | .super, _ => wrongCount b 2 arguments
  | .staticMethod, [v] => makeStatic v
  | .extend, [target,name,function] => attach target name function
  | .extend, _ => wrongCount b 3 arguments
  | _, _ => wrongCount b 1 arguments

end Engine

end EmbedScript
