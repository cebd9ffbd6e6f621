import EmbedScript.Protocol.Item

namespace EmbedScript

open Exec

def wrongCount {α : Type} (b : Builtin) (expected : Nat) (arguments : List Value) : Exec α :=
  fail (.argumentCount b.name expected arguments.length)

def attributeName (v : Value) : Exec String :=
  match v with
  | .str name => return name
  | _ => fail .nameNotText

def expectObject (b : Builtin) (receiver : Value) : Exec (Ref .object × Ref .cls) := do
  match receiver with
  | .object r cls => return (r,cls)
  | _ =>
    let found ← typeName receiver
    fail (.type s!"descriptor '{b.name}' requires an 'object' instance but received a '{found}'")

def deleteField (r : Ref .object) (cls : Ref .cls) (name : String) : Exec Unit := do
  if ← heap fun h => (h.object r).fields.contains name then modifyFields r (·.erase name)
  else fail (.noAttribute (← heap fun h => (h.cls cls).name) name)

def Engine.objectMember (k : Engine) (b : Builtin) (arguments : List Value) : Exec Value := do
  match b, arguments with
  | .objectNew, .cls cls :: _ => newObject cls
  | .objectNew, _ => fail (.type "object.__new__(X): X is not a type object")
  | .objectInit, _ => return .none
  | .objectGetAttribute, [receiver,name] =>
    let (r,cls) ← expectObject b receiver
    k.objectAttr r cls (← attributeName name)
  | .objectSetAttr, [receiver,name,value] =>
    let (r,_) ← expectObject b receiver
    let name ← attributeName name
    modifyFields r (·.insert name value)
    return .none
  | .objectDelAttr, [receiver,name] =>
    let (r,cls) ← expectObject b receiver
    deleteField r cls (← attributeName name)
    return .none
  | .objectRepr, [receiver] =>
    let found ← typeName receiver
    return .str s!"<{found} object>"
  | .objectStr, [receiver] => return .str (← k.repr receiver)
  | .objectEq, [receiver,other] => return .bool (receiver.same other)
  | .objectNe, [receiver,other] =>
    let equal ← k.callMethod receiver "__eq__" [other]
    return .bool !(← k.truthy equal)
  | .objectBool, [receiver] =>
    let (_,cls) ← expectObject b receiver
    if ← hasMember cls "__len__" then return .bool ((← k.len receiver) != 0)
    return .bool true
  | .objectSetAttr, _ => wrongCount b 3 arguments
  | .objectGetAttribute, _ | .objectDelAttr, _ | .objectEq, _ | .objectNe, _ => wrongCount b 2 arguments
  | _, _ => wrongCount b 1 arguments

end EmbedScript
