import EmbedScript.Protocol.Attribute

namespace EmbedScript

open Exec

def Heap.isTrue (h : Heap) : Value → Bool
  | .none => false
  | .nil .. => false
  | .bool b => b
  | .int n => n != 0
  | .float x => x != 0.0
  | .str text => !text.isEmpty
  | .list r => !(h.list r).isEmpty
  | .tuple _ items => !items.isEmpty
  | .dict r => !(h.dict r).isEmpty
  | .set r => !(h.set r).isEmpty
  | .range r => !r.isEmpty
  | _ => true

def Engine.truthy (k : Engine) (v : Value) : Exec Bool := do
  match v with
  | .object .. =>
    match ← k.callMethod v "__bool__" [] with
    | .bool b => return b
    | other =>
      let found ← typeName other
      fail (.type s!"__bool__ should return bool, returned {found}")
  | _ => heap (·.isTrue v)

def Heap.isIdentical (h : Heap) (a b : Value) : Bool := a.same b || match a, b with
    | .object _ cls, .cls sup => h.isSubclass cls sup
    | .object .., .type _ => false
    | .cls _, .type _ => false
    | _, .type key => a.typeKey == key
    | _, _ => false

def Heap.isInstance (h : Heap) (v : Value) (cls : Ref .cls) : Bool :=
  match v with
  | .object _ own => h.isSubclass own cls
  | _ => false

def castValue (value target : Value) : Exec Value := do
  let refuse (targetName : String) : Exec Value := do
    let found ← typeName value
    fail (.type s!"cannot cast '{found}' to '{targetName}'")
  match target with
  | .cls cls =>
    if ← heap (·.isInstance value cls) then return value
    refuse (← heap fun h => (h.cls cls).name)
  | .type key =>
    match key, value with
    | "float", .int n => return .float n.toFloat
    | _, _ => if value.typeKey == key then return value else refuse key
  | _ =>
    let found ← typeName target
    fail (.type s!"cast target must be a type, not '{found}'")

end EmbedScript
