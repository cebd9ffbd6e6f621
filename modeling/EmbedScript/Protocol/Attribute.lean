import EmbedScript.Engine
import EmbedScript.Host.Access

/-!
Attributes. An object is asked through its class. Values of host types have extensions first, then
properties and fields; any other name gives a member that is looked up when it is called.
-/

namespace EmbedScript

namespace Exec

def classMember (cls : Ref .cls) (name : String) : Exec (Option Value) :=
  heap fun h => (h.cls cls).members.get? name

def hasMember (cls : Ref .cls) (name : String) : Exec Bool := heap fun h => (h.cls cls).members.contains name

def extension? (key name : String) : Exec (Option (Ref .function)) := look (·.extensions.get? key name)

def hostType? (v : Value) : Exec (Option HostType) :=
  match v with
  | .object .. | .cls _ => return none
  | v => look (·.types.get? v.typeKey)

def isBuiltin (f : Ref .function) : Exec Bool := heap fun h => (h.function f).isBuiltin

def bindMember (receiver member : Value) : Exec Value := do
  match member with
  | .function f =>
    if ← heap fun h => (h.function f).isStatic then return member
    bindMethod receiver f
  | _ => return member

def functionAttr (f : Ref .function) (name : String) : Exec Value := do
  let info ← heap (·.function f)
  match name with
  | "__name__" => return .str info.name
  | "__qualname__" => return .str info.qualname
  | "__module__" => return .str info.module
  | _ => fail (.noAttribute "function" name)

def superAttr (cls : Ref .cls) (receiver : Value) (name : String) : Exec Value := do
  let member ← heap fun h => (h.cls cls).bases.findSome? fun base => (h.cls base).members.get? name
  match member with
  | some member => bindMember receiver member
  | none => fail (.noAttribute "super" name)

def hostAttr (v : Value) (name : String) : Exec Value := do
  match ← extension? v.typeKey name with
  | some f => bindMethod v f
  | none =>
    match ← hostType? v with
    | none => fail (.noAttribute (← typeName v) name)
    | some type =>
      if name == "__class__" then return .type type.name
      match type.property? name with
      | some property => property.access.read v
      | none => newNil v type.name name false

def typeAttr (key name : String) : Exec Value := do
  match ← extension? key name with
  | some f => return .function f
  | none =>
    if name == "__name__" then return .str key
    newNil (.type key) key name true

end Exec

open Exec

namespace Engine

/-- What an object has under a name when no hook says otherwise. -/
def objectAttr (k : Engine) (r : Ref .object) (cls : Ref .cls) (name : String) : Exec Value := do
  let fields ← heap fun h => (h.object r).fields
  match fields.get? name with
  | some value => return value
  | none =>
    match ← classMember cls name with
    | some member => bindMember (.object r cls) member
    | none =>
      if name == "__class__" then return .cls cls
      if name == "__dict__" then return ← newDict (Dict.ofNames fields.toList)
      match ← classMember cls "__getattr__" with
      | some fallback => k.call fallback [.object r cls,.str name]
      | none => fail (.noAttribute (← heap fun h => (h.cls cls).name) name)

def getAttr (k : Engine) (v : Value) (name : String) : Exec Value := do
  match v with
  | .object r cls =>
    match ← classMember cls "__getattribute__" with
    | none => k.objectAttr r cls name
    | some (.function hook) =>
      if ← isBuiltin hook then k.objectAttr r cls name
      else k.call (.function hook) [v,.str name]
    | some hook => k.call hook [v,.str name]
  | .cls cls =>
    match ← classMember cls name with
    | some member => return member
    | none => fail (.noClassAttribute (← heap fun h => (h.cls cls).name) name)
  | .module m =>
    let info ← heap (·.module m)
    match info.globals.get? name with
    | some value => return value
    | none => fail (.noModuleAttribute info.name name)
  | .function f => functionAttr f name
  | .method _ receiver f =>
    match name with
    | "__self__" => return receiver
    | "__func__" => return .function f
    | _ => functionAttr f name
  | .super _ cls receiver => superAttr cls receiver name
  | .type key => typeAttr key name
  | _ => hostAttr v name

def setAttr (k : Engine) (v : Value) (name : String) (value : Value) : Exec Unit := do
  match v with
  | .object r cls =>
    let plain := modifyFields r (·.insert name value)
    match ← classMember cls "__setattr__" with
    | none => plain
    | some (.function hook) =>
      if ← isBuiltin hook then plain
      else discard (k.call (.function hook) [v,.str name,value])
    | some hook => discard (k.call hook [v,.str name,value])
  | .cls cls => modifyMembers cls (·.insert name value)
  | .module m => setGlobal m name value
  | _ =>
    match (← hostType? v).bind (·.property? name) with
    | some property => property.assign v value
    | none => fail (.noAttribute (← typeName v) name)

def callMethod (k : Engine) (v : Value) (name : String) (arguments : List Value) :
    Exec Value := do
  k.call (← k.getAttr v name) arguments

def delAttr (k : Engine) (v : Value) (name : String) : Exec Unit := do
  match v with
  | .object .. => discard (k.callMethod v "__delattr__" [.str name])
  | .cls cls =>
    if !(← hasMember cls name) then
      fail (.noClassAttribute (← heap fun h => (h.cls cls).name) name)
    modifyMembers cls (·.erase name)
  | .module m =>
    let info ← heap (·.module m)
    if !info.globals.contains name then fail (.noModuleAttribute info.name name)
    modifyGlobals m (·.erase name)
  | _ =>
    let name ← typeName v
    fail (.type s!"'{name}' object does not support attribute deletion")

def objectHook (k : Engine) (v : Value) (cls : Ref .cls) (name : String)
    (arguments : List Value) : Exec (Option Value) := do
  if ← hasMember cls name then return some (← k.callMethod v name arguments)
  return none

def hostHook (k : Engine) (v : Value) (name : String) (arguments : List Value) : Exec (Option Value) := do
  match ← extension? v.typeKey name with
  | some f => return some (← k.call (.function f) (v :: arguments))
  | none =>
    match ← hostType? v with
    | none => return none
    | some type =>
      if type.hasMethod name then
        return some (← k.call (← newNil v type.name name false) arguments)
      return none

def hook (k : Engine) (v : Value) (name : String) (arguments : List Value) : Exec (Option Value) :=
  match v with
  | .object _ cls => k.objectHook v cls name arguments
  | _ => k.hostHook v name arguments

end Engine

end EmbedScript
