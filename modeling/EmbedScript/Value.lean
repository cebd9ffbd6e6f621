import EmbedScript.Host.Kind
import EmbedScript.Range

/-!
Values. What can change, or is referred to by identity, lives in a store and is named by a
reference; where scripts can tell two immutable values apart, each carries a tag.
-/

namespace EmbedScript

inductive Table where
  | list
  | dict
  | set
  | function
  | cls
  | object
  | module
  | generator
  | cursor
  | native
  | cell
  deriving DecidableEq, Repr

structure Ref (table : Table) where
  id : Nat
  deriving DecidableEq, Repr

inductive Value where
  | none
  | bool (value : Bool)
  | int (value : Int64)
  | float (value : Float)
  | str (text : String)
  | tuple (tag : Nat) (items : List Value)
  | list (ref : Ref .list)
  | dict (ref : Ref .dict)
  | set (ref : Ref .set)
  | range (range : Range)
  | keyword (tag : Nat) (name : String) (value : Value)
  | function (ref : Ref .function)
  | method (tag : Nat) (receiver : Value) (function : Ref .function)
  | cls (ref : Ref .cls)
  | object (ref : Ref .object) (cls : Ref .cls)
  | super (tag : Nat) (cls : Ref .cls) (receiver : Value)
  | type (key : String)
  | module (ref : Ref .module)
  | generator (ref : Ref .generator)
  | iterator (ref : Ref .cursor)
  | native (ref : Ref .native) (key : String)
  | nil (tag : Nat) (receiver : Value) (key : String) (name : String) (statics : Bool)

instance : Inhabited Value := ⟨.none⟩

namespace Value

/-- Key of the type of a value, under which host members and extensions are found. Values of
script classes share one. -/
def typeKey : Value → String
  | none => "NoneType"
  | bool _ => "bool"
  | int _ => "int"
  | float _ => "float"
  | str _ => "str"
  | tuple .. => "tuple"
  | list _ => "list"
  | dict _ => "dict"
  | set _ => "set"
  | range _ => "range"
  | keyword .. => "keyword"
  | function _ => "function"
  | method .. => "method"
  | cls _ => "type"
  | type _ => "type"
  | object .. => "object"
  | super .. => "super"
  | module _ => "module"
  | generator _ => "generator"
  | iterator _ => "iterator"
  | native _ key => key
  | nil .. => "nil"

def kind : Value → Kind
  | none => .none
  | bool _ => .bool
  | int _ => .int
  | float _ => .float
  | str _ => .str
  | list _ => .list
  | tuple .. => .tuple
  | dict _ => .dict
  | set _ => .set
  | native _ key => .host key
  | _ => .dynamic

def asInt? : Value → Option Int64
  | int n => some n
  | bool b => some (if b then 1 else 0)
  | _ => Option.none

def asFloat? : Value → Option Float
  | float x => some x
  | int n => some n.toFloat
  | bool b => some (if b then 1.0 else 0.0)
  | _ => Option.none

def isNumber : Value → Bool
  | int _ => true
  | bool _ => true
  | float _ => true
  | _ => false

def asStr? : Value → Option String
  | str text => some text
  | _ => Option.none

/-- Identity, widened to equality for scalars and ranges. -/
def same : Value → Value → Bool
  | none, none => true
  | bool a, bool b => a == b
  | int a, int b => a == b
  | float a, float b => a == b
  | str a, str b => a == b
  | range a, range b => a == b
  | type a, type b => a == b
  | tuple a _, tuple b _ => a == b
  | list a, list b => a == b
  | dict a, dict b => a == b
  | set a, set b => a == b
  | keyword a _ _, keyword b _ _ => a == b
  | function a, function b => a == b
  | method a _ _, method b _ _ => a == b
  | cls a, cls b => a == b
  | object a _, object b _ => a == b
  | super a _ _, super b _ _ => a == b
  | module a, module b => a == b
  | generator a, generator b => a == b
  | iterator a, iterator b => a == b
  | native a _, native b _ => a == b
  | nil a _ _ _ _, nil b _ _ _ _ => a == b
  | _, _ => false

end Value

def Kind.accepts (k : Kind) (v : Value) : Bool := k == .dynamic || k == v.kind

end EmbedScript
