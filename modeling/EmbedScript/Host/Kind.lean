/-!
Kinds of values known before a script runs. `dynamic` stands for every value.
-/

namespace EmbedScript

inductive Kind where
  | dynamic
  | none
  | bool
  | int
  | float
  | str
  | list
  | tuple
  | dict
  | set
  | host (key : String)
  deriving DecidableEq, Repr

namespace Kind

def ofKey : String → Kind
  | "NoneType" => none
  | "bool" => bool
  | "int" => int
  | "float" => float
  | "str" => str
  | "list" => list
  | "tuple" => tuple
  | "dict" => dict
  | "set" => set
  | "object" => dynamic
  | key => host key

def key? : Kind → Option String
  | dynamic => Option.none
  | none => some "NoneType"
  | bool => some "bool"
  | int => some "int"
  | float => some "float"
  | str => some "str"
  | list => some "list"
  | tuple => some "tuple"
  | dict => some "dict"
  | set => some "set"
  | host key => some key

def name (k : Kind) : String := k.key?.getD "object"

def widensTo (k target : Kind) : Bool := k == target || target == dynamic || (k == int && target == float)

def isScalar : Kind → Bool
  | bool | int | float | str => true
  | _ => false

end Kind

end EmbedScript
