import EmbedScript.Arithmetic
import EmbedScript.Protocol.Equality
import EmbedScript.Protocol.Iteration
import EmbedScript.Sequence

/-!
Operators.

The left object is asked first, then the right one for the reflected operator, then an extension
of the left type; after that the builtin types have their own rules.
-/

namespace EmbedScript

open Exec

def BinaryOp.reflected : BinaryOp → Option String
  | .add => some "__radd__"
  | .sub => some "__rsub__"
  | .mul => some "__rmul__"
  | .div => some "__rdiv__"
  | .floorDiv => some "__rfloordiv__"
  | .mod => some "__rmod__"
  | .pow => some "__rpow__"
  | .lt => some "__gt__"
  | .le => some "__ge__"
  | .gt => some "__lt__"
  | .ge => some "__le__"
  | .eq => some "__eq__"
  | .ne => some "__ne__"
  | _ => none

def BinaryOp.inPlace (op : BinaryOp) : String := "__i" ++ String.ofList (op.hook.toList.drop 2)

def UnaryOp.symbol : UnaryOp → String
  | .neg => "-"
  | .pos => "+"
  | .invert => "~"

def ValueSet.combine (op : BinaryOp) (a b : ValueSet) : Option ValueSet :=
  match op with
  | .bitOr => some (OrderedMap.insertAll a b)
  | .bitAnd => some (OrderedMap.filterKeys a fun key => OrderedMap.contains b key)
  | .sub => some (OrderedMap.filterKeys a fun key => !OrderedMap.contains b key)
  | .bitXor => some (OrderedMap.insertAll (OrderedMap.filterKeys a fun key => !OrderedMap.contains b key)
      (OrderedMap.filterKeys b fun key => !OrderedMap.contains a key))
  | _ => none

def repeatText (text : String) (times : Int64) : Except Fault Value := do
  let n ← Sequence.repeatCount text.utf8ByteSize times
  return .str (String.join (List.replicate n text))

def containerBinary (op : BinaryOp) (a b : Value) : Exec (Option Value) := do
  match op, a, b with
  | .add, .str a, .str b => return some (.str (a ++ b))
  | .mul, .str text, .int n => return some (← repeatText text n)
  | .mul, .int n, .str text => return some (← repeatText text n)
  | .add, .list r, .list s =>
    let a ← heap (·.list r)
    let b ← heap (·.list s)
    return some (.list (← newListRef (a ++ b)))
  | .mul, .list r, .int n =>
    return some (← newList (← Sequence.repeatItems (← heap fun h => (h.list r).toList) n))
  | .mul, .int n, .list r =>
    return some (← newList (← Sequence.repeatItems (← heap fun h => (h.list r).toList) n))
  | .add, .tuple _ a, .tuple _ b => return some (← newTuple (a ++ b))
  | .mul, .tuple _ a, .int n => return some (← newTuple (← Sequence.repeatItems a n))
  | .mul, .int n, .tuple _ a => return some (← newTuple (← Sequence.repeatItems a n))
  | op, .set r, .set s =>
    match ← heap fun h => (h.set r).combine op (h.set s) with
    | some set => return some (← newSet set)
    | none => return none
  | .bitOr, .dict r, .dict s =>
    let a ← heap (·.dict r)
    let b ← heap (·.dict s)
    return some (← newDict (← a.insertItems b.items))
  | _, _, _ => return none

def builtinBinary (op : BinaryOp) (a b : Value) : Exec (Option Value) := do
  match a, b with
  | .bool x, .bool y =>
    match boolBinary op x y with
    | some v => return some v
    | none => intBinary op (if x then 1 else 0) (if y then 1 else 0)
  | _, _ =>
    match a.asInt?, b.asInt? with
    | some x, some y => intBinary op x y
    | _, _ =>
      match a.asFloat?, b.asFloat? with
      | some x, some y => return (← floatBinary op x y).map .float
      | _, _ => containerBinary op a b

namespace Engine

def compares (k : Engine) (op : BinaryOp) (a b : Value) : Exec (Option Value) := do
  return (← k.order a b).map fun o => .bool (op.holds o)

def unsupported (op : BinaryOp) (a b : Value) : Exec Value := do
  let a ← typeName a
  let b ← typeName b
  if op.isComparison then
    fail (.type s!"'{op.symbol}' not supported between instances of '{a}' and '{b}'")
  else fail (.type s!"unsupported operand type(s) for {op.symbol}: '{a}' and '{b}'")

def scriptBinary (k : Engine) (op : BinaryOp) (a b : Value) : Exec (Option Value) := do
  let byLeft ← match a with
    | .object _ cls => k.objectHook a cls op.hook [b]
    | _ => pure none
  if byLeft.isSome then return byLeft
  let byRight ← match b, op.reflected with
    | .object _ cls, some hook => k.objectHook b cls hook [a]
    | _, _ => pure none
  if byRight.isSome then return byRight
  match a with
  | .object .. => return none
  | _ =>
    match ← extension? a.typeKey op.hook with
    | some f => return some (← k.call (.function f) [a,b])
    | none => return none

def binary (k : Engine) (op : BinaryOp) (a b : Value) : Exec Value := do
  match ← k.scriptBinary op a b with
  | some v => return v
  | none =>
    match op with
    | .eq => return .bool (← k.equals a b)
    | .ne => return .bool !(← k.equals a b)
    | .lt | .le | .gt | .ge =>
      match ← k.compares op a b with
      | some v => return v
      | none => unsupported op a b
    | _ =>
      match ← builtinBinary op a b with
      | some v => return v
      | none => unsupported op a b

def augment (k : Engine) (op : BinaryOp) (a b : Value) : Exec Value := do
  let inPlace ← match a with
    | .object _ cls => k.objectHook a cls op.inPlace [b]
    | _ => pure none
  match inPlace, op, a with
  | some v, _, _ => return v
  | none, .add, .list r =>
    let extra ← k.items b
    modifyList r (· ++ extra.toArray)
    return a
  | none, _, _ => k.binary op a b

def unary (k : Engine) (op : UnaryOp) (v : Value) : Exec Value := do
  let byObject ← match v with
    | .object _ cls => k.objectHook v cls op.hook []
    | _ => pure none
  match byObject, ← extension? v.typeKey op.hook with
  | some result, _ => return result
  | none, some f => k.call (.function f) [v]
  | none, none =>
    match op, v, v.asInt? with
    | .neg, .float x, _ => return .float (-x)
    | .pos, .float x, _ => return .float x
    | _, _, some n => op.onScalar (.int n)
    | _, _, none =>
      let found ← typeName v
      fail (.type s!"bad operand type for unary {op.symbol}: '{found}'")

def sort (k : Engine) (items : List Value) (key : Option Value) (reverse : Bool) : Exec (List Value) := do
  let keyed ← items.mapM fun item => do
    match key with
    | none => return (item,item)
    | some .none => return (item,item)
    | some f => return (← k.call f [item],item)
  let less (a b : Value) : Exec Bool := do k.truthy (← k.binary .lt a b)
  let sorted ← Sequence.mergeSort (fun (a b : Value × Value) =>
    if reverse then less b.1 a.1 else less a.1 b.1) keyed
  return sorted.map (·.2)

end Engine

end EmbedScript
