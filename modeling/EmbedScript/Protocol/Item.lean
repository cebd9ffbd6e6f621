import EmbedScript.Protocol.Equality
import EmbedScript.Protocol.Iteration
import EmbedScript.Protocol.Text
import EmbedScript.Sequence
import EmbedScript.Text.Search

namespace EmbedScript

open Exec

def sequenceIndex (container index : Value) : Exec Int64 := do
  match index.asInt? with
  | some n => return n
  | none =>
    let container ← typeName container
    let found ← typeName index
    fail (.type s!"{container} indices must be integers, not {found}")

def asLength (v : Value) : Exec Nat := do
  match v with
  | .int n => if n < 0 then fail (.value "__len__() should return >= 0") else return n.toInt.toNat
  | _ => fail (.notInteger (← typeName v))

namespace Engine

def missingKey {α : Type} (k : Engine) (key : Value) : Exec α := do
  fail (.key (← k.repr key))

def getItem (k : Engine) (v index : Value) : Exec Value := do
  match v with
  | .list r =>
    let n ← sequenceIndex v index
    let items ← heap (·.list r)
    let position ← Sequence.position n items.size "list"
    return items[position]?.getD .none
  | .tuple _ items =>
    let n ← sequenceIndex v index
    let position ← Sequence.position n items.length "tuple"
    return items[position]?.getD .none
  | .str text =>
    let n ← sequenceIndex v index
    let items := characters text
    let position ← Sequence.position n items.length "string"
    return items[position]?.getD .none
  | .range r =>
    let n ← sequenceIndex v index
    let position ← Sequence.position n r.size "range object"
    return (r.get? position).elim .none .int
  | .dict r =>
    match ← heapExcept fun h => (h.dict r).get? index with
    | some value => return value
    | none => k.missingKey index
  | _ =>
    match ← k.hook v "__getitem__" [index] with
    | some value => return value
    | none => fail (.notSubscriptable (← typeName v))

def setItem (k : Engine) (v index value : Value) : Exec Unit := do
  match v with
  | .list r =>
    let n ← sequenceIndex v index
    let position ← Sequence.position n (← heap fun h => (h.list r).size) "list assignment"
    modifyList r (·.setIfInBounds position value)
  | .dict r => setEntry r index value
  | _ =>
    if (← k.hook v "__setitem__" [index,value]).isNone then
      fail (.notAssignable (← typeName v))

def delItem (k : Engine) (v index : Value) : Exec Unit := do
  match v with
  | .object .. => discard (k.callMethod v "__delitem__" [index])
  | .list r =>
    let n ← sequenceIndex v index
    let position ← Sequence.position n (← heap fun h => (h.list r).size) "list assignment"
    modifyList r (·.eraseIdxIfInBounds position)
  | .dict r =>
    let hash ← HashKey.ofValue index
    if (← heap fun h => (h.dict r).entries.contains hash) then
      modifyDict r fun d => ⟨d.entries.erase hash⟩
    else k.missingKey index
  | _ =>
    let found ← typeName v
    fail (.type s!"'{found}' object doesn't support item deletion")

def contains (k : Engine) (v item : Value) : Exec Bool := do
  match v with
  | .str text =>
    match item with
    | .str pattern => return Text.occursIn pattern.toList text.toList
    | _ =>
      let found ← typeName item
      fail (.type s!"'in <string>' requires string as left operand, not {found}")
  | .list r => k.anyEquals (← heap fun h => (h.list r).toList) item
  | .tuple _ items => k.anyEquals items item
  | .range r => return item.asInt?.any r.contains
  | .dict r => heapExcept fun h => (h.dict r).contains item
  | .set r => heapExcept fun h => (h.set r).has item
  | _ =>
    match ← k.hook v "__contains__" [item] with
    | some found => k.truthy found
    | none => fail (.noMembership (← typeName v))

def len (k : Engine) (v : Value) : Exec Nat := do
  match v with
  | .str text => return text.length
  | .list r => heap fun h => (h.list r).size
  | .tuple _ items => return items.length
  | .dict r => heap fun h => (h.dict r).size
  | .set r => heap fun h => (h.set r).size
  | .range r => return r.size
  | _ =>
    match ← k.hook v "__len__" [] with
    | some length => asLength length
    | none => fail (.noLength (← typeName v))

end Engine

end EmbedScript
