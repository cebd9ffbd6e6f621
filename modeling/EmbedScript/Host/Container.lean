import EmbedScript.Arguments
import EmbedScript.Protocol.Item
import EmbedScript.Protocol.Operator

namespace EmbedScript

open Exec

def receiverList (receiver : Value) : Exec (Ref .list) := do
  match receiver with
  | .list r => return r
  | _ => wrongReceiver "list" receiver

def receiverDict (receiver : Value) : Exec (Ref .dict) := do
  match receiver with
  | .dict r => return r
  | _ => wrongReceiver "dict" receiver

def receiverSet (receiver : Value) : Exec (Ref .set) := do
  match receiver with
  | .set r => return r
  | _ => wrongReceiver "set" receiver

def insertPosition (index : Int64) (size : Nat) : Nat :=
  if index < 0 then (index.toInt + size).toNat else min index.toInt.toNat size

def emptyPop : Fault := .index "pop from empty list"

structure SortOptions where
  key : Option Value := none
  reverse : Bool := false

namespace Engine

def sortOptions (k : Engine) (function : String) (keywords : List (String × Value)) :
    Exec SortOptions :=
  keywords.foldlM (fun options (name,value) => do
    match name with
    | "key" => return { options with key := some value }
    | "reverse" => return { options with reverse := ← k.truthy value }
    | other => fail (.type s!"'{other}' is an invalid keyword argument for {function}()")) {}

/-- Removes the first item that equals a value. The place is the one it had before its items were
asked, and must still exist. -/
def removeItem (k : Engine) (r : Ref .list) (v : Value) : Exec Unit := do
  match ← k.indexOf v 0 (← heap fun h => (h.list r).toList) with
  | none => fail (.value "list.remove(x): x not in list")
  | some position =>
    if position < (← heap fun h => (h.list r).size) then
      modifyList r (·.eraseIdxIfInBounds position)
    else stop .crash

def performList (k : Engine) (action : ListAction) (receiver : Value) (arguments : List Value) :
    Exec Value := do
  match action with
  | .empty => newList []
  | .ofValue => newList (← k.items (← argument arguments 0))
  | .append =>
    let r ← receiverList receiver
    let v ← argument arguments 0
    modifyList r (·.push v)
    return .none
  | .extend =>
    let extra ← k.items (← argument arguments 0)
    modifyList (← receiverList receiver) (· ++ extra.toArray)
    return .none
  | .pop =>
    let r ← receiverList receiver
    match ← heap fun h => (h.list r).back? with
    | none => fail emptyPop
    | some v =>
      modifyList r (·.pop)
      return v
  | .popAt =>
    let r ← receiverList receiver
    let items ← heap (·.list r)
    if items.isEmpty then fail emptyPop
    let position ← Sequence.position (← intArgument arguments 0) items.size "pop"
    modifyList r (·.eraseIdxIfInBounds position)
    return items[position]?.getD .none
  | .insert =>
    let r ← receiverList receiver
    let index ← intArgument arguments 0
    let v ← argument arguments 1
    modifyList r fun items => items.insertIdxIfInBounds (insertPosition index items.size) v
    return .none
  | .remove =>
    let r ← receiverList receiver
    k.removeItem r (← argument arguments 0)
    return .none
  | .index =>
    let v ← argument arguments 0
    let r ← receiverList receiver
    match ← k.indexOf v 0 (← heap fun h => (h.list r).toList) with
    | some position => return .int (Word.wrap position)
    | none =>
      let text ← k.repr v
      fail (.value s!"{text} is not in list")
  | .count =>
    let r ← receiverList receiver
    let items ← heap fun h => (h.list r).toList
    return .int (Word.wrap (← k.countOf (← argument arguments 0) items))
  | .reverse =>
    modifyList (← receiverList receiver) (·.reverse)
    return .none
  | .sort =>
    let options ← k.sortOptions "sort" (splitKeywords arguments).2
    let r ← receiverList receiver
    let items ← heap fun h => (h.list r).toList
    let sorted ← k.sort items options.key options.reverse
    setList r sorted.toArray
    return .none
  | .clear =>
    setList (← receiverList receiver) #[]
    return .none
  | .copy =>
    let r ← receiverList receiver
    return .list (← newListRef (← heap (·.list r)))

def performTuple (k : Engine) (action : TupleAction) (receiver : Value)
    (arguments : List Value) : Exec Value := do
  match action with
  | .empty => newTuple []
  | .ofValue => newTuple (← k.items (← argument arguments 0))
  | .index =>
    let v ← argument arguments 0
    match ← k.indexOf v 0 (← k.items receiver) with
    | some position => return .int (Word.wrap position)
    | none => fail (.value "tuple.index(x): x not in tuple")
  | .count =>
    let items ← k.items receiver
    return .int (Word.wrap (← k.countOf (← argument arguments 0) items))

def pairs (k : Engine) (index : Nat) : List Value → Exec (List (Value × Value))
  | [] => return []
  | item :: rest => do
    match ← k.items item with
    | [key,value] => return (key,value) :: (← k.pairs (index + 1) rest)
    | other =>
      let found := other.length
      fail (.value s!"dictionary update sequence element #{index} has length {found}; 2 is required")

def entries (k : Engine) (arguments : List Value) : Exec (List (Value × Value)) := do
  let (positional,keywords) := splitKeywords arguments
  let first ← match positional with
    | [] => pure []
    | [.dict r] => heap fun h => (h.dict r).items
    | [other] => do k.pairs 0 (← k.items other)
    | many =>
      let found := many.length
      fail (.type s!"dict expected at most 1 argument, got {found}")
  return first ++ keywords.map fun (name,value) => (.str name,value)

def performDict (k : Engine) (action : DictAction) (receiver : Value) (arguments : List Value) :
    Exec Value := do
  match action with
  | .ofEntries => newDict (← Dict.insertItems {} (← k.entries arguments))
  | .update =>
    let entries ← k.entries arguments
    let r ← receiverDict receiver
    for (key,value) in entries do setEntry r key value
    return .none
  | .get =>
    let r ← receiverDict receiver
    let key ← argument arguments 0
    return (← heapExcept fun h => (h.dict r).get? key).getD .none
  | .getOr =>
    let r ← receiverDict receiver
    let key ← argument arguments 0
    match ← heapExcept fun h => (h.dict r).get? key with
    | some v => return v
    | none => argument arguments 1
  | .keys =>
    let r ← receiverDict receiver
    newList (← heap fun h => (h.dict r).keys)
  | .values =>
    let r ← receiverDict receiver
    newList (← heap fun h => (h.dict r).values)
  | .items =>
    let r ← receiverDict receiver
    newList (← (← heap fun h => (h.dict r).items).mapM fun (key,value) => newTuple [key,value])
  | .pop | .popOr =>
    let key ← argument arguments 0
    let r ← receiverDict receiver
    let hash ← HashKey.ofValue key
    match ← heap fun h => (h.dict r).entries.get? hash with
    | some (_,v) =>
      modifyDict r fun d => ⟨d.entries.erase hash⟩
      return v
    | none => if action = .pop then k.missingKey key else argument arguments 1
  | .setDefault =>
    let key ← argument arguments 0
    let r ← receiverDict receiver
    match ← heapExcept fun h => (h.dict r).get? key with
    | some v => return v
    | none =>
      let v ← argument arguments 1
      setEntry r key v
      return v
  | .clear =>
    modifyDict (← receiverDict receiver) fun _ => {}
    return .none
  | .copy =>
    let r ← receiverDict receiver
    newDict (← heap (·.dict r))

def otherSet (k : Engine) (arguments : List Value) : Exec ValueSet := do
  match ← argument arguments 0 with
  | .set r => heap (·.set r)
  | other => ValueSet.ofValues (← k.items other)

def performSet (k : Engine) (action : SetAction) (receiver : Value) (arguments : List Value) :
    Exec Value := do
  match action with
  | .empty => newSet {}
  | .ofValue => newSet (← ValueSet.ofValues (← k.items (← argument arguments 0)))
  | .add =>
    let item ← argument arguments 0
    let r ← receiverSet receiver
    let hash ← HashKey.ofValue item
    modifySet r (·.insert hash item)
    return .none
  | .remove =>
    let item ← argument arguments 0
    let r ← receiverSet receiver
    let hash ← HashKey.ofValue item
    if ← heap fun h => (h.set r).contains hash then
      modifySet r (·.erase hash)
      return .none
    k.missingKey item
  | .discard =>
    let item ← argument arguments 0
    let r ← receiverSet receiver
    let hash ← HashKey.ofValue item
    modifySet r (·.erase hash)
    return .none
  | .pop =>
    let r ← receiverSet receiver
    match ← heap fun h => (h.set r).toList with
    | [] => fail (.key "'pop from an empty set'")
    | (hash,item) :: _ =>
      modifySet r (·.erase hash)
      return item
  | .union =>
    let r ← receiverSet receiver
    let own ← heap (·.set r)
    newSet (own.insertAll (← k.otherSet arguments))
  | .intersection =>
    let other ← k.otherSet arguments
    let own ← receiverSet receiver
    newSet (← heap fun h => (h.set own).filterKeys other.contains)
  | .difference =>
    let other ← k.otherSet arguments
    let own ← receiverSet receiver
    newSet (← heap fun h => (h.set own).filterKeys fun key => !other.contains key)
  | .isSubset =>
    let other ← k.otherSet arguments
    let own ← receiverSet receiver
    return .bool (← heap fun h => (h.set own).within other)
  | .clear =>
    modifySet (← receiverSet receiver) fun _ => {}
    return .none
  | .copy =>
    let r ← receiverSet receiver
    newSet (← heap (·.set r))

end Engine

def makeRange (start stop step : Int64) : Except Fault Value :=
  if step == 0 then .error (.value "range() arg 3 must not be zero")
  else .ok (.range ⟨start,stop,step⟩)

def performRange (action : RangeAction) (arguments : List Value) : Exec Value := do
  match action with
  | .upTo => makeRange 0 (← intArgument arguments 0) 1
  | .fromTo =>
    let start ← intArgument arguments 0
    makeRange start (← intArgument arguments 1) 1
  | .stepped =>
    let start ← intArgument arguments 0
    let stop ← intArgument arguments 1
    makeRange start stop (← intArgument arguments 2)

end EmbedScript
