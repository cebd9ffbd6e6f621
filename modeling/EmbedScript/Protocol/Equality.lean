import EmbedScript.Protocol.Truth

/-!
Equality and order of values. Objects are asked, the left one first.
-/

namespace EmbedScript

open Exec

def Value.sameNumber (a b : Value) : Bool :=
  match a.asInt?, b.asInt? with
  | some a, some b => a == b
  | _, _ =>
    match a.asFloat?, b.asFloat? with
    | some a, some b => a == b
    | _, _ => false

def Heap.plainEquals (h : Heap) (a b : Value) : Bool :=
  if a.isNumber && b.isNumber then a.sameNumber b
  else match a, b with
    | .set r, .set s => r == s || (h.set r).sameKeys (h.set s)
    | _, _ => a.same b

def allEqual (equal : Value → Value → Exec Bool) : List Value → List Value → Exec Bool
  | a :: as, b :: bs => do
    if ← equal a b then allEqual equal as bs else return false
  | _, _ => return true

namespace Engine

def equalsFrom (k : Engine) : (fuel : Nat) → Value → Value → Exec Bool
  | 0, _, _ => stop .outOfFuel
  | fuel + 1, a, b => do
    let sameItems (as bs : List Value) : Exec Bool :=
      if as.length = bs.length then allEqual (k.equalsFrom fuel) as bs else return false
    match a, b with
    | .object .., _ => k.truthy (← k.callMethod a "__eq__" [b])
    | _, .object .. => k.truthy (← k.callMethod b "__eq__" [a])
    | .list r, .list s =>
      if r = s then return true
      let as ← heap fun h => (h.list r).toList
      let bs ← heap fun h => (h.list s).toList
      sameItems as bs
    | .tuple _ as, .tuple _ bs => sameItems as bs
    | .dict r, .dict s =>
      if r = s then return true
      let entries ← heap fun h => (h.dict r).items
      if entries.length ≠ (← heap fun h => (h.dict s).size) then return false
      entries.allM fun (key,value) => do
        match ← heapExcept fun h => (h.dict s).get? key with
        | some theirs => k.equalsFrom fuel value theirs
        | none => return false
    | _, _ => heap (·.plainEquals a b)

/-- Equality. Whatever the fuel, there is enough for values that hold no others. -/
def equals (k : Engine) (a b : Value) : Exec Bool := k.equalsFrom (k.fuel + 1) a b

def anyEquals (k : Engine) (items : List Value) (v : Value) : Exec Bool :=
  items.anyM fun item => k.equals item v

def indexOf (k : Engine) (v : Value) : (start : Nat) → List Value → Exec (Option Nat)
  | _, [] => return none
  | index, item :: items => do
    if ← k.equals item v then return some index
    k.indexOf v (index + 1) items

def countOf (k : Engine) (v : Value) (items : List Value) : Exec Nat := items.foldlM (fun count item => do
    if ← k.equals item v then return count + 1 else return count) 0

end Engine

def ValueSet.order (a b : ValueSet) : Option Ordering :=
  match OrderedMap.within a b, OrderedMap.within b a with
  | true, true => some .eq
  | true, false => some .lt
  | false, true => some .gt
  | false, false => none

namespace Engine

def notOrdered (a b : Value) : Exec (Option Ordering) := do
  let a ← typeName a
  let b ← typeName b
  fail (.type s!"'<' not supported between instances of '{a}' and '{b}'")

def orderItems (k : Engine) (order : Value → Value → Exec (Option Ordering)) :
    List Value → List Value → Exec (Option Ordering)
  | a :: as, b :: bs => do
    if ← k.equals a b then k.orderItems order as bs
    else
      match ← order a b with
      | some o => return some o
      | none => notOrdered a b
  | as, bs => return some (compare as.length bs.length)

def orderFrom (k : Engine) : (fuel : Nat) → Value → Value → Exec (Option Ordering)
  | 0, _, _ => stop .outOfFuel
  | fuel + 1, a, b => do
    match a, b with
    | .str a, .str b => return some (compare a b)
    | .list r, .list s =>
      let as ← heap fun h => (h.list r).toList
      let bs ← heap fun h => (h.list s).toList
      k.orderItems (k.orderFrom fuel) as bs
    | .tuple _ as, .tuple _ bs => k.orderItems (k.orderFrom fuel) as bs
    | .set r, .set s => heap fun h => (h.set r).order (h.set s)
    | _, _ =>
      match a.asInt?, b.asInt? with
      | some a, some b => return some (compare a.toInt b.toInt)
      | _, _ =>
        match a.asFloat?, b.asFloat? with
        | some a, some b => return Double.compare? a b
        | _, _ => return none

def order (k : Engine) (a b : Value) : Exec (Option Ordering) := k.orderFrom (k.fuel + 1) a b

end Engine

end EmbedScript
