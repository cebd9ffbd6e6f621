import EmbedScript.Protocol.Attribute

/-!
Iteration.

A cursor walks a value once. Generators have no state of their own: a cursor over one walks its
source and takes the step for each item.
-/

namespace EmbedScript

open Exec

def characters (text : String) : List Value := text.toList.map fun c => .str (String.singleton c)

namespace Engine

def iterFrom (k : Engine) : (fuel : Nat) → Value → Exec (Ref .cursor)
  | 0, _ => stop .outOfFuel
  | fuel + 1, v => do
    let byExtension : Exec (Ref .cursor) := do
      match ← extension? v.typeKey "__iter__" with
      | some f => k.iterFrom fuel (← k.call (.function f) [v])
      | none => fail (.notIterable (← typeName v))
    match v with
    | .list r => newCursor (.list r 0)
    | .tuple _ items => newCursor (.items items)
    | .str text => newCursor (.items (characters text))
    | .dict r => newCursor (.items (← heap fun h => (h.dict r).keys))
    | .set r => newCursor (.items (← heap fun h => (h.set r).values))
    | .range r => newCursor (.range r 0)
    | .generator g =>
      let inner ← k.iterFrom fuel (← heap fun h => (h.generator g).source)
      newCursor (.mapped inner g)
    | .iterator c => newCursor (.shared c)
    | .object _ cls =>
      if ← hasMember cls "__iter__" then
        match ← k.callMethod v "__iter__" [] with
        | .object r own =>
          if ← hasMember own "__next__" then newCursor (.object (.object r own))
          else
            let found ← typeName (.object r own)
            fail (.type s!"iter() returned non-iterator of type '{found}'")
        | other => k.iterFrom fuel other
      else if ← hasMember cls "__next__" then newCursor (.object v)
      else byExtension
    | _ => byExtension

def iter (k : Engine) (v : Value) : Exec (Ref .cursor) := k.iterFrom k.fuel v

def nextOfObject (k : Engine) (receiver : Value) : Exec (Option Value) := do
  let mark ← look (·.trace.size)
  let next ← k.getAttr receiver "__next__"
  excusing mark Fault.isStopIteration none do return some (← k.call next [])

def advanceFrom (k : Engine) : (fuel : Nat) → Ref .cursor → Exec (Option Value)
  | 0, _ => stop .outOfFuel
  | fuel + 1, c => do
    match ← heap fun h => (h.cursor c).cursor with
    | .list r index =>
      setCursor c (.list r (index + 1))
      heap fun h => (h.list r)[index]?
    | .items [] => return none
    | .items (item :: rest) =>
      setCursor c (.items rest)
      return some item
    | .range r index =>
      setCursor c (.range r (index + 1))
      return (r.get? index).map .int
    | .mapped inner g =>
      match ← k.advanceFrom fuel inner with
      | none => return none
      | some item =>
        match ← k.step g item with
        | some element => return some element
        | none => k.advanceFrom fuel c
    | .object receiver => k.nextOfObject receiver
    | .shared s =>
      if ← heap fun h => (h.cursor s).busy then fail .iteratorBusy
      else
        modify (setBusy s true)
        restoring (setBusy s false) (k.advanceFrom fuel s)

def advance (k : Engine) (c : Ref .cursor) : Exec (Option Value) := k.advanceFrom k.fuel c

def advanceShared (k : Engine) (c : Ref .cursor) : Exec (Option Value) := do
  if ← heap fun h => (h.cursor c).busy then fail .iteratorBusy
  modify (setBusy c true)
  restoring (setBusy c false) (k.advance c)

def drainFrom (k : Engine) (c : Ref .cursor) : (fuel : Nat) → Array Value → Exec (Array Value)
  | 0, _ => stop .outOfFuel
  | fuel + 1, before => do
    match ← k.advance c with
    | some item => k.drainFrom c fuel (before.push item)
    | none => return before

def items (k : Engine) (v : Value) : Exec (List Value) := do
  match v with
  | .list r => heap fun h => (h.list r).toList
  | .tuple _ items => return items
  | _ =>
    let c ← k.iter v
    return (← k.drainFrom c k.fuel #[]).toList

def iterator (k : Engine) (v : Value) : Exec Value := do
  match v with
  | .iterator _ => return v
  | .object _ cls =>
    if ← hasMember cls "__next__" then return v
    return .iterator (← k.iter v)
  | _ => return .iterator (← k.iter v)

end Engine

end EmbedScript
