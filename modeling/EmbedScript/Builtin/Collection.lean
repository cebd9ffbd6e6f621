import EmbedScript.Builtin.Object
import EmbedScript.Host.Container

namespace EmbedScript

open Exec

def sliceBound (v : Value) : Exec (Option Int64) :=
  match v with
  | .none => return none
  | v =>
    match v.asInt? with
    | some n => return some n
    | none => fail (.type "slice indices must be integers or None")

/-- The part of a range at the positions of a walk. The new stop only has to lie behind the last
element. -/
def Range.part (r : Range) (w : Sequence.Walk) (step : Int64) : Range :=
  let first := if w.count = 0 then none else r.get? (w.item 0).toNat
  let last := if w.count = 0 then none else r.get? (w.item (w.count - 1)).toNat
  match first, last with
  | some first, some last =>
    let stop := max Word.least (min Word.greatest (last.toInt + step.toInt))
    ⟨first,Int64.ofInt stop,step⟩
  | _, _ => ⟨r.start,r.start,step⟩

def sliceRange (r : Range) (start stop step : Option Int64) : Exec Value := do
  let stride := step.getD 1
  if stride == 0 then fail Sequence.zeroStep
  if Word.greatest < r.size && (start.isSome || stop.isSome) then Exec.stop .crash
  match Word.mul? r.step stride with
  | none => fail (.overflow "range step too large")
  | some step =>
    if Word.greatest < r.size then return .range ⟨r.start,r.start,step⟩
    return .range (r.part (Sequence.walk r.size start stop stride) step)

namespace Engine

def sliceValue (k : Engine) (target start stop step : Value) : Exec Value := do
  match target with
  | .object .. => k.callMethod target "__getslice__" [start,stop,step]
  | _ =>
    let start ← sliceBound start
    let stop ← sliceBound stop
    let step ← sliceBound step
    match target with
    | .list r => newList (← heapExcept fun h => Sequence.slice (h.list r) start stop step)
    | .tuple _ items => newTuple (← Sequence.slice items.toArray start stop step)
    | .str text =>
      return .str (String.ofList (← Sequence.slice text.toList.toArray start stop step))
    | .range r => sliceRange r start stop step
    | _ => fail (.notSubscriptable (← typeName target))

def nextItem (k : Engine) (iterator : Value) (default : Option Value) : Exec Value := do
  match iterator with
  | .iterator c =>
    match ← k.advanceShared c, default with
    | some item, _ => return item
    | none, some default => return default
    | none, none => fail .stopIteration
  | .object .. =>
    match default with
    | none => k.callMethod iterator "__next__" []
    | some default =>
      let mark ← look (·.trace.size)
      excusing mark Fault.isStopIteration default (k.callMethod iterator "__next__" [])
  | _ =>
    let found ← typeName iterator
    fail (.type s!"'{found}' object is not an iterator")

def numbered (start : Int64) : List Value → Exec (List Value)
  | [] => return []
  | item :: items => do
    let pair ← newTuple [.int start,item]
    return pair :: (← numbered (start + 1) items)

def enumerateItems (k : Engine) (arguments : List Value) : Exec Value := do
  let (positional,keywords) := splitKeywords arguments
  match positional with
  | source :: rest =>
    if 1 < rest.length then fail (.argumentRange "enumerate" 1 2 positional.length)
    match (rest.head?.or (keywords.lookup "start")).elim (some 0) Value.asInt? with
    | none => fail (.type "enumerate() start must be an integer")
    | some start => newIterator (← numbered start (← k.items source))
  | [] => fail (.argumentRange "enumerate" 1 2 0)

def zipRow (k : Engine) : List (Ref .cursor) → Exec (Option (List Value))
  | [] => return some []
  | c :: cursors => do
    match ← k.advance c with
    | none => return none
    | some item => return (← k.zipRow cursors).map (item :: ·)

def zipRows (k : Engine) (cursors : List (Ref .cursor)) : (fuel : Nat) → Array Value → Exec (Array Value)
  | 0, _ => stop .outOfFuel
  | fuel + 1, rows => do
    match ← k.zipRow cursors with
    | some row => k.zipRows cursors fuel (rows.push (← newTuple row))
    | none => return rows

def zipItems (k : Engine) (arguments : List Value) : Exec Value := do
  let cursors ← arguments.mapM k.iter
  if cursors.isEmpty then newIterator []
  else newIterator (← k.zipRows cursors k.fuel #[]).toList

def sumFrom (k : Engine) (c : Ref .cursor) : (fuel : Nat) → Value → Exec Value
  | 0, _ => stop .outOfFuel
  | fuel + 1, total => do
    match ← k.advance c with
    | some item => k.sumFrom c fuel (← k.binary .add total item)
    | none => return total

def sumItems (k : Engine) (source start : Value) : Exec Value := do
  match start with
  | .str _ => fail (.type "sum() can't sum strings [use ''.join(seq) instead]")
  | _ => k.sumFrom (← k.iter source) k.fuel start

def sortedItems (k : Engine) (arguments : List Value) : Exec Value := do
  let (positional,keywords) := splitKeywords arguments
  match positional with
  | [source] =>
    let options ← k.sortOptions "sorted" keywords
    newList (← k.sort (← k.items source) options.key options.reverse)
  | _ => wrongCount .sorted 1 positional

def collect (k : Engine) (b : Builtin) (arguments : List Value) : Exec Value := do
  match b, arguments with
  | .len, [v] => return .int (Word.wrap (← k.len v))
  | .iter, [v] => k.iterator v
  | .next, [v] => k.nextItem v none
  | .next, [v,default] => k.nextItem v (some default)
  | .next, _ => fail (.argumentRange b.name 1 2 arguments.length)
  | .sorted, _ => k.sortedItems arguments
  | .enumerate, _ => k.enumerateItems arguments
  | .zip, _ => k.zipItems arguments
  | .sum, [source] => k.sumItems source (.int 0)
  | .sum, [source,start] => k.sumItems source start
  | .sum, _ => fail (.argumentRange b.name 1 2 arguments.length)
  | .slice, [target,start,stop,step] => k.sliceValue target start stop step
  | .slice, _ => wrongCount b 4 arguments
  | _, _ => wrongCount b 1 arguments

end Engine

end EmbedScript
