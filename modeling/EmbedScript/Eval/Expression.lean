import EmbedScript.Eval.Frame
import EmbedScript.Host.Invoke

namespace EmbedScript

open Exec

def Literal.value : Literal → Value
  | .none => .none
  | .bool b => .bool b
  | .int n => .int n
  | .float x => .float x
  | .str text => .str text

/-- A value that must be of a scalar kind. A `bool` counts as an `int`, an `int` as a `float`. -/
def Kind.expect (kind : Kind) (v : Value) : Exec Value := do
  match kind, v with
  | .int, .int n => return .int n
  | .int, .bool b => return .int (if b then 1 else 0)
  | .float, .float x => return .float x
  | .float, .int n => return .float n.toFloat
  | .bool, .bool b => return .bool b
  | .str, .str text => return .str text
  | kind, v =>
    let found ← typeName v
    fail (.type s!"expected {kind.name}, got {found}")

def Kind.coerce (kind : Kind) (what : String) (v : Value) : Exec Value := do
  if kind.accepts v then return v
  match kind, v with
  | .float, .int n => return .float n.toFloat
  | .int, .bool b => return .int (if b then 1 else 0)
  | kind, v =>
    let found ← typeName v
    fail (.type s!"'{what}' must be {kind.name}, not {found}")

def widenArguments : List Value → List Bool → List Value
  | .int n :: vs, true :: flags => .float n.toFloat :: widenArguments vs flags
  | v :: vs, _ :: flags => v :: widenArguments vs flags
  | _, _ => []

def keywordArguments : List (Value × Value) → Exec (List Value)
  | [] => return []
  | (.str name,v) :: rest => do
    let tag ← newTag
    return .keyword tag name v :: (← keywordArguments rest)
  | _ => fail (.type "keywords must be strings")

def emptyClassCell : Fault := .raised (Raised.named "RuntimeError" "super(): empty __class__ cell")

namespace Frame

def readSuper (f : Frame) (cls : CellAt) (receiver : Nat) : Exec Value := do
  match ← heap (·.cell (f.cell cls)), ← heap (·.cell (f.cell (.slot receiver))) with
  | some (.cls cls), some receiver => return .super (← newTag) cls receiver
  | _, _ => fail emptyClassCell

def newRoutine (f : Frame) (plan : Nat) : Exec Value := do
  match ← look (·.plans.routines[plan]?) with
  | none => stop .crash
  | some routine =>
    let module ← heap fun h => (h.module f.home).name
    return .function (← newFunction
      { name := routine.name, qualname := routine.qualname, module
        routine := .script plan (f.captured routine.captures) f.home })

end Frame

namespace Engine

def mergeMapping (k : Engine) (d : Dict) (mapping : Value) : Exec Dict := do
  match mapping with
  | .dict r => d.insertItems (← heap fun h => (h.dict r).items)
  | .object .. =>
    let keys ← k.items (← k.callMethod mapping "keys" [])
    keys.foldlM (fun (d : Dict) key => do d.insert key (← k.getItem mapping key)) d
  | _ =>
    let found ← typeName mapping
    fail (.type s!"'{found}' object is not a mapping")

def decorate (k : Engine) (decorators : List Value) (v : Value) : Exec Value :=
  decorators.foldrM (fun decorator v => k.call decorator [v]) v

def dictOfPairs (pairs : List Value) : Exec Value := do
  newDict (← pairs.foldlM (fun (d : Dict) pair =>
    match pair with
    | .tuple _ [key,value] => d.insert key value
    | _ => pure d) {})

def collectInto (k : Engine) (kind : Collection) (generator : Value) : Exec Value := do
  match kind with
  | .generator => return generator
  | .list => newList (← k.items generator)
  | .set => newSet (← ValueSet.ofValues (← k.items generator))
  | .dict => dictOfPairs (← k.items generator)

end Engine

mutual

def Code.eval (k : Engine) (f : Frame) : Code → Exec Value
  | .literal l => return l.value
  | .slot i name inClass => f.readSlot i name inClass
  | .captured i name => f.readCaptured i name
  | .global name => f.readGlobal name
  | .format value => do return .str (← k.str (← value.eval k f))
  | .tuple items => do newTuple (← Code.evalItems k f items)
  | .list items => do newList (← Code.evalItems k f items)
  | .set items => do newSet (← ValueSet.ofValues (← Code.evalItems k f items))
  | .dict entries => do newDict (← Code.evalEntries k f {} entries)
  | .binary op left right => do
    let left ← left.eval k f
    k.binary op left (← right.eval k f)
  | .unary op operand => do k.unary op (← operand.eval k f)
  | .not operand => do return .bool !(← k.truthy (← operand.eval k f))
  | .and left right => do
    let first ← left.eval k f
    if ← k.truthy first then right.eval k f else return first
  | .or left right => do
    let first ← left.eval k f
    if ← k.truthy first then return first else right.eval k f
  | .identity negated left right => do
    let left ← left.eval k f
    let right ← right.eval k f
    return .bool ((← heap (·.isIdentical left right)) != negated)
  | .membership negated item container => do
    let item ← item.eval k f
    let container ← container.eval k f
    return .bool ((← k.contains container item) != negated)
  | .ternary condition yes no => do
    if ← k.truthy (← condition.eval k f) then yes.eval k f else no.eval k f
  | .attribute object name => do k.getAttr (← object.eval k f) name
  | .index object place => do
    let object ← object.eval k f
    k.getItem object (← place.eval k f)
  | .slice object start stop step => do
    let slice ← f.readGlobal "slice"
    let object ← object.eval k f
    let start ← start.eval k f
    let stop ← stop.eval k f
    k.call slice [object,start,stop,← step.eval k f]
  | .call callee arguments => do
    let callee ← callee.eval k f
    k.call callee (← Code.evalArguments k f arguments)
  | .routine plan => f.newRoutine plan
  | .comprehension kind source plan => do
    let source ← source.eval k f
    match ← look (·.plans.elements[plan]?) with
    | none => stop .crash
    | some element =>
      let generator ← newGenerator { source, plan, captures := f.captured element.captures, home := f.home }
      k.collectInto kind generator
  | .convert value target => do
    let value ← value.eval k f
    k.call (← target.eval k f) [value]
  | .cast value target => do
    let value ← value.eval k f
    castValue value (← target.eval k f)
  | .super cls receiver => f.readSuper cls receiver
  | .decorated decorators definition => do
    let decorators ← Code.evalAll k f decorators
    k.decorate decorators (← definition.eval k f)
  | .expect kind value => do kind.expect (← value.eval k f)
  | .coerce kind what value => do kind.coerce what (← value.eval k f)
  | .scalar _ op left right => do
    let left ← left.eval k f
    op.onScalars left (← right.eval k f)
  | .scalarUnary _ op operand => do op.onScalar (← operand.eval k f)
  | .property access object => do access.read (← object.eval k f)
  | .invoke action receiver arguments widened => do
    let receiver ← receiver.eval k f
    let arguments ← Code.evalAll k f arguments
    k.perform action receiver (widenArguments arguments widened)
  | .construct action key value => do k.perform action (.type key) [← value.eval k f]
  | .type key => return .type key

def Code.evalAll (k : Engine) (f : Frame) : List Code → Exec (List Value)
  | [] => return []
  | code :: codes => do
    let v ← code.eval k f
    return v :: (← Code.evalAll k f codes)

def Code.evalItems (k : Engine) (f : Frame) : List ItemCode → Exec (List Value)
  | [] => return []
  | .one value :: items => do
    let v ← value.eval k f
    return v :: (← Code.evalItems k f items)
  | .spread value :: items => do
    let vs ← k.items (← value.eval k f)
    return vs ++ (← Code.evalItems k f items)

def Code.evalEntries (k : Engine) (f : Frame) (d : Dict) : List EntryCode → Exec Dict
  | [] => return d
  | .pair key value :: entries => do
    let key ← key.eval k f
    let value ← value.eval k f
    Code.evalEntries k f (← d.insert key value) entries
  | .unpack value :: entries => do
    let mapping ← value.eval k f
    Code.evalEntries k f (← k.mergeMapping d mapping) entries

def Code.evalArguments (k : Engine) (f : Frame) : List ArgCode → Exec (List Value)
  | [] => return []
  | .positional value :: arguments => do
    let v ← value.eval k f
    return v :: (← Code.evalArguments k f arguments)
  | .keyword name value :: arguments => do
    let v ← value.eval k f
    let tag ← newTag
    return .keyword tag name v :: (← Code.evalArguments k f arguments)
  | .star value :: arguments => do
    let vs ← k.items (← value.eval k f)
    return vs ++ (← Code.evalArguments k f arguments)
  | .doubleStar value :: arguments => do
    let entries ← k.mergeMapping {} (← value.eval k f)
    let vs ← keywordArguments entries.items
    return vs ++ (← Code.evalArguments k f arguments)

end

end EmbedScript
