import EmbedScript.Eval.Expression

namespace EmbedScript

open Exec

mutual

def Store.put (k : Engine) (f : Frame) : Store → Value → Exec Unit
  | .cell place name declared, v => do
    let v ← if declared = .dynamic then pure v else declared.coerce name v
    setCell (f.cell place) (some v)
  | .global name, v => setGlobal f.home name v
  | .attribute object name, v => do k.setAttr (← object.eval k f) name v
  | .index object place, v => do
    let object ← object.eval k f
    k.setItem object (← place.eval k f) v
  | .tuple stores, v => do
    let vs ← k.items v
    if vs.length = stores.length then Store.putAll k f stores vs
    else fail (.unpackCount stores.length vs.length)

def Store.putAll (k : Engine) (f : Frame) : List Store → List Value → Exec Unit
  | store :: stores, v :: vs => do
    store.put k f v
    Store.putAll k f stores vs
  | _, _ => return ()

end

mutual

def Deletion.run (k : Engine) (f : Frame) : Deletion → Exec Unit
  | .cell place name => do
    if (← heap (·.cell (f.cell place))).isNone then fail (.unboundLocal name)
    setCell (f.cell place) none
  | .global name => do
    if (← f.global? name).isNone then fail (.name name)
    modifyGlobals f.home (·.erase name)
  | .attribute object name => do k.delAttr (← object.eval k f) name
  | .index object place => do
    let object ← object.eval k f
    k.delItem object (← place.eval k f)
  | .tuple items => Deletion.runAll k f items

def Deletion.runAll (k : Engine) (f : Frame) : List Deletion → Exec Unit
  | [] => return ()
  | item :: items => do
    item.run k f
    Deletion.runAll k f items

end

def noActiveException : Fault := .raised (Raised.named "RuntimeError" "No active exception to reraise")

def ClassInfo.define (name module : String) (bases : List (Ref .cls)) (basesTuple : Value)
    (own : OrderedMap String Value) (inherited : List (OrderedMap String Value)) : ClassInfo :=
  let members := inherited.foldl (fun members base =>
    base.entries.foldl (fun members (name,v) => members.insertNew name v) members) own
  let members := members.insert "__name__" (.str name)
  let members := members.insert "__module__" (.str module)
  { name, module, bases, members := members.insert "__bases__" basesTuple }

def defineClass (name module : String) (bases : List (Ref .cls)) (own : OrderedMap String Value) :
    Exec (Ref .cls) := do
  let bases ← if bases.isEmpty then pure [← look (·.objectClass)] else pure bases
  let inherited ← heap fun h => bases.map fun base => (h.cls base).members
  let basesTuple ← newTuple (bases.map .cls)
  newClass (ClassInfo.define name module bases basesTuple own inherited)

namespace Engine

def raise (k : Engine) (v : Value) : Exec Flow := do
  let v ← match v with
    | .cls _ => k.call v []
    | v => pure v
  let message ← k.str v
  match v with
  | .object _ cls =>
    let typeName ← heap fun h => (h.cls cls).name
    fail (.raised ⟨typeName,← heap (·.lineage cls),message⟩)
  | _ => fail (.raised (Raised.named "Exception" message))

def missingName (path name : String) : Fault → Fault
  | .importing _ => .importing s!"cannot import name '{name}' from '{path}'"
  | e => e

def importNames (k : Engine) (path : String) (names : List String) : Exec (List Value) := do
  let m ← k.importModule path
  names.mapM fun name => do
    match ← heap fun h => (h.module m).globals.get? name with
    | some v => return v
    | none =>
      return .module (← onFault (missingName path name) id (k.importModule s!"{path}.{name}"))

def repeatWhile (test : Exec Bool) (body : Exec Flow) : (fuel : Nat) → Exec Flow
  | 0 => stop .outOfFuel
  | fuel + 1 => do
    if ← test then
      match ← body with
      | .breaks => return .next
      | .returns v => return .returns v
      | .next => repeatWhile test body fuel
      | .continues => repeatWhile test body fuel
    else return .next

def repeatFor (next : Exec (Option Value)) (body : Value → Exec Flow) : (fuel : Nat) → Exec Flow
  | 0 => stop .outOfFuel
  | fuel + 1 => do
    match ← next with
    | none => return .next
    | some item =>
      match ← body item with
      | .breaks => return .next
      | .returns v => return .returns v
      | .next => repeatFor next body fuel
      | .continues => repeatFor next body fuel

end Engine

def Code.evalBases (k : Engine) (f : Frame) : List Code → Exec (List (Ref .cls))
  | [] => return []
  | code :: codes => do
    match ← code.eval k f with
    | .cls base => return base :: (← Code.evalBases k f codes)
    | other =>
      let found ← typeName other
      fail (.type s!"bases must be classes, not '{found}'")

def Frame.members (f : Frame) (plan : ClassPlan) : Exec (OrderedMap String Value) :=
  heap fun h => plan.members.foldl (fun own (name,slot) =>
    match h.cell (f.cell (.slot slot)) with
    | some v => own.insert name v
    | none => own) {}

def importAll (k : Engine) (home : Ref .module) (path : String) : Exec Flow := do
  let m ← k.importModule path
  let exported ← heap fun h => (h.module m).globals.filterKeys fun name => !name.startsWith "_"
  modifyGlobals home (·.insertAll exported)
  return .next

mutual

def Instr.exec (k : Engine) (f : Frame) : Instr → Exec Flow
  | .mk line kind => do
    setLine line
    kind.exec k f

def InstrKind.exec (k : Engine) (f : Frame) : InstrKind → Exec Flow
  | .eval value => do
    discard (value.eval k f)
    return .next
  | .assign value stores => do
    let v ← value.eval k f
    for store in stores do store.put k f v
    return .next
  | .augment current op value store => do
    let left ← current.eval k f
    let right ← value.eval k f
    store.put k f (← k.augment op left right)
    return .next
  | .augmentAttribute object name op value => do
    let object ← object.eval k f
    let left ← k.getAttr object name
    let right ← value.eval k f
    k.setAttr object name (← k.augment op left right)
    return .next
  | .augmentIndex object index op value => do
    let object ← object.eval k f
    let index ← index.eval k f
    let left ← k.getItem object index
    let right ← value.eval k f
    k.setItem object index (← k.augment op left right)
    return .next
  | .cond branches otherwise => do
    match ← Instr.execBranches k f branches with
    | some flow => return flow
    | none => Instr.execBlock k f otherwise
  | .whileLoop condition body =>
    Engine.repeatWhile (do k.truthy (← condition.eval k f)) (Instr.execBlock k f body) k.fuel
  | .forLoop source store body => do
    let c ← k.iter (← source.eval k f)
    Engine.repeatFor (k.advance c) (fun item => do
        store.put k f item
        Instr.execBlock k f body)
      k.fuel
  | .classDef decorators bases plan body store => do
    let decorators ← Code.evalAll k f decorators
    let bases ← Code.evalBases k f bases
    let inner ← newFrame plan.slots (f.captured plan.captures) f.home
    discard (Instr.execBlock k inner body)
    let own ← inner.members plan
    let module ← heap fun h => (h.module f.home).name
    let cls ← defineClass plan.name module bases own
    setCell (inner.cell (.slot plan.classSlot)) (some (.cls cls))
    store.put k f (← k.decorate decorators (.cls cls))
    return .next
  | .returns value => return .returns (← value.eval k f)
  | .breaks => return .breaks
  | .continues => return .continues
  | .skip => return .next
  | .deletes targets => do
    Deletion.runAll k f targets
    return .next
  | .raises (some value) => do k.raise (← value.eval k f)
  | .raises none => fail noActiveException
  | .asserts test message => do
    if ← k.truthy (← test.eval k f) then return .next
    match message with
    | none => fail (.assertion "")
    | some message => fail (.assertion (← k.str (← message.eval k f)))
  | .importModule path store => do
    store.put k f (.module (← k.importModule path))
    return .next
  | .importAll path => importAll k f.home path
  | .importNames path names stores => do
    Store.putAll k f stores (← k.importNames path names)
    return .next

def Instr.execBranches (k : Engine) (f : Frame) : List BranchCode → Exec (Option Flow)
  | [] => return none
  | .mk condition body :: branches => do
    if ← k.truthy (← condition.eval k f) then return some (← Instr.execBlock k f body)
    Instr.execBranches k f branches

def Instr.execBlock (k : Engine) (f : Frame) : List Instr → Exec Flow
  | [] => return .next
  | instr :: instrs => do
    match ← instr.exec k f with
    | .next => Instr.execBlock k f instrs
    | flow => return flow

end

end EmbedScript
