import EmbedScript.Code
import EmbedScript.Files
import EmbedScript.Heap
import EmbedScript.Host.Extension

/-!
Running: the state a script runs in, and computations on it. A fault keeps the state, because what
was done before it stays done.
-/

namespace EmbedScript

structure TraceFrame where
  routine : String
  line : Nat
  deriving DecidableEq, Repr

def TraceFrame.text (f : TraceFrame) : String := s!"at {f.routine}, line {f.line}"

inductive Call where
  | builtin (name : String)
  | routine (qualname : String)
  | module
  deriving DecidableEq, Repr

def moduleFrame : String := "<module>"

def Call.frame? : Call → Option String
  | builtin _ => none
  | routine qualname => some qualname
  | module => some moduleFrame

structure Bookkeeping where
  line : Nat := 0
  depth : Nat := 0
  maxDepth : Nat
  trace : Array TraceFrame := #[]
  running : List (Ref .module) := []
  calls : List Call := []
  shownLists : List (Ref .list) := []
  shownDicts : List (Ref .dict) := []

inductive Milestone where
  | begins (path : String)
  | ends (path : String)
  deriving DecidableEq, Repr

structure World extends Bookkeeping where
  heap : Heap := {}
  plans : Plans := {}
  types : HostTypes
  extensions : Extensions := {}
  raised : Option (Fault × List Call) := none
  prelude : Option (Ref .module) := none
  loaded : List (String × Ref .module) := []
  milestones : List Milestone := []
  source : ModuleSource := .table []
  disk : Disk := .tree {}
  output : String := ""
  objectClass : Ref .cls := ⟨0⟩

inductive Halt where
  | crash
  | outOfFuel
  | needs (path : String)
  deriving DecidableEq, Repr

inductive Outcome (α : Type) where
  | done (value : α) (world : World)
  | fault (fault : Fault) (world : World)
  | halt (halt : Halt)

def Exec (α : Type) : Type := World → Outcome α

namespace Exec

variable {α β : Type}

@[inline] def run (x : Exec α) (w : World) : Outcome α := x w

@[inline] protected def pure (a : α) : Exec α := fun w => .done a w

@[inline] protected def bind (x : Exec α) (f : α → Exec β) : Exec β := fun w =>
  match x w with
  | .done a w => f a w
  | .fault e w => .fault e w
  | .halt h => .halt h

instance : Monad Exec where
  pure := Exec.pure
  bind := Exec.bind

instance : Inhabited (Exec α) := ⟨fun _ => .halt .outOfFuel⟩

@[inline] def fail (e : Fault) : Exec α := fun w => .fault e { w with raised := some (e,w.calls) }

@[inline] def stop (h : Halt) : Exec α := fun _ => .halt h

@[inline] def ofExcept : Except Fault α → Exec α
  | .ok a => Exec.pure a
  | .error e => fail e

instance : MonadLift (Except Fault) Exec := ⟨ofExcept⟩

instance : MonadStateOf World Exec where
  get := fun w => .done w w
  set w := fun _ => .done () w
  modifyGet f := fun w => let (a,w) := f w; .done a w

@[inline] def attempt (x : Exec α) : Exec (Except Fault α) := fun w =>
  match x w with
  | .done a w => .done (.ok a) w
  | .fault e w => .done (.error e) w
  | .halt h => .halt h

/-- A value stands in for some errors, and the frames that they left behind the mark are forgotten.
-/
@[inline] def excusing (mark : Nat) (handles : Fault → Bool) (instead : α) (x : Exec α) : Exec α := fun w =>
    match x w with
    | .done a left => .done a left
    | .fault e left =>
      if handles e then .done instead { left with trace := left.trace.take mark }
      else .fault e left
    | .halt h => .halt h

@[inline] def onFault (reword : Fault → Fault) (undo : World → World) (x : Exec α) : Exec α := fun w =>
    match x w with
    | .done a left => .done a left
    | .fault e left => .fault (reword e) (undo left)
    | .halt h => .halt h

@[inline] def restoring (restore : World → World) (x : Exec α) : Exec α := fun w =>
  match x w with
  | .done a w => .done a (restore w)
  | .fault e w => .fault e (restore w)
  | .halt h => .halt h

@[inline] def look (f : World → α) : Exec α := fun w => .done (f w) w

@[inline] def heap (f : Heap → α) : Exec α := fun w => .done (f w.heap) w

@[inline] def modifyHeap (f : Heap → Heap) : Exec Unit := fun w => .done () { w with heap := f w.heap }

@[inline] def modifyGetHeap (f : Heap → α × Heap) : Exec α := fun w =>
  let (a,heap) := f w.heap
  .done a { w with heap }

@[inline] def heapExcept (f : Heap → Except Fault α) : Exec α := fun w => ofExcept (f w.heap) w

-- New values

def newTag : Exec Nat := modifyGetHeap fun h => (h.nextTag,{ h with nextTag := h.nextTag + 1 })

def newTuple (items : List Value) : Exec Value := return .tuple (← newTag) items

def newListRef (items : Array Value) : Exec (Ref .list) :=
  modifyGetHeap fun h => (⟨h.lists.size⟩,{ h with lists := h.lists.push items })

def newList (items : List Value) : Exec Value := return .list (← newListRef items.toArray)

def newDictRef (d : Dict) : Exec (Ref .dict) :=
  modifyGetHeap fun h => (⟨h.dicts.size⟩,{ h with dicts := h.dicts.push d })

def newDict (d : Dict) : Exec Value := return .dict (← newDictRef d)

def newSetRef (s : ValueSet) : Exec (Ref .set) :=
  modifyGetHeap fun h => (⟨h.sets.size⟩,{ h with sets := h.sets.push s })

def newSet (s : ValueSet) : Exec Value := return .set (← newSetRef s)

def newFunction (f : FunctionInfo) : Exec (Ref .function) :=
  modifyGetHeap fun h => (⟨h.functions.size⟩,{ h with functions := h.functions.push f })

def newBuiltin (b : Builtin) : Exec (Ref .function) := newFunction
    { name := b.name, qualname := b.name, module := "builtins", routine := .builtin b }

def newClass (c : ClassInfo) : Exec (Ref .cls) :=
  modifyGetHeap fun h => (⟨h.classes.size⟩,{ h with classes := h.classes.push c })

def newObject (cls : Ref .cls) : Exec Value :=
  modifyGetHeap fun h => (.object ⟨h.objects.size⟩ cls,{ h with objects := h.objects.push {} })

def newModuleRef (m : ModuleInfo) : Exec (Ref .module) :=
  modifyGetHeap fun h => (⟨h.modules.size⟩,{ h with modules := h.modules.push m })

def newGenerator (g : GeneratorInfo) : Exec Value := modifyGetHeap fun h =>
    (.generator ⟨h.generators.size⟩,{ h with generators := h.generators.push g })

def newCursor (c : Cursor) : Exec (Ref .cursor) :=
  modifyGetHeap fun h => (⟨h.cursors.size⟩,{ h with cursors := h.cursors.push ⟨c,false⟩ })

def newIterator (items : List Value) : Exec Value := return .iterator (← newCursor (.items items))

def newNative (key : String) (s : NativeState) : Exec Value :=
  modifyGetHeap fun h => (.native ⟨h.natives.size⟩ key,{ h with natives := h.natives.push s })

def newCells (count : Nat) : Exec Nat := modifyGetHeap fun h =>
    (h.cells.size,{ h with cells := (Array.range count).foldl (fun cs _ => cs.push none) h.cells })

def bindMethod (receiver : Value) (function : Ref .function) : Exec Value :=
  return .method (← newTag) receiver function

def newNil (receiver : Value) (key name : String) (statics : Bool) : Exec Value :=
  return .nil (← newTag) receiver key name statics

-- Changes

def modifyList (r : Ref .list) (f : Array Value → Array Value) : Exec Unit :=
  modifyHeap fun h => { h with lists := h.lists.modify r.id f }

def setList (r : Ref .list) (items : Array Value) : Exec Unit := modifyList r fun _ => items

def modifyDict (r : Ref .dict) (f : Dict → Dict) : Exec Unit :=
  modifyHeap fun h => { h with dicts := h.dicts.modify r.id f }

def setEntry (r : Ref .dict) (key value : Value) : Exec Unit := do
  let hash ← HashKey.ofValue key
  modifyDict r (·.insertAt hash key value)

def modifySet (r : Ref .set) (f : ValueSet → ValueSet) : Exec Unit :=
  modifyHeap fun h => { h with sets := h.sets.modify r.id f }

def modifyFields (r : Ref .object) (f : OrderedMap String Value → OrderedMap String Value) :
    Exec Unit :=
  modifyHeap fun h => { h with objects := h.objects.modify r.id fun o => { o with fields := f o.fields } }

def modifyMembers (r : Ref .cls) (f : OrderedMap String Value → OrderedMap String Value) :
    Exec Unit :=
  modifyHeap fun h => { h with classes := h.classes.modify r.id fun c => { c with members := f c.members } }

def modifyGlobals (r : Ref .module) (f : OrderedMap String Value → OrderedMap String Value) :
    Exec Unit :=
  modifyHeap fun h => { h with modules := h.modules.modify r.id fun m => { m with globals := f m.globals } }

def setGlobal (r : Ref .module) (name : String) (value : Value) : Exec Unit :=
  modifyGlobals r (·.insert name value)

def setCursor (r : Ref .cursor) (c : Cursor) : Exec Unit :=
  modifyHeap fun h => { h with cursors := h.cursors.modify r.id fun i => { i with cursor := c } }

def setBusy (r : Ref .cursor) (busy : Bool) (w : World) : World :=
  { w with heap := { w.heap with
      cursors := w.heap.cursors.modify r.id fun i => { i with busy } } }

def setNative (r : Ref .native) (s : NativeState) : Exec Unit :=
  modifyHeap fun h => { h with natives := h.natives.modify r.id fun _ => s }

def setCell (r : Ref .cell) (value : Option Value) : Exec Unit :=
  modifyHeap fun h => { h with cells := h.cells.modify r.id fun _ => value }

def markStatic (r : Ref .function) : Exec Unit := modifyHeap fun h =>
    { h with functions := h.functions.modify r.id fun f => { f with isStatic := true } }

-- Lines, calls, traces

def setLine (line : Nat) : Exec Unit := fun w => .done () { w with line }

def typeName (v : Value) : Exec String := heap (·.typeName v)

def recordCall (c : Call) (w : World) : World :=
  match c.frame? with
  | some routine => { w with trace := w.trace.push ⟨routine,w.line⟩ }
  | none => w

def inCode (c : Call) (x : Exec α) : Exec α := fun w =>
  match x { w with calls := c :: w.calls } with
  | .done a left => .done a { left with calls := left.calls.tail, line := w.line }
  | .fault e left =>
    let left := recordCall c left
    .fault e { left with calls := left.calls.tail, line := w.line }
  | .halt h => .halt h

def inCall (c : Call) (x : Exec α) : Exec α := fun w =>
  if w.maxDepth ≤ w.depth then fail (.recursion w.maxDepth) w
  else
    match inCode c x { w with depth := w.depth + 1 } with
    | .done a left => .done a { left with depth := left.depth - 1 }
    | .fault e left => .fault e { left with depth := left.depth - 1 }
    | .halt h => .halt h

def inModule (r : Ref .module) (x : Exec α) : Exec α := fun w =>
  match x { w with running := r :: w.running } with
  | .done a left => .done a { left with running := left.running.tail }
  | .fault e left => .fault e { left with running := left.running.tail }
  | .halt h => .halt h

def write (text : String) : Exec Unit := fun w => .done () { w with output := w.output ++ text }

end Exec

end EmbedScript
