import EmbedScript.Eval.Call
import EmbedScript.Host.Tally
import EmbedScript.Modules
import EmbedScript.Prelude

/-!
The interpreter: the engine, and what a program that embeds scripts can do.
-/

namespace EmbedScript

open Exec

def engine : (fuel : Nat) → Engine
  | 0 =>
    { fuel := 0
      call := fun _ _ => stop .outOfFuel
      enter := inCall
      step := fun _ _ => stop .outOfFuel
      importModule := fun _ => stop .outOfFuel }
  | fuel + 1 =>
    { fuel
      call := fun callee arguments => (engine fuel).callValue callee arguments
      enter := inCall
      step := fun generator item => (engine fuel).generatorStep generator item
      importModule := fun path => (engine fuel).importPath path }

def amply : Nat := 0x1000000000000000

structure Config where
  maxDepth : Nat := 200
  prelude : Option String := none
  search : List String := ["."]
  /-- The texts of all modules, if they do not come from files. The prelude does not see them. -/
  modules : Option (List (String × String)) := none
  disk : Disk := .tree {}

def Config.source (c : Config) : ModuleSource :=
  match c.modules with
  | some texts => .table texts
  | none => .files c.search

namespace Interpreter

def k : Engine := engine amply

def initial (c : Config) : World :=
  { types := Standard.types, maxDepth := c.maxDepth, source := .files c.search, disk := c.disk }

def finish {α : Type} (x : Exec α) : Exec (Except Failure α) := do
  let result ← attempt x
  let trace ← modifyGet fun w => (w.trace.toList,{ w with trace := #[] })
  return match result with
    | .ok a => .ok a
    | .error e => .error (.runtime e trace)

def readFile (path : String) : Exec (Except Failure String) := do
  let disk ← look (·.disk)
  match disk.read? path with
  | none => stop (.needs path)
  | some (.ok text) => return .ok text
  | some (.error e) => return .error (.unreadable path e)

end Interpreter

namespace Engine

open Interpreter (finish)

def prepareAndRun (k : Engine) (m : Ref .module) (source : String) (snippet : Bool) :
    Exec (Except Failure Value) := do
  match ← prepare source snippet with
  | .error e => return .error e
  | .ok code => finish (k.runCode m code)

def runSource (k : Engine) (name source : String) : Exec (Except Failure (Ref .module)) := do
  let m ← newModule name
  return (← k.prepareAndRun m source false).map fun _ => m

def callNamed (k : Engine) (m : Ref .module) (name : String) (arguments : List Value) :
    Exec (Except Failure Value) := do
  match ← heap fun h => (h.module m).globals.get? name with
  | none => return .error (.runtime (.name name) [])
  | some callee =>
    match callee with
    | .function _ | .method .. | .cls _ => finish (inModule m (k.call callee arguments))
    | other => return .error (.runtime (.notCallable (← typeName other)) [])

end Engine

namespace Interpreter

-- Starting

def newObjectClass : Exec (Ref .cls) := do
  let members ← Builtin.ofObject.mapM fun b => return (b.name,Value.function (← newBuiltin b))
  let bases ← newTuple []
  newClass (ClassInfo.define "object" "builtins" [] bases (OrderedMap.ofList members) [])

def newPrelude : Exec (Ref .module) := do
  let functions ← Builtin.everywhere.mapM fun b => return (b.name,Value.function (← newBuiltin b))
  let object := ("object",Value.cls (← look (·.objectClass)))
  let types := (← look (·.types)).types.map fun t => (t.name,Value.type t.name)
  newModuleRef { name := "builtins", globals := OrderedMap.ofList (functions ++ object :: types) }

def start (c : Config) : Exec (Except Failure Unit) := do
  let objectClass ← newObjectClass
  modify fun w => { w with objectClass }
  let m ← newPrelude
  let source ← match c.prelude with
    | some path => readFile path
    | none => pure (.ok preludeText)
  match source with
  | .error e => return .error e
  | .ok source =>
    match ← k.prepareAndRun m source false with
    | .error e => return .error e
    | .ok _ =>
      modify fun w => { w with prelude := some m, source := c.source }
      return .ok ()

-- Running

def runSource (name source : String) : Exec (Except Failure (Ref .module)) := k.runSource name source

def runFile (path : String) : Exec (Except Failure (Ref .module)) := do
  match ← readFile path with
  | .error e => return .error e
  | .ok source => runSource "__main__" source

def evalSnippet (m : Ref .module) (source : String) : Exec (Except Failure Value) :=
  k.prepareAndRun m source true

def callFunction (m : Ref .module) (name : String) (arguments : List Value) : Exec (Except Failure Value) :=
  k.callNamed m name arguments

def untraced {α : Type} (x : Exec α) : Exec (Except Failure α) := do
  let result ← attempt x
  modify fun w => { w with trace := #[] }
  return match result with
    | .ok a => .ok a
    | .error e => .error (.runtime e [])

def importModule (path : String) : Exec (Except Failure (Ref .module)) := untraced (k.importModule path)

def importNames (path : String) (names : List String) : Exec (Except Failure Value) :=
  untraced do newTuple (← k.importNames path names)

-- Extending

def registerType (t : HostType) : Exec Unit := do
  modify fun w => { w with types := w.types.register t }
  match ← look (·.prelude) with
  | some m => setGlobal m t.name (.type t.name)
  | none => return ()

def registerExtension (key : String) (b : Builtin) : Exec Unit := do
  let f ← newBuiltin b
  modify fun w => { w with extensions := w.extensions.register key b.name f }

-- Looking

def takeOutput : Exec String := modifyGet fun w => (w.output,{ w with output := "" })

structure Description where
  typeName : String
  text : Except Fault String

def describe (v : Value) : Exec Description := do
  let typeName ← typeName v
  let output ← look (·.output)
  let text ← attempt (k.repr v)
  modify fun w => { w with output, trace := #[] }
  return ⟨typeName,text⟩

def ownGlobals (m : Ref .module) : Exec (List (String × Value)) := look fun w =>
    let given := match w.prelude with
      | some p => (w.heap.module p).globals
      | none => {}
    (w.heap.module m).globals.toList.filter fun (name,v) =>
      name != "__name__" && !(given.get? name).any v.same

def describeGlobals (m : Ref .module) : Exec (List (String × Description)) := do
  (← ownGlobals m).mapM fun (name,v) => return (name,← describe v)

end Interpreter

end EmbedScript
