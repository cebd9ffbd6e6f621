import EmbedScript.Code.Statement
import EmbedScript.Eval.Statement
import EmbedScript.Failure

namespace EmbedScript

open Exec

namespace ModuleSource

def search (disk : Disk) (path : String) : List String → Exec (Option String)
  | [] => return none
  | directory :: directories =>
    let candidate := Path.candidate directory path
    match disk.read? candidate with
    | none => stop (.needs candidate)
    | some (.ok text) => return some text
    | some (.error .notFound) => search disk path directories
    | some (.error e) => fail (.importing s!"cannot load module '{path}': {e.message}")

def load (source : ModuleSource) (disk : Disk) (path : String) : Exec (Option String) :=
  match source with
  | .table texts => return texts.lookup path
  | .files directories => search disk path directories

end ModuleSource

def prepare (source : String) (snippet : Bool) : Exec (Except Failure (List Instr)) := fun w =>
  match parse source with
  | .error e => .done (.error (.syntactic e)) w
  | .ok program =>
    match compileProgram ⟨w.types,w.extensions⟩ w.plans program snippet with
    | .error e => .done (.error (.compile e)) w
    | .ok (code,plans) => .done (.ok code) { w with plans }

namespace Engine

def runInstrs (k : Engine) (m : Ref .module) (code : List Instr) : Exec Value := do
  match ← Instr.execBlock k { base := 0, captures := #[], home := m } code with
  | .returns v => return v
  | _ => return .none

def runCode (k : Engine) (m : Ref .module) (code : List Instr) : Exec Value :=
  inModule m (inCode .module (k.runInstrs m code))

end Engine

def newModule (name : String) : Exec (Ref .module) := do
  let globals ← look fun w => match w.prelude with
    | some m => (w.heap.module m).globals
    | none => {}
  newModuleRef { name, globals := globals.insert "__name__" (.str name) }

/-- The module is known already while it runs, so that modules may import each other, and forgotten
if it fails. -/
def Engine.importPath (k : Engine) (path : String) : Exec (Ref .module) := do
  match ← look (·.loaded.lookup path) with
  | some m => return m
  | none =>
    let source ← look (·.source)
    match ← source.load (← look (·.disk)) path with
    | none => fail (.importing s!"No module named '{path}'")
    | some text =>
      let m ← newModule path
      match ← prepare text false with
      | .error failure => fail (.importing s!"{failure.message} in module '{path}'")
      | .ok code =>
        modify fun w => { w with loaded := (path,m) :: w.loaded, milestones := .begins path :: w.milestones }
        discard (onFault id (fun w => { w with loaded := w.loaded.filter (·.1 != path) }) (k.runCode m code))
        modify fun w => { w with milestones := .ends path :: w.milestones }
        return m

end EmbedScript
