import EmbedScript.Builtin
import EmbedScript.HashKey

/-!
The heap: tables of everything that values refer to.

Entries are only ever added or changed, never removed, so a reference stays valid.
-/

namespace EmbedScript

inductive Routine where
  | builtin (builtin : Builtin)
  | script (plan : Nat) (captures : Array (Ref .cell)) (home : Ref .module)

structure FunctionInfo where
  name : String
  qualname : String
  module : String
  routine : Routine
  isStatic : Bool := false

def FunctionInfo.isBuiltin (f : FunctionInfo) : Bool :=
  match f.routine with
  | .builtin _ => true
  | .script .. => false

/-- A class. Members of its bases are among its own. -/
structure ClassInfo where
  name : String
  module : String
  bases : List (Ref .cls)
  members : OrderedMap String Value

structure ObjectInfo where
  fields : OrderedMap String Value := {}

structure ModuleInfo where
  name : String
  globals : OrderedMap String Value := {}

/-- A lazy transformation of a source. Every iteration starts it anew. -/
structure GeneratorInfo where
  source : Value
  plan : Nat
  captures : Array (Ref .cell)
  home : Ref .module

inductive Cursor where
  /-- A list is walked by position, so changes made meanwhile are seen. -/
  | list (list : Ref .list) (index : Nat)
  | items (rest : List Value)
  | range (range : Range) (index : Nat)
  | mapped (inner : Ref .cursor) (generator : Ref .generator)
  | object (receiver : Value)
  | shared (cursor : Ref .cursor)

structure CursorInfo where
  cursor : Cursor
  busy : Bool := false

inductive NativeState where
  | builder (text newline : String)
  | tally (count : Int64) (label : String)

structure Heap where
  lists : Array (Array Value) := #[]
  dicts : Array Dict := #[]
  sets : Array ValueSet := #[]
  functions : Array FunctionInfo := #[]
  classes : Array ClassInfo := #[]
  objects : Array ObjectInfo := #[]
  modules : Array ModuleInfo := #[]
  generators : Array GeneratorInfo := #[]
  cursors : Array CursorInfo := #[]
  natives : Array NativeState := #[]
  cells : Array (Option Value) := #[]
  nextTag : Nat := 0

namespace Heap

def list (h : Heap) (r : Ref .list) : Array Value := h.lists[r.id]?.getD #[]

def dict (h : Heap) (r : Ref .dict) : Dict := h.dicts[r.id]?.getD {}

def set (h : Heap) (r : Ref .set) : ValueSet := h.sets[r.id]?.getD {}

def function (h : Heap) (r : Ref .function) : FunctionInfo :=
  h.functions[r.id]?.getD ⟨"","","",.builtin .objectInit,false⟩

def cls (h : Heap) (r : Ref .cls) : ClassInfo := h.classes[r.id]?.getD ⟨"","",[],{}⟩

def object (h : Heap) (r : Ref .object) : ObjectInfo := h.objects[r.id]?.getD {}

def module (h : Heap) (r : Ref .module) : ModuleInfo := h.modules[r.id]?.getD ⟨"",{}⟩

def generator (h : Heap) (r : Ref .generator) : GeneratorInfo := h.generators[r.id]?.getD ⟨.none,0,#[],⟨0⟩⟩

def cursor (h : Heap) (r : Ref .cursor) : CursorInfo := h.cursors[r.id]?.getD ⟨.items [],false⟩

def native (h : Heap) (r : Ref .native) : NativeState := h.natives[r.id]?.getD (.builder "" "")

def cell (h : Heap) (r : Ref .cell) : Option Value := h.cells[r.id]?.getD none

/-- `sub` is `sup` or one of its bases derives from it. The fuel bounds the depth of the bases. -/
def derives (h : Heap) (sup : Ref .cls) : (fuel : Nat) → (sub : Ref .cls) → Bool
  | 0, _ => false
  | fuel + 1, sub => sub == sup || (h.cls sub).bases.any (derives h sup fuel)

/-- Bases are older than what derives from them, so no chain of bases is longer than the table. -/
def isSubclass (h : Heap) (sub sup : Ref .cls) : Bool := h.derives sup h.classes.size sub

def lineageFrom (h : Heap) : (fuel : Nat) → Ref .cls → List String
  | 0, _ => []
  | fuel + 1, r =>
    let info := h.cls r
    info.bases.foldl (fun names base => (lineageFrom h fuel base).foldl (fun names name =>
        if names.contains name then names else names ++ [name]) names) [info.name]

def lineage (h : Heap) (r : Ref .cls) : List String := h.lineageFrom h.classes.size r

def typeName (h : Heap) : Value → String
  | .object _ cls => (h.cls cls).name
  | v => v.typeKey

end Heap

end EmbedScript
