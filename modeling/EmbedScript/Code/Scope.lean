import EmbedScript.Code

/-!
Scopes. A name that a scope does not bind is looked for outward and captured by every scope on the
way. What no scope binds belongs to the module. A class body keeps its names to itself, the hidden
`__class__` apart.
-/

namespace EmbedScript

inductive ScopeKind where
  | module
  | function
  | cls
  deriving DecidableEq, Repr

def classCell : String := "__class__"

structure Scope where
  kind : ScopeKind
  qualname : String
  locals : List String := []
  globals : List String := []
  nonlocals : List String := []
  captures : List (String × CellAt) := []
  loops : Nat := 0
  typed : Bool := false
  kinds : List (Nat × Kind) := []
  returns : Option Kind := none
  receiver : Option Nat := none

namespace Scope

def slot? (s : Scope) (name : String) : Option Nat := s.locals.idxOf? name

def capture? (s : Scope) (name : String) : Option Nat := (s.captures.map (·.1)).idxOf? name

def declare (s : Scope) (name : String) : Scope :=
  if s.locals.contains name then s else { s with locals := s.locals ++ [name] }

def declareAll (s : Scope) (names : List String) : Scope := names.foldl declare s

def slotKind (s : Scope) (slot : Nat) : Kind := (s.kinds.lookup slot).getD .dynamic

def setKind (s : Scope) (slot : Nat) (kind : Kind) : Scope := { s with kinds := (slot,kind) :: s.kinds }

def childName (s : Scope) (name : String) : String :=
  match s.kind with
  | .module => name
  | .cls => s!"{s.qualname}.{name}"
  | .function => s!"{s.qualname}.<locals>.{name}"

def visible? (s : Scope) (innermost : Bool) (name : String) : Option Nat :=
  if innermost || s.kind != .cls || name == classCell then s.slot? name else none

def endsSearch (s : Scope) (name : String) : Bool := s.kind == .module || s.globals.contains name

/-- Finds a name from the innermost of the scopes outward, capturing it on the way. No cell means
that the name belongs to the module. -/
def find (name : String) : (innermost : Bool) → List Scope → Option CellAt × List Scope
  | _, [] => (none,[])
  | innermost, scope :: outer =>
    if scope.endsSearch name then (none,scope :: outer)
    else match scope.visible? innermost name with
      | some slot => (some (.slot slot),scope :: outer)
      | none => match scope.capture? name with
        | some index => (some (.capture index),scope :: outer)
        | none => match find name false outer with
          | (none,outer) => (none,scope :: outer)
          | (some place,outer) => (some (.capture scope.captures.length),
              { scope with captures := scope.captures ++ [(name,place)] } :: outer)

end Scope

def Target.names : Target → List String
  | .name n => [n]
  | .attribute .. => []
  | .index .. => []
  | .tuple items => many items
where
  many : List Target → List String
    | [] => []
    | item :: items => item.names ++ many items

structure Bound where
  names : List String := []
  globals : List String := []
  nonlocals : List String := []

def Bound.append (a b : Bound) : Bound :=
  { names := a.names ++ b.names
    globals := a.globals ++ b.globals
    nonlocals := a.nonlocals ++ b.nonlocals }

def importedName (path : String) : String := (path.splitOn ".").getLast?.getD path

mutual

def Stmt.bound : Stmt → Bound
  | .mk _ kind => kind.bound

def StmtKind.bound : StmtKind → Bound
  | .assign targets _ => { names := targets.flatMap Target.names }
  | .augAssign target _ _ => { names := target.names }
  | .cond branches otherwise => (boundOfBranches branches).append (boundOf otherwise)
  | .whileLoop _ body => boundOf body
  | .forLoop target _ body => Bound.append { names := target.names } (boundOf body)
  | .function head _ => { names := [head.name] }
  | .classDef head _ => { names := [head.name] }
  | .deletes targets => { names := targets.flatMap Target.names }
  | .globals names => { globals := names }
  | .nonlocals names => { nonlocals := names }
  | .importModule path => { names := [importedName path] }
  | .importNames _ names => { names }
  | .expr _ | .returns _ | .breaks | .continues | .pass | .raises _ | .asserts .. => {}

def boundOfBranches : List Branch → Bound
  | [] => {}
  | .mk _ body :: branches => (boundOf body).append (boundOfBranches branches)

def boundOf : List Stmt → Bound
  | [] => {}
  | statement :: statements => statement.bound.append (boundOf statements)

end

def Scope.declareBound (s : Scope) (bound : Bound) : Scope :=
  let here := bound.names.filter fun name => !bound.globals.contains name && !bound.nonlocals.contains name
  { s with globals := bound.globals, nonlocals := bound.nonlocals }.declareAll here

end EmbedScript
