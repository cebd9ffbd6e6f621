import EmbedScript.Code.Error
import EmbedScript.Code.Scope
import EmbedScript.Host.Extension

/-!
What compiling keeps track of: the scopes around the current place, innermost first, the line of the
current statement, and the plans made so far.
-/

namespace EmbedScript

structure CompileEnv where
  types : HostTypes
  extensions : Extensions

structure CompileState where
  scopes : List Scope
  line : Nat := 0
  plans : Plans := {}

abbrev Compile := ReaderT CompileEnv (StateT CompileState (Except CompileError))

structure Typed where
  kind : Kind
  code : Code

namespace Typed

def dynamic (code : Code) : Typed := ⟨.dynamic,code⟩

def literal (typed : Bool) (kind : Kind) (value : Literal) : Typed :=
  ⟨if typed then kind else .dynamic,.literal value⟩

def ofKind (kind : Kind) (code : Code) : Typed := ⟨kind,if kind.isScalar then .expect kind code else code⟩

def scalarResult : Kind → BinaryOp → Option Kind
  | .int, .add | .int, .sub | .int, .mul | .int, .floorDiv | .int, .mod => some .int
  | .int, .bitAnd | .int, .bitOr | .int, .bitXor => some .int
  | .int, .div => some .float
  | .int, .pow | .int, .lshift | .int, .rshift => none
  | .int, _ => some .bool
  | .float, .add | .float, .sub | .float, .mul | .float, .div => some .float
  | .str, .add => some .str
  | .float, op | .str, op => if op.isComparison then some .bool else none
  | .bool, .eq | .bool, .ne => some .bool
  | _, _ => none

def binary (op : BinaryOp) (left right : Typed) : Typed :=
  let result := if left.kind = right.kind then scalarResult left.kind op else none
  match result with
  | some kind => ⟨kind,.scalar left.kind op left.code right.code⟩
  | none => dynamic (.binary op left.code right.code)

def unary (op : UnaryOp) (operand : Typed) : Typed :=
  match op, operand.kind with
  | .neg, .int => ⟨.int,.scalarUnary .int .neg operand.code⟩
  | .invert, .int => ⟨.int,.scalarUnary .int .invert operand.code⟩
  | .neg, .float => ⟨.float,.scalarUnary .float .neg operand.code⟩
  | .pos, .int => operand
  | .pos, .float => operand
  | _, _ => dynamic (.unary op operand.code)

end Typed

namespace Compile

def refuse {α : Type} (cause : CompileCause) : Compile α := do
  throw ⟨cause,(← get).line⟩

def scope : Compile Scope := do
  return (← get).scopes.head?.getD { kind := .module, qualname := "<module>" }

def modifyScope (f : Scope → Scope) : Compile Unit := modify fun s => { s with scopes := match s.scopes with
    | [] => []
    | inner :: outer => f inner :: outer }

def isTyped : Compile Bool := return (← scope).typed

def within {α : Type} (inner : Scope) (body : Compile α) : Compile (α × Scope) := do
  modify fun s => { s with scopes := inner :: s.scopes }
  let result ← body
  let left ← scope
  modify fun s => { s with scopes := s.scopes.tail }
  return (result,left)

def resolve (name : String) : Compile (Option CellAt) := modifyGet fun s =>
    let (place,scopes) := Scope.find name true s.scopes
    (place,{ s with scopes })

def addRoutine (plan : RoutinePlan) : Compile Nat := modifyGet fun s => (s.plans.routines.size,
      { s with plans := { s.plans with routines := s.plans.routines.push plan } })

def addElement (plan : ElementPlan) : Compile Nat := modifyGet fun s => (s.plans.elements.size,
      { s with plans := { s.plans with elements := s.plans.elements.push plan } })

def readName (name : String) : Compile Code := do
  let inClass := (← scope).kind == .cls
  match ← resolve name with
  | some (.slot index) => return .slot index name inClass
  | some (.capture index) => return .captured index name
  | none => return .global name

def nameKind (name : String) : Compile Kind := do
  match ← resolve name with
  | some (.slot index) => return (← scope).slotKind index
  | _ => return .dynamic

/-- The kind a slot is declared to have. A slot of no known kind takes that of the first value
stored in it. -/
def declaredKind (slot : Nat) (known : Kind) : Compile Kind := do
  let scope ← scope
  if !scope.typed then return .dynamic
  let declared := scope.slotKind slot
  if declared = .dynamic ∧ known ≠ .dynamic then
    modifyScope (·.setKind slot known)
    return known
  return declared

def storeName (name : String) (known : Kind) : Compile Store := do
  match ← resolve name with
  | none => return .global name
  | some place =>
    let declared ← match place with
      | .slot slot => declaredKind slot known
      | .capture _ => pure .dynamic
    if known ≠ .dynamic ∧ ¬ known.widensTo declared then
      refuse (.assignment known name declared)
    return .cell place name (if declared = known then .dynamic else declared)

/-- The kind that a type name declares. Unknown names, those of script classes among them, stand
for every value. -/
def kindNamed (typeName : String) : Compile Kind := do
  match importedName typeName with
  | "None" | "NoneType" => return .none
  | "object" | "any" | "Any" => return .dynamic
  | name =>
    match (← read).types.get? name with
    | some type => return Kind.ofKey type.name
    | none => return .dynamic

def namedType (target : Expr) : Compile HostType := do
  let find (name : String) : Compile HostType := do
    match (← read).types.get? name with
    | some type => return type
    | none => refuse (.unknownType name)
  match target with
  | .name name => find name
  | .attribute _ name => find name
  | _ => refuse .typeExpected

def bindable (kind : Kind) (name : String) : Compile (Option HostType) := do
  match kind.key? with
  | none => return none
  | some key =>
    let env ← read
    return if env.extensions.contains key name then none else env.types.get? key

def readAttribute (receiver : Typed) (name : String) : Compile Typed := do
  let property := (← bindable receiver.kind name).bind (·.property? name)
  return match property with
    | some property => Typed.ofKind property.kind (.property property.access receiver.code)
    | none => Typed.dynamic (.attribute receiver.code name)

def bindMethod (type : HostType) (name : String) (receiver : Typed) (arguments : List Typed) :
    Compile Typed := do
  let kinds := arguments.map (·.kind)
  let candidates := type.methodsNamed name false
  match Signature.resolve HostMethod.signature candidates kinds true with
  | none => refuse (.noOverload type.name name kinds (candidates.map (·.signature.text)))
  | some method =>
    let widened :=
      if method.signature.variadic then kinds.map fun _ => false
      else (method.signature.params.zip kinds).map fun (p,k) => p.kind == .float && k == .int
    return Typed.ofKind method.signature.returns
      (.invoke method.action receiver.code (arguments.map (·.code)) widened)

/-- Converts a value to a host type: by the constructor for its kind if that is known, and by a
call of the type otherwise. -/
def convertTo (type : HostType) (value : Typed) : Compile Typed := do
  let result := Kind.ofKey type.name
  if value.kind = result then return value
  let call := Typed.ofKind result (.call (.type type.name) [.positional value.code])
  if value.kind = .dynamic then return call
  match Signature.resolve HostMethod.signature type.constructors [value.kind] true with
  | some chosen => return Typed.ofKind result (.construct chosen.action type.name value.code)
  | none =>
    if (← read).extensions.contains type.name "__new__" then return call
    refuse (.conversion value.kind type.name)

def castTo (type : HostType) (value : Typed) : Typed :=
  let result := Kind.ofKey type.name
  if value.kind = result then value
  else Typed.ofKind result (.cast value.code (.type type.name))

def declaredValue (declared : Kind) (what : String) (value : Typed) : Compile Code := do
  if declared = .dynamic ∨ value.kind = declared then return value.code
  if value.kind ≠ .dynamic ∧ ¬ value.kind.widensTo declared then
    refuse (.mismatch what value.kind declared)
  return .coerce declared what value.code

def readSuper : Compile Code := do
  let scope ← scope
  match scope.kind, scope.receiver with
  | .function, some receiver =>
    match ← resolve classCell with
    | some cls => return .super cls receiver
    | none => refuse .superOutsideMethod
  | _, _ => refuse .superWithoutArguments

def paramKind (p : Param) : Compile Kind := do
  match p.kind with
  | .rest => return .tuple
  | .keywords => return .dict
  | .normal =>
    match p.typeName with
    | some typeName => kindNamed typeName
    | none => return .dynamic

def routineScope (name : String) (params : List Param) (typed : Bool) (returns : Option String)
    (bound : Bound) : Compile Scope := do
  let qualname := (← scope).childName name
  let inner := Scope.declareAll { kind := .function, qualname } (params.map (·.name))
  let receiver := match params with
    | { kind := .normal, .. } :: _ => some 0
    | _ => none
  let inner := { inner with receiver, typed }
  if !typed then return inner.declareBound bound
  let inner ← params.foldlM (fun (s : Scope) (p : Param) => do
    let kind ← paramKind p
    return match s.slot? p.name with
      | some slot => if kind = .dynamic then s else s.setKind slot kind
      | none => s) inner
  let returns ← returns.mapM kindNamed
  return { inner with returns }.declareBound bound

def routine (name : String) (params : List Param) (typed : Bool) (returns : Option String)
    (bound : Bound) (defaults : Compile (List (Option Code))) (body : Compile Body) :
    Compile Code := do
  let inner ← routineScope name params typed returns bound
  let declared ← params.mapM fun p => do
    if !typed then return none
    let kind ← paramKind p
    return if kind = .dynamic then none else some kind
  let ((defaults,body),left) ← within inner do
    let defaults ← defaults
    let body ← body
    return (defaults,body)
  let params := (params.zip (defaults.zip declared)).map fun (p,default,declared) =>
    { name := p.name, kind := p.kind, slot := (inner.slot? p.name).getD 0, default, declared : ParamCode }
  let plan ← addRoutine
    { name, qualname := inner.qualname, params, slots := left.locals.length
      captures := left.captures.map (·.2), body }
  return .routine plan

end Compile

def lambdaParam (written : String) : Param :=
  match written.toList with
  | '*' :: '*' :: name => { name := String.ofList name, kind := .keywords }
  | '*' :: name => { name := String.ofList name, kind := .rest }
  | name => { name := String.ofList name }

def Collection.label : Collection → String
  | .generator => "<genexpr>"
  | .list => "<listcomp>"
  | .set => "<setcomp>"
  | .dict => "<dictcomp>"

end EmbedScript
