import EmbedScript.Code.Expression

namespace EmbedScript

def Expr.elementKind (e : Expr) : Compile Kind := do
  if !(← Compile.isTyped) then return .dynamic
  match e with
  | .call (.name "range") _ => return .int
  | .str _ => return .str
  | .name n => return if (← Compile.nameKind n) = .str then .str else .dynamic
  | _ => return .dynamic

def Compile.assign (targets : List Target) (value : Typed) : Compile InstrKind := do
  let known := if ← Compile.isTyped then value.kind else .dynamic
  return .assign value.code (← targets.mapM (·.compileStore known))

def Compile.augment (target : Target) (op : BinaryOp) (value : Expr) : Compile InstrKind := do
  match target with
  | .name name =>
    if ← Compile.isTyped then
      Compile.assign [target] (← (Expr.binary op (.name name) value).compile true)
    else
      let current ← Compile.readName name
      let value ← value.operand
      return .augment current op value (← Compile.storeName name .dynamic)
  | .attribute object name => do
    let object ← object.operand
    return .augmentAttribute object name op (← value.operand)
  | .index object index => do
    let object ← object.operand
    let index ← index.operand
    return .augmentIndex object index op (← value.operand)
  | .tuple _ => Compile.refuse .augmentedTuple

def Compile.returnValue : Option Expr → Compile Code
  | none => return .literal .none
  | some value => do
    match (← Compile.scope).returns with
    | some declared => Compile.declaredValue declared "return value" (← value.compile true)
    | none => value.operand

def Compile.returns (value : Option Expr) : Compile InstrKind := do
  if (← Compile.scope).kind ≠ .function then Compile.refuse .returnOutsideFunction
  return .returns (← Compile.returnValue value)

def Compile.leaveLoop (cause : CompileCause) (kind : InstrKind) : Compile InstrKind := do
  if (← Compile.scope).loops = 0 then Compile.refuse cause
  return kind

def Compile.inLoop {α : Type} (body : Compile α) : Compile α := do
  Compile.modifyScope fun s => { s with loops := s.loops + 1 }
  let result ← body
  Compile.modifyScope fun s => { s with loops := s.loops - 1 }
  return result

def Compile.checkNonlocals (names : List String) : Compile InstrKind := do
  if (← Compile.scope).kind ≠ .function then Compile.refuse .nonlocalOutsideFunction
  for name in names do
    if (← Compile.resolve name).isNone then Compile.refuse (.nonlocalUnbound name)
  return .skip

def Compile.importNames (path : String) (names : List String) : Compile InstrKind := do
  if names.isEmpty then
    if (← Compile.scope).kind ≠ .module then Compile.refuse .importAllInside
    return .importAll path
  return .importNames path names (← names.mapM fun name => Compile.storeName name .dynamic)

def Compile.dynamics (es : List Expr) : Compile (List Code) :=
  es.mapM fun e => return (← e.compile false).code

def Compile.classDef (head : ClassHead) (bound : Bound) (body : Compile (List Instr)) :
    Compile InstrKind := do
  let decorators ← Compile.dynamics head.decorators
  let bases ← Compile.dynamics head.bases
  let qualname := (← Compile.scope).childName head.name
  let inner := (Scope.declare { kind := .cls, qualname } classCell).declareBound bound
  let (body,left) ← Compile.within inner body
  let plan : ClassPlan :=
    { name := head.name, slots := left.locals.length, captures := left.captures.map (·.2)
      members := left.locals.zipIdx.filter fun (name,_) => name != classCell
      classSlot := (left.slot? classCell).getD 0 }
  return .classDef decorators bases plan body (← Compile.storeName head.name .dynamic)

mutual

def Stmt.compile : Stmt → Compile Instr
  | .mk line kind => do
    modify fun s => { s with line }
    return .mk line (← kind.compile)

def StmtKind.compile : StmtKind → Compile InstrKind
  | .expr value => return .eval (← value.operand)
  | .assign targets value => do
    Compile.assign targets (← value.compile (← Compile.isTyped))
  | .augAssign target op value => Compile.augment target op value
  | .cond branches otherwise => do
    let branches ← Stmt.compileBranches branches
    return .cond branches (← Stmt.compileBlock otherwise)
  | .whileLoop condition body => do
    let condition ← condition.operand
    return .whileLoop condition (← Compile.inLoop (Stmt.compileBlock body))
  | .forLoop target iterable body => do
    let kind ← iterable.elementKind
    let source ← iterable.operand
    let store ← target.compileStore kind
    return .forLoop source store (← Compile.inLoop (Stmt.compileBlock body))
  | .function head body => do
    let decorators ← Compile.dynamics head.decorators
    let defaults := head.params.mapM fun p => p.default.mapM fun e => return (← e.compile false).code
    let definition ← Compile.routine head.name head.params head.isTyped head.returns (boundOf body)
      defaults (do return .block (← Stmt.compileBlock body))
    return .assign (.decorated decorators definition) [← Compile.storeName head.name .dynamic]
  | .classDef head body => Compile.classDef head (boundOf body) (Stmt.compileBlock body)
  | .returns value => Compile.returns value
  | .breaks => Compile.leaveLoop .breakOutsideLoop .breaks
  | .continues => Compile.leaveLoop .continueOutsideLoop .continues
  | .pass => return .skip
  | .globals _ => return .skip
  | .nonlocals names => Compile.checkNonlocals names
  | .deletes targets => return .deletes (← targets.mapM Target.compileDelete)
  | .raises value => return .raises (← value.mapM Expr.operand)
  | .asserts test message => do
    let test ← test.operand
    return .asserts test (← message.mapM Expr.operand)
  | .importModule path => do
    return .importModule path (← Compile.storeName (importedName path) .dynamic)
  | .importNames path names => Compile.importNames path names

def Stmt.compileBranches : List Branch → Compile (List BranchCode)
  | [] => return []
  | .mk condition body :: branches => do
    let condition ← condition.operand
    let body ← Stmt.compileBlock body
    return .mk condition body :: (← Stmt.compileBranches branches)

def Stmt.compileBlock : List Stmt → Compile (List Instr)
  | [] => return []
  | statement :: statements => do
    let instr ← statement.compile
    return instr :: (← Stmt.compileBlock statements)

end

def Stmt.compileSnippet : List Stmt → Compile (List Instr)
  | [] => return []
  | [.mk line (.expr value)] => do
    modify fun s => { s with line }
    return [.mk line (.returns (← value.compile false).code)]
  | statement :: statements => do
    let instr ← statement.compile
    return instr :: (← Stmt.compileSnippet statements)

def compileProgram (env : CompileEnv) (plans : Plans) (program : List Stmt) (snippet : Bool) :
    Except CompileError (List Instr × Plans) := do
  let scopes := [{ kind := .module, qualname := "<module>" }]
  let body := if snippet then Stmt.compileSnippet program else Stmt.compileBlock program
  let (code,state) ← (body.run env).run { scopes, plans }
  return (code,state.plans)

end EmbedScript
