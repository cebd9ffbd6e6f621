import EmbedScript.Code.Compile

/-!
Expressions to code. Where kinds are tracked, operations on scalars and members of host types are
bound here; all else is decided when it runs.
-/

namespace EmbedScript

def Argument.isPositional : Argument → Bool
  | .positional _ => true
  | _ => false

def Argument.withCode : Argument → Code → ArgCode
  | .positional _, code => .positional code
  | .keyword name _, code => .keyword name code
  | .star _, code => .star code
  | .doubleStar _, code => .doubleStar code

mutual

/-- Compiles an expression. The flag tells whether its own kind is wanted; its operands follow
the scope they stand in. -/
def Expr.compile (typed : Bool) (e : Expr) : Compile Typed := do
  let here ← Compile.isTyped
  match e with
  | .none => return Typed.literal typed .none .none
  | .nil => return Typed.dynamic (.literal .none)
  | .bool b => return Typed.literal typed .bool (.bool b)
  | .int n => return Typed.literal typed .int (.int n)
  | .float x => return Typed.literal typed .float (.float x)
  | .str text => return Typed.literal typed .str (.str text)
  | .name name => do
    let code ← Compile.readName name
    if typed then return Typed.ofKind (← Compile.nameKind name) code
    return Typed.dynamic code
  | .format value => return Typed.dynamic (.format (← value.compile here).code)
  | .tuple items => return Typed.dynamic (.tuple (← Expr.compileItems items))
  | .list items => return Typed.dynamic (.list (← Expr.compileItems items))
  | .set items => return Typed.dynamic (.set (← Expr.compileItems items))
  | .dict entries => return Typed.dynamic (.dict (← Expr.compileEntries entries))
  | .star _ => Compile.refuse .star
  | .doubleStar _ => Compile.refuse .doubleStar
  | .binary op left right => do
    if typed then
      let left ← left.compile true
      let right ← right.compile true
      return Typed.binary op left right
    let left ← left.compile here
    let right ← right.compile here
    return Typed.dynamic (.binary op left.code right.code)
  | .unary op operand => do
    if typed then return Typed.unary op (← operand.compile true)
    return Typed.dynamic (.unary op (← operand.compile here).code)
  | .not operand => do
    if typed then return ⟨.bool,.not (← operand.compile true).code⟩
    return Typed.dynamic (.not (← operand.compile here).code)
  | .and left right => do
    let a ← left.compile (typed || here)
    let b ← right.compile (typed || here)
    if typed && a.kind == .bool && b.kind == .bool then return ⟨.bool,.and a.code b.code⟩
    if typed && !here then
      let a ← left.compile false
      let b ← right.compile false
      return Typed.dynamic (.and a.code b.code)
    return Typed.dynamic (.and a.code b.code)
  | .or left right => do
    let a ← left.compile (typed || here)
    let b ← right.compile (typed || here)
    if typed && a.kind == .bool && b.kind == .bool then return ⟨.bool,.or a.code b.code⟩
    if typed && !here then
      let a ← left.compile false
      let b ← right.compile false
      return Typed.dynamic (.or a.code b.code)
    return Typed.dynamic (.or a.code b.code)
  | .identity negated left right => do
    let left ← left.compile here
    let right ← right.compile here
    return Typed.dynamic (.identity negated left.code right.code)
  | .membership negated item container => do
    let item ← item.compile here
    let container ← container.compile here
    return Typed.dynamic (.membership negated item.code container.code)
  | .ternary condition yes no => do
    let condition ← condition.compile (typed || here)
    let yes ← yes.compile (typed || here)
    let no ← no.compile (typed || here)
    let code := Code.ternary condition.code yes.code no.code
    if typed then return Typed.ofKind (if yes.kind = no.kind then yes.kind else .dynamic) code
    return Typed.dynamic code
  | .attribute object name => do
    if typed then Compile.readAttribute (← object.compile true) name
    else return Typed.dynamic (.attribute (← object.compile here).code name)
  | .index object index => do
    let object ← object.compile here
    let index ← index.compile here
    return Typed.dynamic (.index object.code index.code)
  | .slice object start stop step => do
    let object ← object.compile here
    let start ← Expr.compileOption here start
    let stop ← Expr.compileOption here stop
    let step ← Expr.compileOption here step
    let bound (code : Option Code) := code.getD (.literal .none)
    return Typed.dynamic (.slice object.code (bound start) (bound stop) (bound step))
  | .call callee arguments => do
    let unbound : Compile Typed := do
      let function ← callee.compile here
      let values ← Expr.compileArguments here arguments
      return Typed.dynamic (.call function.code (arguments.zipWith Argument.withCode values))
    match typed, callee with
    | true, .attribute object name => do
      let receiver ← object.compile true
      let type ← Compile.bindable receiver.kind name
      match type.filter (·.hasMethod name) with
      | some type =>
        if arguments.all Argument.isPositional then
          let values ← Expr.compileTyped arguments
          if values.any (·.kind == .dynamic) then unbound
          else Compile.bindMethod type name receiver values
        else unbound
      | none => unbound
    | _, _ => unbound
  | .lambda params body =>
    let params := params.map lambdaParam
    return Typed.dynamic (← Compile.routine "<lambda>" params false none {}
      (pure (params.map fun _ => none))
      (do return .value (← body.compile false).code))
  | .comprehension kind element target iterable condition => do
    let source ← iterable.compile here
    let qualname := (← Compile.scope).childName kind.label
    let inner := Scope.declareAll { kind := .function, qualname } target.names
    let ((store,condition,element),left) ← Compile.within inner do
      let store ← target.compileStore .dynamic
      let condition ← Expr.compileOption false condition
      let element ← match kind, element with
        | .dict, .dict [.pair key value] => do
          let key ← key.compile false
          let value ← value.compile false
          pure (Code.tuple [.one key.code,.one value.code])
        | .dict, .dict _ => Compile.refuse .dictComprehension
        | _, element => do
          let element ← element.compile false
          pure element.code
      return (store,condition,element)
    let plan ← Compile.addElement
      { slots := left.locals.length, captures := left.captures.map (·.2), store, condition
        element }
    return Typed.dynamic (.comprehension kind source.code plan)
  | .convert value kind => do
    if typed then
      let type ← Compile.namedType kind
      Compile.convertTo type (← value.compile true)
    else
      let value ← value.compile here
      let target ← kind.compile here
      return Typed.dynamic (.convert value.code target.code)
  | .cast value kind => do
    if typed then
      let type ← Compile.namedType kind
      return Compile.castTo type (← value.compile true)
    else
      let value ← value.compile here
      let target ← kind.compile here
      return Typed.dynamic (.cast value.code target.code)
  | .typed value => do
    let value ← value.compile true
    if typed then return value
    return Typed.dynamic value.code
  | .super => return Typed.dynamic (← Compile.readSuper)

def Expr.compileItems : List Expr → Compile (List ItemCode)
  | [] => return []
  | .star value :: items => do
    let value ← value.compile (← Compile.isTyped)
    return .spread value.code :: (← Expr.compileItems items)
  | value :: items => do
    let value ← value.compile (← Compile.isTyped)
    return .one value.code :: (← Expr.compileItems items)

def Expr.compileEntries : List DictEntry → Compile (List EntryCode)
  | [] => return []
  | .pair key value :: entries => do
    let key ← key.compile (← Compile.isTyped)
    let value ← value.compile (← Compile.isTyped)
    return .pair key.code value.code :: (← Expr.compileEntries entries)
  | .unpack value :: entries => do
    let value ← value.compile (← Compile.isTyped)
    return .unpack value.code :: (← Expr.compileEntries entries)

def Expr.compileOption (typed : Bool) : Option Expr → Compile (Option Code)
  | none => return none
  | some value => return some (← value.compile typed).code

def Expr.compileArguments (typed : Bool) : List Argument → Compile (List Code)
  | [] => return []
  | argument :: arguments => do
    let value ← match argument with
      | .positional value => value.compile typed
      | .keyword _ value => value.compile typed
      | .star value => value.compile typed
      | .doubleStar value => value.compile typed
    return value.code :: (← Expr.compileArguments typed arguments)

def Expr.compileTyped : List Argument → Compile (List Typed)
  | [] => return []
  | .positional value :: arguments => do
    let value ← value.compile true
    return value :: (← Expr.compileTyped arguments)
  | _ :: arguments => Expr.compileTyped arguments

def Target.compileStore (known : Kind) : Target → Compile Store
  | .name n => Compile.storeName n known
  | .attribute object n => do
    let object ← object.compile (← Compile.isTyped)
    return .attribute object.code n
  | .index object place => do
    let object ← object.compile (← Compile.isTyped)
    let place ← place.compile (← Compile.isTyped)
    return .index object.code place.code
  | .tuple items => return .tuple (← Target.compileStores items)

def Target.compileStores : List Target → Compile (List Store)
  | [] => return []
  | item :: items => do
    let store ← item.compileStore .dynamic
    return store :: (← Target.compileStores items)

end

def Expr.operand (e : Expr) : Compile Code := do
  return (← e.compile (← Compile.isTyped)).code

mutual

def Target.compileDelete : Target → Compile Deletion
  | .name n => do
    match ← Compile.resolve n with
    | some place => return .cell place n
    | none => return .global n
  | .attribute object n => return .attribute (← object.operand) n
  | .index object place => do
    let object ← object.operand
    return .index object (← place.operand)
  | .tuple items => return .tuple (← Target.compileDeletes items)

def Target.compileDeletes : List Target → Compile (List Deletion)
  | [] => return []
  | item :: items => do
    let deletion ← item.compileDelete
    return deletion :: (← Target.compileDeletes items)

end

end EmbedScript
