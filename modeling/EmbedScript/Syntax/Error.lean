namespace EmbedScript

inductive ParseCause where
  | invalid
  | near (token : String)
  | noExpression
  | noExpressionAfter (symbol : String)
  | elseWithoutIf
  | ifWithoutElse
  | badNumber (literal : String)
  | positionalAfterKeyword
  | entryWithoutColon
  | comprehensionWithoutIn
  | nestedClauses
  | pairWithoutColon
  | notAssignable
  | looseDecorator
  | forWithoutIn
  | fromWithoutImport
  | looseTier (keyword : String)
  | unsupported (keyword : String)
  | noBlock
  | badFunction
  | badClass
  | badAugmented
  | notName (token : String)
  | noPath
  | strayInPath (token : String)
  | badParameter (token : String)
  | duplicateParameter (name : String)
  | requiredAfterDefault
  deriving DecidableEq, Repr

def ParseCause.message : ParseCause → String
  | invalid => "invalid syntax"
  | near token => s!"invalid syntax near '{token}'"
  | noExpression => "expected an expression"
  | noExpressionAfter symbol => s!"expected an expression after '{symbol}'"
  | elseWithoutIf => "'else' without 'if' in conditional expression"
  | ifWithoutElse => "expected 'else' in conditional expression"
  | badNumber literal => s!"invalid number literal '{literal}'"
  | positionalAfterKeyword => "positional argument follows keyword argument"
  | entryWithoutColon => "expected ':' in dictionary entry"
  | comprehensionWithoutIn => "expected 'in' in comprehension"
  | nestedClauses => "nested comprehension clauses are not supported"
  | pairWithoutColon => "expected ':' in dictionary comprehension"
  | notAssignable => "the left hand of the expression is not assignable"
  | looseDecorator => "a decorator must be followed by a function or class definition"
  | forWithoutIn => "expected 'in' in for statement"
  | fromWithoutImport => "expected 'import' after module path"
  | looseTier keyword => s!"'{keyword}' without a matching 'if'"
  | unsupported keyword => s!"'{keyword}' statements are not supported"
  | noBlock => "expected an indented block"
  | badFunction => "invalid function definition"
  | badClass => "invalid class definition"
  | badAugmented => "illegal expression for augmented assignment"
  | notName token => s!"expected a name, found '{token}'"
  | noPath => "expected a dotted name"
  | strayInPath token => s!"unexpected '{token}' in dotted name"
  | badParameter token => s!"invalid parameter '{token}'"
  | duplicateParameter name => s!"duplicate argument '{name}' in function definition"
  | requiredAfterDefault => "non-default argument follows default argument"

structure ParseError where
  cause : ParseCause
  line : Nat
  deriving DecidableEq, Repr

def ParseError.message (e : ParseError) : String :=
  let cause := e.cause.message
  s!"{cause} at line {e.line}"

abbrev Parse := Except ParseError

def ParseCause.at {α : Type} (cause : ParseCause) (line : Nat) : Parse α := .error ⟨cause,line⟩

end EmbedScript
