import EmbedScript.Host.Kind

namespace EmbedScript

inductive CompileCause where
  | star
  | doubleStar
  | superWithoutArguments
  | superOutsideMethod
  | breakOutsideLoop
  | continueOutsideLoop
  | nonlocalOutsideFunction
  | nonlocalUnbound (name : String)
  | importAllInside
  | returnOutsideFunction
  | augmentedTuple
  | dictComprehension
  | assignment (found : Kind) (name : String) (declared : Kind)
  | mismatch (what : String) (found declared : Kind)
  | typeExpected
  | unknownType (name : String)
  | conversion (source : Kind) (target : String)
  | noOverload (type name : String) (given : List Kind) (candidates : List String)
  deriving DecidableEq, Repr

namespace CompileCause

def message : CompileCause → String
  | star => "can't use starred expression here"
  | doubleStar => "can't use double starred expression here"
  | superWithoutArguments => "super(): no arguments"
  | superOutsideMethod => "super() used outside a method"
  | breakOutsideLoop => "'break' outside loop"
  | continueOutsideLoop => "'continue' outside loop"
  | nonlocalOutsideFunction => "nonlocal declaration not allowed at module level"
  | nonlocalUnbound name => s!"no binding for nonlocal '{name}' found"
  | importAllInside => "import * only allowed at module level"
  | returnOutsideFunction => "'return' outside function"
  | augmentedTuple => "illegal expression for augmented assignment"
  | dictComprehension => "invalid dict comprehension"
  | assignment found name declared => s!"cannot assign {found.name} to '{name}' of type {declared.name}"
  | mismatch what found declared => s!"{what} has type {found.name}, expected {declared.name}"
  | typeExpected => "type name expected"
  | unknownType name => s!"unknown type '{name}'"
  | conversion source target => s!"cannot convert {source.name} to {target}"
  | noOverload type name given candidates =>
    let kinds := ", ".intercalate (given.map Kind.name)
    let listed := "; ".intercalate candidates
    s!"no overload of '{type}.{name}' accepts ({kinds}); candidates: {listed}"

end CompileCause

structure CompileError where
  cause : CompileCause
  line : Nat
  deriving DecidableEq, Repr

def CompileError.message (e : CompileError) : String := s!"{e.cause.message} (line {e.line})"

end EmbedScript
