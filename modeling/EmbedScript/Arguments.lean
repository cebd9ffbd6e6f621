import EmbedScript.Exec

/-!
Arguments of calls.

The keyword arguments of a call are the keywords at the end of its arguments.
-/

namespace EmbedScript

def Value.isKeyword : Value → Bool
  | .keyword .. => true
  | _ => false

def Value.keyword? : Value → Option (String × Value)
  | .keyword _ name value => some (name,value)
  | _ => Option.none

def splitKeywords (arguments : List Value) : List Value × List (String × Value) :=
  let backward := arguments.reverse
  ((backward.dropWhile Value.isKeyword).reverse,
    ((backward.takeWhile Value.isKeyword).reverse).filterMap Value.keyword?)

def takeKeyword (name : String) : List (String × Value) → Option Value × List (String × Value)
  | [] => (none,[])
  | (n,v) :: rest =>
    if n == name then (some v,rest)
    else
      let (found,rest) := takeKeyword name rest
      (found,(n,v) :: rest)

inductive Received where
  | missing
  | value (value : Value)
  | rest (values : List Value)
  | keywords (entries : List (String × Value))

/-- Matches arguments to parameters, one parameter after the other. Arguments that no parameter
takes are dropped. -/
def receive (positional : List Value) (keywords : List (String × Value)) :
    List (String × ParamKind) → List Received
  | [] => []
  | (_,.rest) :: params => .rest positional :: receive [] keywords params
  | (_,.keywords) :: params => .keywords keywords :: receive positional [] params
  | (name,.normal) :: params =>
    match positional with
    | v :: positional => .value v :: receive positional keywords params
    | [] =>
      match takeKeyword name keywords with
      | (some v,keywords) => .value v :: receive [] keywords params
      | (none,keywords) => .missing :: receive [] keywords params

def receiveArguments (params : List (String × ParamKind)) (arguments : List Value) :
    List Received :=
  let (positional,keywords) := splitKeywords arguments
  receive positional keywords params

namespace Exec

def argument (arguments : List Value) (index : Nat) : Exec Value :=
  match arguments[index]? with
  | some v => return v
  | none => fail (.type s!"missing argument {index + 1}")

def textArgument (arguments : List Value) (index : Nat) : Exec String := do
  match ← argument arguments index with
  | .str text => return text
  | other =>
    let found ← typeName other
    fail (.type s!"expected str, got {found}")

def intArgument (arguments : List Value) (index : Nat) : Exec Int64 := do
  let v ← argument arguments index
  match v.asInt? with
  | some n => return n
  | none => fail (.notInteger (← typeName v))

end Exec

end EmbedScript
