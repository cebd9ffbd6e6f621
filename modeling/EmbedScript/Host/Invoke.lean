import EmbedScript.Host.Native
import EmbedScript.Host.Text

namespace EmbedScript

open Exec

namespace Engine

def perform (k : Engine) (action : Action) (receiver : Value) (arguments : List Value) :
    Exec Value :=
  match action with
  | .number a => k.performNumber a receiver arguments
  | .text a => k.performText a receiver arguments
  | .list a => k.performList a receiver arguments
  | .tuple a => k.performTuple a receiver arguments
  | .dict a => k.performDict a receiver arguments
  | .set a => k.performSet a receiver arguments
  | .range a => performRange a arguments
  | .builder a => k.performBuilder a receiver arguments
  | .tally a => performTally a receiver arguments

def invokeMember (k : Engine) (receiver : Value) (key name : String) (statics : Bool)
    (arguments : List Value) : Exec Value := do
  let type ← look (·.types.get? key)
  let candidates := type.elim [] (·.methodsNamed name statics)
  let kinds := arguments.map Value.kind
  match Signature.resolve HostMethod.signature candidates kinds false with
  | some method => k.perform method.action receiver arguments
  | none =>
    if candidates.isEmpty then fail (.noAttribute key name)
    else
      let given := ", ".intercalate (kinds.map Kind.name)
      let listed := "; ".intercalate (candidates.map (·.signature.text))
      fail (.attribute s!"no overload of '{key}.{name}' accepts ({given}); candidates: {listed}")

def construct (k : Engine) (key : String) (arguments : List Value) : Exec Value := do
  match ← extension? key "__new__" with
  | some f => k.call (.function f) arguments
  | none =>
    let type ← look (·.types.get? key)
    let candidates := type.elim [] HostType.constructors
    let kinds := arguments.map Value.kind
    match Signature.resolve HostMethod.signature candidates kinds true with
    | some chosen => k.perform chosen.action (.type key) arguments
    | none =>
      if candidates.isEmpty then fail (.type s!"cannot create '{key}' instances")
      else
        let given := ", ".intercalate (kinds.map Kind.name)
        fail (.type s!"{key}() does not accept ({given})")

end Engine

def isResolvable (key name : String) (statics : Bool) : Exec Bool :=
  look fun w => (w.types.get? key).any fun type => !(type.methodsNamed name statics).isEmpty

end EmbedScript
