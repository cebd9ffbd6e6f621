import EmbedScript.Host.Kind

/-!
Signatures of host members. Overloads are tried at growing leniency: exact kinds, then `object`
parameters, then, if asked, `int` for `float`. A variadic one takes what no other does.
-/

namespace EmbedScript

structure HostParam where
  kind : Kind
  byRef : Bool := false
  deriving DecidableEq, Repr

structure Signature where
  name : String
  params : List HostParam
  returns : Kind
  variadic : Bool := false
  deriving DecidableEq, Repr

inductive Fit where
  | exact
  | dynamic
  | widened
  deriving DecidableEq, Repr

def Fit.takes (fit : Fit) (param arg : Kind) : Bool :=
  match fit with
  | .exact => param == arg
  | .dynamic => param == .dynamic || param == arg
  | .widened => arg.widensTo param

namespace Signature

def plain (name : String) (params : List Kind) (returns : Kind) : Signature :=
  { name, params := params.map fun kind => { kind }, returns }

def takes (s : Signature) (args : List Kind) (fit : Fit) : Bool :=
  s.variadic || (s.params.length == args.length && (s.params.zip args).all fun (p,a) => fit.takes p.kind a)

def paramText (p : HostParam) : String := if p.byRef then "ref " ++ p.kind.name else p.kind.name

def text (s : Signature) : String :=
  let params := if s.variadic then "..." else ", ".intercalate (s.params.map paramText)
  s.name ++ "(" ++ params ++ ") -> " ++ s.returns.name

def fits (widen : Bool) : List Fit := if widen then [.exact,.dynamic,.widened] else [.exact,.dynamic]

def resolve {α : Type} (signature : α → Signature) (candidates : List α) (args : List Kind)
    (widen : Bool) : Option α :=
  let fitting (fit : Fit) := candidates.find? fun c => !(signature c).variadic && (signature c).takes args fit
  ((fits widen).findSome? fitting).or (candidates.find? fun c => (signature c).variadic)

end Signature

end EmbedScript
