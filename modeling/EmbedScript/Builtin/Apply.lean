import EmbedScript.Builtin.Collection
import EmbedScript.Builtin.Inspect
import EmbedScript.Builtin.Number

namespace EmbedScript

open Exec

structure PrintOptions where
  sep : String := " "
  finish : String := "\n"

namespace Engine

def printOptions (k : Engine) (keywords : List (String × Value)) : Exec PrintOptions :=
  keywords.foldlM (fun options (name,value) => do
    match value with
    | .none => return options
    | value =>
      let text ← k.str value
      match name with
      | "sep" => return { options with sep := text }
      | "end" => return { options with finish := text }
      | other => fail (.type s!"'{other}' is an invalid keyword argument for print()")) {}

def printValues (k : Engine) (arguments : List Value) : Exec Value := do
  let (positional,keywords) := splitKeywords arguments
  let options ← k.printOptions keywords
  let texts ← positional.mapM k.str
  write (options.sep.intercalate texts ++ options.finish)
  return .none

def applyBuiltin (k : Engine) (b : Builtin) (arguments : List Value) : Exec Value := do
  match b with
  | .print => k.printValues arguments
  | .repr =>
    match arguments with
    | [v] => return .str (← k.repr v)
    | _ => wrongCount b 1 arguments
  | .importModule =>
    match arguments with
    | [.str path] => return .module (← k.importModule path)
    | [_] => fail (.type "__import__() argument must be a string")
    | _ => wrongCount b 1 arguments
  | .len | .iter | .next | .sorted | .enumerate | .zip | .sum | .slice => k.collect b arguments
  | .abs | .round | .chr | .ord => k.numeric b arguments
  | .isInstance | .isSubclass | .type | .hasAttr | .getAttr | .setAttr | .callable | .id
  | .globals | .super | .staticMethod | .extend => k.inspect b arguments
  | .objectNew | .objectInit | .objectGetAttribute | .objectSetAttr | .objectDelAttr | .objectRepr
  | .objectStr | .objectEq | .objectNe | .objectBool => k.objectMember b arguments
  | .echo _ => newTuple arguments
  | .refuse _ => fail (.value "native failure")

end Engine

end EmbedScript
