import EmbedScript.Exec

/-!
The parts of running that everything else may need. Rules of the language are stated over an engine,
and each engine is made from them and an engine with less fuel.
-/

namespace EmbedScript

structure Engine where
  fuel : Nat
  call : (callee : Value) → (arguments : List Value) → Exec Value
  enter : (function : Call) → (code : Exec Value) → Exec Value
  step : (generator : Ref .generator) → (item : Value) → Exec (Option Value)
  importModule : (path : String) → Exec (Ref .module)

end EmbedScript
