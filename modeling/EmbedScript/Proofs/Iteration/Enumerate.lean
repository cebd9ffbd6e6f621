import EmbedScript.Proofs.Iteration.Cursor
import EmbedScript.Proofs.Typing.Operators

/-!
Numbering items. The numbers are words, so they start again from the least one behind the greatest.
-/

namespace EmbedScript

open Exec List Engine

def numbers (start : Int64) (tag : Nat) (items : List Value) : List Value :=
  items.mapIdx fun i item => .tuple (tag + i) [.int (Int64.ofInt (start.toInt + i)),item]

variable {k : Engine} {w middle : World} {arguments items : List Value} {source : Value} {start : Int64}

end EmbedScript
