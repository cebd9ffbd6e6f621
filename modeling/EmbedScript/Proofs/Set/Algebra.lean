import EmbedScript.Proofs.Modules.StarImport
import EmbedScript.Proofs.Set.Inclusion

/-!
Operators and methods of sets. Which members a result has is said on their hashes alone, so it does
not matter how the operands were made.
-/

namespace EmbedScript

open Exec OrderedMap List

namespace OrderedMap

variable [BEq κ] [LawfulBEq κ] (m other : OrderedMap κ α) (key : κ)

end OrderedMap

variable {k : Engine} {w : World} {r s : Ref .set} (op : BinaryOp)

end EmbedScript
