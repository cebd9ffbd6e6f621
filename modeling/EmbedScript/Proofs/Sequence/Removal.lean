import EmbedScript.Proofs.Sequence.Changes

/-!
Removing from a list. Its items are asked whether they equal a value, those that it has before, and may change
the list meanwhile. Then one place of the list as it is now is erased.
-/

namespace EmbedScript

open Exec

variable {k : Engine} {w : World}

section

variable (standard : w.types.get? "list" = some Standard.listType)

include standard

end

end EmbedScript
