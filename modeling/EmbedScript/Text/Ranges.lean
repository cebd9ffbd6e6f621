/-!
Sets of characters as tables of intervals, each given by its distance from the one before it and its
length.
-/

namespace EmbedScript.Text

def rangesFrom (last : Nat) : List Nat → List (Nat × Nat)
  | gap :: more :: table => (last + gap,last + gap + more) :: rangesFrom (last + gap + more) table
  | _ => []

def ranges (table : List Nat) : Array (Nat × Nat) := (rangesFrom 0 table).toArray

def inRanges (table : Array (Nat × Nat)) (c : Char) : Bool :=
  table.any fun r => r.1 ≤ c.toNat && c.toNat ≤ r.2

end EmbedScript.Text
