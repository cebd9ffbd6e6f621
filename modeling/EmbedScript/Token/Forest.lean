import EmbedScript.Token

/-!
Nesting of logical lines. The forest is the right fold of the entries: at each depth it keeps the
lines, and before them the tiers, that no line further left has claimed yet.
-/

namespace EmbedScript

structure Entry where
  head : Head
  depth : Nat
  tier : Bool
  opens : Bool
  deriving Repr

structure Pending where
  lines : List Line := []
  tiers : List Line := []

namespace Entry

/-- Adds the entry in front of what follows it. It takes the lines one level deeper as its block,
and the tiers of its own level unless it is one. -/
def place (e : Entry) (levels : List Pending) : List Pending :=
  let here := levels.getD e.depth {}
  let below := levels.getD (e.depth + 1) {}
  let line := Line.mk e.head (if e.opens then some below.lines else none) (if e.tier then [] else here.tiers)
  let here := if e.tier then { here with tiers := line :: here.tiers }
    else { lines := line :: here.lines }
  let outer := levels.take e.depth
  outer ++ List.replicate (e.depth - outer.length) ({} : Pending) ++ [here]

end Entry

def Line.forest (entries : List Entry) : List Line := ((entries.foldr Entry.place []).getD 0 {}).lines

end EmbedScript
