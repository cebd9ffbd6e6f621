import EmbedScript.Number.Word

/-!
Arithmetic progressions of words, with a step that is not zero. Positions and sizes are computed on
integers.
-/

namespace EmbedScript

structure Range where
  start : Int64
  stop : Int64
  step : Int64
  deriving DecidableEq, Repr

namespace Range

def span (r : Range) : Int :=
  if 0 < r.step then r.stop.toInt - r.start.toInt else r.start.toInt - r.stop.toInt

def size (r : Range) : Nat :=
  let stride := r.step.toInt.natAbs
  (r.span.toNat + stride - 1) / stride

def isEmpty (r : Range) : Bool := r.size == 0

def get? (r : Range) (index : Nat) : Option Int64 :=
  if index < r.size then Word.ofInt? (r.start.toInt + r.step.toInt * index) else none

def contains (r : Range) (value : Int64) : Bool :=
  let inside := if 0 < r.step then r.start ≤ value && value < r.stop
    else value ≤ r.start && r.stop < value
  inside && (value.toInt - r.start.toInt) % r.step.toInt == 0

end Range

end EmbedScript
