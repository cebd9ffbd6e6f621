import EmbedScript.Fault
import EmbedScript.Number.Word

namespace EmbedScript.Sequence

/-- The size is taken as a word, so of a sequence too long for that no position is found. -/
def position? (index : Int64) (size : Nat) : Option Nat :=
  let length := (Word.wrap size).toInt
  let resolved := if index < 0 then index.toInt + length else index.toInt
  if resolved < 0 || length ≤ resolved then none else some resolved.toNat

def position (index : Int64) (size : Nat) (what : String) : Except Fault Nat :=
  match position? index size with
  | some p => .ok p
  | none => .error (.index (what ++ " index out of range"))

-- Slices

structure Walk where
  start : Int
  stop : Int
  step : Int
  deriving DecidableEq, Repr

def clampBound (size : Nat) (low high : Int) (bound : Int64) : Int :=
  let b := if bound < 0 then bound.toInt + size else bound.toInt
  max low (min high b)

def walk (size : Nat) (start stop : Option Int64) (step : Int64) : Walk :=
  if 0 < step then
    { start := (start.map (clampBound size 0 size)).getD 0
      stop := (stop.map (clampBound size 0 size)).getD size
      step := step.toInt }
  else
    { start := (start.map (clampBound size (-1) (size - 1))).getD (size - 1)
      stop := (stop.map (clampBound size (-1) (size - 1))).getD (-1)
      step := step.toInt }

namespace Walk

def count (w : Walk) : Nat :=
  let span := if 0 < w.step then w.stop - w.start else w.start - w.stop
  let stride := w.step.natAbs
  (span.toNat + stride - 1) / stride

def item (w : Walk) (i : Nat) : Int := w.start + w.step * i

def positions (w : Walk) : List Nat := (List.range w.count).map fun i => (w.item i).toNat

end Walk

def zeroStep : Fault := .value "slice step cannot be zero"

def slicePositions (size : Nat) (start stop step : Option Int64) : Except Fault (List Nat) :=
  let step := step.getD 1
  if step == 0 then .error zeroStep else .ok (walk size start stop step).positions

def slice {α : Type} (items : Array α) (start stop step : Option Int64) : Except Fault (List α) :=
  do return (← slicePositions items.size start stop step).filterMap (items[·]?)

-- Repetition

def repeatLimit : Nat := 0x10000000

def repeatCount (size : Nat) (times : Int64) : Except Fault Nat :=
  if times ≤ 0 || size == 0 then .ok 0
  else if size * times.toInt.toNat ≤ repeatLimit then .ok times.toInt.toNat
  else .error (.overflow "repeated sequence is too long")

def repeatItems {α : Type} (items : List α) (times : Int64) : Except Fault (List α) := do
  let n ← repeatCount items.length times
  return (List.replicate n items).flatten

-- Sorting

section

variable {m : Type → Type} [Monad m] {α : Type}

/-- Of equivalent items those of `left` come first. `done` holds what was merged before, last first.
-/
def merge (less : α → α → m Bool) (done : List α) : (left right : List α) → m (List α)
  | [], right => pure (done.reverse ++ right)
  | left, [] => pure (done.reverse ++ left)
  | a :: left, b :: right => do
    if ← less b a then merge less (b :: done) (a :: left) right
    else merge less (a :: done) left (b :: right)
termination_by left right => left.length + right.length

def mergeSort (less : α → α → m Bool) (items : List α) : m (List α) :=
  if _h : items.length ≤ 1 then pure items
  else do
    let half := items.length / 2
    let left ← mergeSort less (items.take half)
    let right ← mergeSort less (items.drop half)
    merge less [] left right
termination_by items.length
decreasing_by
  · simp [List.length_take]
    omega
  · simp [List.length_drop]
    omega

end

end EmbedScript.Sequence
