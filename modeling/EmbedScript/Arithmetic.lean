import EmbedScript.Fault
import EmbedScript.Number.Double
import EmbedScript.Syntax
import EmbedScript.Value

/-!
Operators on numbers. Integers never wrap: a result that is no word is an error.
-/

namespace EmbedScript

def orTooLarge (n : Option Int64) : Except Fault Int64 :=
  match n with
  | some n => .ok n
  | none => .error .integerTooLarge

def floorDivide (a b : Int64) : Except Fault Int64 :=
  if b == 0 then .error .integerDivision else orTooLarge (Word.floorDiv? a b)

def floorRemainder (a b : Int64) : Except Fault Int64 :=
  if b == 0 then .error .integerDivision else .ok (Word.floorMod a b)

def intPower (a b : Int64) : Except Fault Value :=
  if b < 0 then
    if a == 0 then .error .zeroToNegativePower else .ok (.float (a.toFloat.pow b.toFloat))
  else do return .int (← orTooLarge (Word.pow? a b.toInt.toNat))

def intBinary (op : BinaryOp) (a b : Int64) : Except Fault (Option Value) := do
  match op with
  | .add => return some (.int (← orTooLarge (Word.add? a b)))
  | .sub => return some (.int (← orTooLarge (Word.sub? a b)))
  | .mul => return some (.int (← orTooLarge (Word.mul? a b)))
  | .div =>
    if b == 0 then throw (.zeroDivision "division by zero")
    return some (.float (a.toFloat / b.toFloat))
  | .floorDiv => return some (.int (← floorDivide a b))
  | .mod => return some (.int (← floorRemainder a b))
  | .pow => return some (← intPower a b)
  | .lshift =>
    if b < 0 then throw .negativeShift
    return some (.int (← orTooLarge (Word.shiftLeft? a b.toInt.toNat)))
  | .rshift =>
    if b < 0 then throw .negativeShift
    return some (.int (Word.shiftRight a b.toInt.toNat))
  | .bitAnd => return some (.int (a &&& b))
  | .bitOr => return some (.int (a ||| b))
  | .bitXor => return some (.int (a ^^^ b))
  | .lt | .le | .gt | .ge | .eq | .ne => return none

def boolBinary (op : BinaryOp) (a b : Bool) : Option Value :=
  match op with
  | .bitAnd => some (.bool (a && b))
  | .bitOr => some (.bool (a || b))
  | .bitXor => some (.bool (a != b))
  | _ => none

def floatRemainder (a b : Float) : Float :=
  let r := Double.remainder a b
  if r != 0.0 && (r < 0.0) != (b < 0.0) then r + b else r

def floatDivision : Fault := .zeroDivision "float division by zero"

def floatBinary (op : BinaryOp) (a b : Float) : Except Fault (Option Float) := do
  match op with
  | .add => return some (a + b)
  | .sub => return some (a - b)
  | .mul => return some (a * b)
  | .div => if b == 0.0 then throw floatDivision else return some (a / b)
  | .floorDiv => if b == 0.0 then throw floatDivision else return some (a / b).floor
  | .mod =>
    if b == 0.0 then throw (.zeroDivision "float modulo")
    return some (floatRemainder a b)
  | .pow =>
    if a == 0.0 && b < 0.0 then throw .zeroToNegativePower
    return some (a.pow b)
  | _ => return none

def BinaryOp.holds : BinaryOp → Ordering → Bool
  | .lt, o => o == .lt
  | .le, o => o != .gt
  | .gt, o => o == .gt
  | .ge, o => o != .lt
  | .eq, o => o == .eq
  | .ne, o => o != .eq
  | _, _ => false

def floatCompares (op : BinaryOp) (a b : Float) : Bool :=
  match Double.compare? a b with
  | some o => op.holds o
  | none => op == .ne

def BinaryOp.onScalars (op : BinaryOp) (a b : Value) : Except Fault Value := do
  match a, b with
  | .int a, .int b =>
    match ← intBinary op a b with
    | some v => return v
    | none => return .bool (op.holds (compare a.toInt b.toInt))
  | .float a, .float b =>
    match op with
    | .add | .sub | .mul | .div => return (← floatBinary op a b).elim .none .float
    | _ => return .bool (floatCompares op a b)
  | .str a, .str b =>
    match op with
    | .add => return .str (a ++ b)
    | _ => return .bool (op.holds (compare a b))
  | .bool a, .bool b => return .bool ((a == b) == (op == .eq))
  | _, _ => throw (.type "unsupported operands")

def UnaryOp.onScalar (op : UnaryOp) (a : Value) : Except Fault Value := do
  match op, a with
  | .neg, .int a => return .int (← orTooLarge (Word.neg? a))
  | .invert, .int a => return .int (Word.complement a)
  | .neg, .float a => return .float (-a)
  | _, a => return a

end EmbedScript
