import EmbedScript.Builtin.Object
import EmbedScript.Host.Number

namespace EmbedScript

open Exec

def roundPlaces : Nat := 400

/-- A half goes to the even neighbour of the exact value. -/
def roundTo (x : Float) (places : Int64) : Except Fault Float :=
  if !x.isFinite then .ok x
  else if 0 ≤ places then
    let text := Decimal.fixed x (min places.toInt.toNat roundPlaces)
    match Decimal.read? text.toList with
    | some rounded => .ok rounded
    | none => .error (.value s!"cannot round {text}")
  else
    let scale := Double.inversePower 10.0 (min (-places.toInt).toNat 308)
    .ok (Double.roundEven (x * scale) / scale)

def roundWhole (x : Float) : Except Fault Int64 :=
  if x.isNaN then .error notANumber
  else if x.isInf then .error infiniteNumber
  else .ok (Double.roundEven x).toInt64

namespace Engine

def roundValue (k : Engine) (v : Value) (places : Option Int64) : Exec Value := do
  match v, places with
  | .int n, _ => return .int n
  | .bool b, _ => return .int (if b then 1 else 0)
  | .float x, none => return .int (← roundWhole x)
  | .float x, some places => return .float (← roundTo x places)
  | .object .., _ => k.callMethod v "__round__" []
  | _, _ =>
    let found ← typeName v
    fail (.type s!"type {found} doesn't define __round__ method")

def roundArgument (v : Value) : Exec (Option Int64) :=
  match v with
  | .none => return none
  | v =>
    match v.asInt? with
    | some n => return some n
    | none => fail (.type "round() digits must be an integer")

def absolute (k : Engine) (v : Value) : Exec Value := do
  match v with
  | .int n =>
    match Word.abs? n with
    | some n => return .int n
    | none => fail (.overflow "integer absolute value overflow")
  | .bool b => return .int (if b then 1 else 0)
  | .float x => return .float x.abs
  | .object .. => k.callMethod v "__abs__" []
  | _ =>
    let found ← typeName v
    fail (.type s!"bad operand type for abs(): '{found}'")

end Engine

def charOf? (code : Int64) : Option Char :=
  let n := code.toInt
  if n < 0 then none
  else if n.toNat.isValidChar then some (Char.ofNat n.toNat)
  else none

def character (v : Value) : Exec Value :=
  match v.asInt? with
  | none => fail (.type "an integer is required")
  | some code =>
    match charOf? code with
    | some c => return .str (String.singleton c)
    | none => fail (.value "chr() arg not in range(0x110000)")

def codeOf (v : Value) : Exec Value := do
  match v with
  | .str text =>
    match text.toList with
    | [c] => return .int (Word.wrap c.toNat)
    | _ => fail (.type "ord() expected a character, but string of different length found")
  | _ =>
    let found ← typeName v
    fail (.type s!"ord() expected string of length 1, but {found} found")

def Engine.numeric (k : Engine) (b : Builtin) (arguments : List Value) : Exec Value := do
  match b, arguments with
  | .abs, [v] => k.absolute v
  | .round, [v] => k.roundValue v none
  | .round, [v,places] =>
    let places ← roundArgument places
    k.roundValue v places
  | .round, _ => fail (.argumentRange b.name 1 2 arguments.length)
  | .chr, [v] => character v
  | .ord, [v] => codeOf v
  | _, _ => wrongCount b 1 arguments

end EmbedScript
