import EmbedScript.Arguments
import EmbedScript.Number.Decimal
import EmbedScript.Protocol.Truth

namespace EmbedScript

open Exec

def digitValue? (c : Char) : Option Nat :=
  if c.isDigit then some (c.toNat - 48)
  else if c.isLower then some (c.toNat - 87)
  else if c.isUpper then some (c.toNat - 55)
  else none

def readDigits? (base : Nat) (cs : List Char) : Option Int :=
  let (negative,cs) := Decimal.splitSign cs
  let digits := cs.mapM fun c => (digitValue? c).filter (· < base)
  match digits with
  | none => none
  | some [] => none
  | some digits =>
    let n : Nat := digits.foldl (fun n d => base * n + d) 0
    some (if negative then -n else n)

def parseInt (text : String) (base : Int64) : Except Fault Int64 :=
  if base < 2 || 36 < base then .error (.value "int() base must be >= 2 and <= 36")
  else
    let cleaned := (Text.trim Text.isBlank text.toList).filter (· != '_')
    match (readDigits? base.toInt.toNat cleaned).bind Word.ofInt? with
    | some n => .ok n
    | none => .error (.value s!"invalid literal for int() with base {Word.text base}: '{text}'")

def notANumber : Fault := .value "cannot convert float NaN to integer"

def infiniteNumber : Fault := .overflow "cannot convert float infinity to integer"

def parseFloat (text : String) : Except Fault Float :=
  match Decimal.read? (Text.trim Text.isBlank text.toList) with
  | some x => .ok x
  | none => .error (.value s!"could not convert string to float: '{text}'")

namespace Engine

def toInt (k : Engine) (v : Value) : Exec Int64 := do
  match v with
  | .int n => return n
  | .bool b => return if b then 1 else 0
  | .float x =>
    if x.isNaN then fail notANumber
    if x.isInf then fail infiniteNumber
    return (Double.truncate x).toInt64
  | .str text => parseInt text 10
  | .object .. =>
    match ← k.callMethod v "__int__" [] with
    | .int n => return n
    | other =>
      let found ← typeName other
      fail (.type s!"__int__ returned non-int (type {found})")
  | _ =>
    let found ← typeName v
    fail (.type s!"int() argument must be a string or a number, not '{found}'")

def toFloat (k : Engine) (v : Value) : Exec Float := do
  match v with
  | .float x => return x
  | .int n => return n.toFloat
  | .bool b => return if b then 1.0 else 0.0
  | .str text => parseFloat text
  | .object .. =>
    match ← k.callMethod v "__float__" [] with
    | .float x => return x
    | other =>
      let found ← typeName other
      fail (.type s!"__float__ returned non-float (type {found})")
  | _ =>
    let found ← typeName v
    fail (.type s!"float() argument must be a string or a number, not '{found}'")

def performNumber (k : Engine) (action : NumberAction) (receiver : Value)
    (arguments : List Value) : Exec Value := do
  match action with
  | .zero => return .int 0
  | .ofValue => return .int (← k.toInt (← argument arguments 0))
  | .parse =>
    let text ← textArgument arguments 0
    return .int (← parseInt text (← intArgument arguments 1))
  | .bitLength => return .int (Word.bitLength (receiver.asInt?.getD 0))
  | .floatZero => return .float 0.0
  | .floatOf => return .float (← k.toFloat (← argument arguments 0))
  | .isInteger => return .bool (Double.isWhole (receiver.asFloat?.getD 0.0))
  | .no => return .bool false
  | .truth => return .bool (← k.truthy (← argument arguments 0))

end Engine

end EmbedScript
