import EmbedScript.Host.Number
import EmbedScript.Protocol.Text

/-!
Formatting by specification: `[[fill]align][0][width][.precision][type]`, and templates whose
fields are filled from arguments.
-/

namespace EmbedScript

open Exec

structure FormatSpec where
  fill : Char := ' '
  align : Option Text.Align := none
  width : Option Int64 := none
  precision : Option Int64 := none
  type : Option Char := none

def alignOf? : Char → Option Text.Align
  | '<' => some .left
  | '>' => some .right
  | '^' => some .center
  | _ => none

def leadingNumber (cs : List Char) : Option Int64 × List Char :=
  let digits := cs.takeWhile Char.isDigit
  (if digits.isEmpty then none else Word.ofInt? (Decimal.natOfDigits digits),cs.dropWhile Char.isDigit)

def FormatSpec.leading (cs : List Char) : FormatSpec × List Char :=
  let (spec,rest) : FormatSpec × List Char := match cs with
    | first :: second :: rest =>
      match alignOf? second, alignOf? first with
      | some align, _ => ({ fill := first, align := some align },rest)
      | none, some align => ({ align := some align },second :: rest)
      | none, none => ({},cs)
    | [only] =>
      match alignOf? only with
      | some align => ({ align := some align },[])
      | none => ({},cs)
    | [] => ({},[])
  match spec.align, rest with
  | none, '0' :: rest => ({ spec with fill := '0', align := some .right },rest)
  | _, _ => (spec,rest)

def FormatSpec.read? (cs : List Char) : Option FormatSpec :=
  let (spec,rest) := FormatSpec.leading cs
  let (width,rest) := leadingNumber rest
  let (precision,rest) := match rest with
    | '.' :: rest => leadingNumber rest
    | rest => (none,rest)
  match rest with
  | [] => some { spec with width, precision }
  | [type] => some { spec with width, precision, type := some type }
  | _ => none

def wordDigits (base : Nat) (n : Int64) : String := String.ofList (Nat.toDigits base n.toUInt64.toNat)

def placesLimit : Nat := 65535

def fixedText (x : Float) (places : Int64) : Exec String :=
  let n := places.toInt.toNat
  if placesLimit < n then stop .crash else return Decimal.fixed x n

namespace Engine

def formatBody (k : Engine) (spec : FormatSpec) (v : Value) : Exec String := do
  match spec.type with
  | some 'f' => fixedText (← k.toFloat v) (spec.precision.getD 6)
  | some 'd' => return Word.text (← k.toInt v)
  | some 'x' => return wordDigits 16 (← k.toInt v)
  | some 'b' => return wordDigits 2 (← k.toInt v)
  | some '%' =>
    let text ← fixedText ((← k.toFloat v) * 100.0) (spec.precision.getD 6)
    return text ++ "%"
  | some 's' | none =>
    match v, spec.precision with
    | .float x, some places => fixedText x places
    | _, some places =>
      let text ← k.str v
      return String.ofList (text.toList.take places.toInt.toNat)
    | _, none => k.str v
  | some other =>
    let found ← typeName v
    fail (.value s!"Unknown format code '{other}' for object of type '{found}'")

def format (k : Engine) (v : Value) (spec : List Char) : Exec String := do
  if spec.isEmpty then k.str v
  else match FormatSpec.read? spec with
    | none =>
      let spec := String.ofList spec
      fail (.value s!"Invalid format specifier '{spec}'")
    | some spec =>
      let body ← k.formatBody spec v
      let align := spec.align.getD (if v.isNumber then .right else .left)
      let width := (spec.width.getD 0).toInt
      return String.ofList (Text.pad body.toList width spec.fill align)

end Engine

inductive TemplatePiece where
  | text (c : Char)
  | field (name spec : List Char)
  | broken (fault : Fault)

def splitField (field : List Char) : TemplatePiece :=
  .field (field.takeWhile (· != ':')) ((field.dropWhile (· != ':')).drop 1)

def unpaired (brace : String) : Fault := .value s!"Single '{brace}' encountered in format string"

/-- `field` holds the field that is being read, last character first. -/
def templatePieces (field : Option (List Char)) : List Char → List TemplatePiece
  | [] => if field.isSome then [.broken (unpaired "\x7b")] else []
  | c :: rest =>
    match field with
    | some read =>
      if c == '\x7d' then splitField read.reverse :: templatePieces none rest
      else templatePieces (some (c :: read)) rest
    | none =>
      match c, rest with
      | '\x7b', '\x7b' :: rest => .text '\x7b' :: templatePieces none rest
      | '\x7d', '\x7d' :: rest => .text '\x7d' :: templatePieces none rest
      | '\x7b', rest => templatePieces (some []) rest
      | '\x7d', _ => [.broken (unpaired "\x7d")]
      | c, rest => .text c :: templatePieces none rest

def fieldPosition? (name : List Char) : Option Nat :=
  let digits := match name with
    | '+' :: digits => digits
    | digits => digits
  if digits.isEmpty || !digits.all Char.isDigit then none
  else
    let n := Decimal.natOfDigits digits
    if n < 0x10000000000000000 then some n else none

def positionalField (positional : List Value) (index : Nat) : Except Fault Value :=
  match positional[index]? with
  | some v => .ok v
  | none => .error (.index s!"Replacement index {index} out of range")

def fieldValue (positional : List Value) (keywords : List (String × Value)) (unnamed : Nat)
    (name : List Char) : Except Fault (Value × Nat) :=
  match fieldPosition? name with
  | some index => do return (← positionalField positional index,unnamed)
  | none =>
    if name.isEmpty then do return (← positionalField positional unnamed,unnamed + 1)
    else
      let name := String.ofList name
      match keywords.lookup name with
      | some v => .ok (v,unnamed)
      | none => .error (.key s!"'{name}'")

namespace Engine

def fillTemplate (k : Engine) (positional : List Value) (keywords : List (String × Value))
    (unnamed : Nat) : List TemplatePiece → Exec (List Char)
  | [] => return []
  | .text c :: pieces => return c :: (← k.fillTemplate positional keywords unnamed pieces)
  | .broken fault :: _ => fail fault
  | .field name spec :: pieces => do
    let (v,unnamed) ← fieldValue positional keywords unnamed name
    let text ← k.format v spec
    return text.toList ++ (← k.fillTemplate positional keywords unnamed pieces)

def formatTemplate (k : Engine) (template : String) (arguments : List Value) : Exec String := do
  let (positional,keywords) := splitKeywords arguments
  return String.ofList (← k.fillTemplate positional keywords 0 (templatePieces none template.toList))

end Engine

end EmbedScript
