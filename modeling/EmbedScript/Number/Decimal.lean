import EmbedScript.Number.Double

/-!
Decimal text of doubles. `shortest` gives the fewest digits that read back as the same double;
`fixed` a stated number of places; `read?` rounds once.
-/

namespace EmbedScript.Decimal

open Double

/-- The number `0.d₁d₂… * 10 ^ point`, its last digit not zero. -/
structure Digits where
  digits : List Char
  point : Int
  deriving DecidableEq

def stepsToOne (fuel num den : Nat) : Nat :=
  match fuel with
  | 0 => 0
  | fuel + 1 => if den ≤ num then 0 else stepsToOne fuel (num * 10) den + 1

/-- The `k` with `10 ^ (k - 1) ≤ num / den < 10 ^ k`, for a positive quotient. -/
def decimalPoint (num den : Nat) : Int :=
  if den ≤ num then (Nat.toDigits 10 (num / den)).length
  else 1 - (stepsToOne 400 num den : Int)

def dropZeros (cs : List Char) : List Char := (cs.reverse.dropWhile (· == '0')).reverse

structure Interval where
  low : Nat
  value : Nat
  high : Nat
  den : Nat
  closed : Bool

def Interval.ofParts (p : Parts) : Interval :=
  let below := if p.mantissa == 0x10000000000000 && -1074 < p.exponent then 1 else 2
  let unit := scaled 1 (p.exponent - 2)
  { low := (4 * p.mantissa - below) * unit.1
    value := 4 * p.mantissa * unit.1
    high := (4 * p.mantissa + 2) * unit.1
    den := unit.2
    closed := p.mantissa % 2 == 0 }

def Interval.holds (i : Interval) (c : Nat) (s : Int) : Bool :=
  let up := Nat.pow 10 (-s).toNat
  let grid := c * Nat.pow 10 s.toNat * i.den
  if i.closed then i.low * up ≤ grid && grid ≤ i.high * up
  else i.low * up < grid && grid < i.high * up

/-- The neighbour of the value on the grid `10 ^ s` that lies in the interval; of two the nearer,
and the upper one at equal distance. -/
def Interval.onGrid? (i : Interval) (s : Int) : Option Nat :=
  let up := Nat.pow 10 (-s).toNat
  let step := Nat.pow 10 s.toNat * i.den
  let c := i.value * up / step
  let r := i.value * up % step
  match i.holds c s, i.holds (c + 1) s with
  | true, true => some (if 2 * r < step then c else c + 1)
  | true, false => some c
  | false, true => some (c + 1)
  | false, false => none

def Interval.search (i : Interval) (point : Int) (n : Nat) : Nat → Digits
  | 0 => ⟨['0'],0⟩
  | tries + 1 =>
    match i.onGrid? (point - n) with
    | some c =>
      let cs := Nat.toDigits 10 c
      ⟨dropZeros cs,point - n + cs.length⟩
    | none => i.search point (n + 1) tries

def shortest (x : Float) : Digits :=
  let i := Interval.ofParts (parts x)
  i.search (decimalPoint i.value i.den) 1 20

def sign (x : Float) : List Char := if isNegative x then ['-'] else []

def positional (d : Digits) : List Char :=
  if d.point ≤ 0 then '0' :: '.' :: List.replicate (-d.point).toNat '0' ++ d.digits
  else
    let k := d.point.toNat
    if d.digits.length ≤ k then d.digits ++ List.replicate (k - d.digits.length) '0'
    else d.digits.take k ++ '.' :: d.digits.drop k

def exponential (d : Digits) : List Char :=
  let e := d.point - 1
  let mantissa := match d.digits with
    | first :: second :: rest => first :: '.' :: second :: rest
    | cs => cs
  let digits := Nat.toDigits 10 e.natAbs
  mantissa ++ ['e',if e < 0 then '-' else '+'] ++ List.replicate (2 - digits.length) '0' ++ digits

/-- Text of a float value: positional from 1e-4 up to 1e16, with `.0` behind a whole number, and
exponential outside. -/
def text (x : Float) : String :=
  if x.isNaN then "nan"
  else if x.isInf then (if isNegative x then "-inf" else "inf")
  else if x == 0 then String.ofList (sign x ++ ['0','.','0'])
  else
    let d := shortest x
    if x.abs < 1e-4 || 1e16 ≤ x.abs then String.ofList (sign x ++ exponential d)
    else if isWhole x then String.ofList (sign x ++ positional d ++ ['.','0'])
    else String.ofList (sign x ++ positional d)

def fixed (x : Float) (places : Nat) : String :=
  if x.isNaN then "NaN"
  else if x.isInf then (if isNegative x then "-inf" else "inf")
  else
    let p := parts x
    let q := scaled p.mantissa p.exponent
    let n := roundDiv (q.1 * Nat.pow 10 places) q.2
    let cs := Nat.toDigits 10 n
    let cs := List.replicate (places + 1 - cs.length) '0' ++ cs
    let whole := cs.take (cs.length - places)
    let rest := cs.drop (cs.length - places)
    String.ofList (sign x ++ whole ++ if places == 0 then [] else '.' :: rest)

def natOfDigits (cs : List Char) : Nat := cs.foldl (fun n c => 10 * n + (c.toNat - 48)) 0

structure Written where
  negative : Bool
  whole : List Char
  fraction : List Char
  exponent : Int

def Written.value (w : Written) : Float :=
  let cs := (w.whole ++ w.fraction).dropWhile (· == '0')
  let e := w.exponent - w.fraction.length
  let size := e + cs.length
  let bits :=
    if cs.isEmpty || size < -400 then 0
    else if 400 < size then infiniteBits
    else
      let n := natOfDigits cs
      if 0 ≤ e then nearestBits (n * Nat.pow 10 e.toNat) 1
      else nearestBits n (Nat.pow 10 (-e).toNat)
  ofBits w.negative bits

def splitSign : List Char → Bool × List Char
  | '-' :: rest => (true,rest)
  | '+' :: rest => (false,rest)
  | cs => (false,cs)

def readWritten? (cs : List Char) : Option Written :=
  let (negative,cs) := splitSign cs
  let whole := cs.takeWhile Char.isDigit
  let (fraction,cs) := match cs.dropWhile Char.isDigit with
    | '.' :: rest => (rest.takeWhile Char.isDigit,rest.dropWhile Char.isDigit)
    | rest => ([],rest)
  if whole.isEmpty && fraction.isEmpty then none
  else match cs with
    | [] => some ⟨negative,whole,fraction,0⟩
    | c :: rest =>
      if c == 'e' || c == 'E' then
        let (down,digits) := splitSign rest
        if digits.isEmpty || !digits.all Char.isDigit then none
        else
          let n := natOfDigits digits
          some ⟨negative,whole,fraction,if down then -n else n⟩
      else none

def read? (cs : List Char) : Option Float :=
  match readWritten? cs with
  | some w => some w.value
  | none =>
    let (negative,rest) := splitSign cs
    let word := String.ofList (rest.map Char.toLower)
    if word == "inf" || word == "infinity" then some (ofBits negative infiniteBits)
    else if word == "nan" then some nan
    else none

end EmbedScript.Decimal
