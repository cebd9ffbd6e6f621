/-!
Binary floating point numbers taken apart and put together. `nearestBits` rounds a quotient of
naturals, a half going to the even mantissa.
-/

namespace EmbedScript.Double

structure Parts where
  negative : Bool
  mantissa : Nat
  exponent : Int
  deriving DecidableEq

def parts (x : Float) : Parts :=
  let bits : Nat := x.toBits.toNat
  let fraction : Nat := bits % 0x10000000000000
  let biased : Nat := bits / 0x10000000000000 % 0x800
  let negative := bits / 0x8000000000000000 == 1
  if biased == 0 then ⟨negative,fraction,-1074⟩
  else ⟨negative,fraction + 0x10000000000000,(biased : Int) - 1075⟩

def isNegative (x : Float) : Bool := x.toBits.toNat / 0x8000000000000000 == 1

def roundDiv (num den : Nat) : Nat :=
  let q := num / den
  let r := num % den
  if den < 2 * r || (2 * r == den && q % 2 == 1) then q + 1 else q

def scaled (n : Nat) (e : Int) : Nat × Nat :=
  if 0 ≤ e then (n <<< e.toNat,1) else (n,1 <<< (-e).toNat)

def floorLog (num den : Nat) : Int :=
  let e := (num.log2 : Int) - den.log2
  let (a,b) := scaled den e
  if a ≤ num * b then e else e - 1

def infiniteBits : Nat := 0x7ff0000000000000

def nearestBits (num den : Nat) : Nat :=
  if num == 0 then 0
  else
    let e := max (floorLog num den - 52) (-1074)
    let (a,b) := scaled den e
    let m := roundDiv (num * b) a
    min ((e + 1074).toNat * 0x10000000000000 + m) infiniteBits

def ofBits (negative : Bool) (bits : Nat) : Float :=
  Float.ofBits (UInt64.ofNat (bits + if negative then 0x8000000000000000 else 0))

def nan : Float := Float.ofBits 0x7ff8000000000000

def infinity : Float := Float.ofBits 0x7ff0000000000000

def truncate (x : Float) : Float := if isNegative x then x.ceil else x.floor

def isWhole (x : Float) : Bool := x.isFinite && truncate x == x

/-- Remainder of the division rounded toward zero; it has the sign of the dividend. -/
def remainder (x y : Float) : Float :=
  if x.isNaN || y.isNaN || x.isInf || y == 0 then nan
  else if y.isInf then x
  else
    let p := parts x
    let q := parts y
    let e := min p.exponent q.exponent
    let a := p.mantissa <<< (p.exponent - e).toNat
    let b := q.mantissa <<< (q.exponent - e).toNat
    let (num,den) := scaled (a % b) e
    ofBits p.negative (nearestBits num den)

def roundEven (x : Float) : Float :=
  if (x - truncate x).abs == 0.5 then 2.0 * (x / 2.0).round else x.round

def powerFrom (steps : Nat) (acc base : Float) (n : Nat) : Float :=
  match steps with
  | 0 => acc
  | steps + 1 =>
    let acc := if n % 2 == 1 then acc * base else acc
    if n / 2 == 0 then acc else powerFrom steps acc (base * base) (n / 2)

def inversePower (base : Float) (n : Nat) : Float := 1.0 / powerFrom (n.log2 + 1) 1.0 base n

def compare? (x y : Float) : Option Ordering :=
  if x < y then some .lt else if x > y then some .gt else if x == y then some .eq else none

end EmbedScript.Double
