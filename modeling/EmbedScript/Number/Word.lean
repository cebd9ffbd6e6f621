/-!
Script integers: signed 64-bit words whose arithmetic is exact or refused with `none`.
-/

namespace EmbedScript.Word

def least : Int := -0x8000000000000000

def greatest : Int := 0x7fffffffffffffff

def ofInt? (n : Int) : Option Int64 :=
  if least ≤ n ∧ n ≤ greatest then some (Int64.ofInt n) else none

def add? (a b : Int64) : Option Int64 := ofInt? (a.toInt + b.toInt)

def sub? (a b : Int64) : Option Int64 := ofInt? (a.toInt - b.toInt)

def mul? (a b : Int64) : Option Int64 := ofInt? (a.toInt * b.toInt)

def neg? (a : Int64) : Option Int64 := ofInt? (-a.toInt)

def abs? (a : Int64) : Option Int64 := ofInt? a.toInt.natAbs

/-- The divisor is not zero. Division of words rounds to zero, and only the least word by -1 gives
no word. -/
def floorDiv? (a b : Int64) : Option Int64 :=
  if a == Int64.minValue && b == -1 then none
  else some (if a % b != 0 && (a < 0) != (b < 0) then a / b - 1 else a / b)

/-- The divisor, which is not zero, gives the sign. That of words has the sign of the dividend. -/
def floorMod (a b : Int64) : Int64 :=
  let remainder := a % b
  if remainder != 0 && (remainder < 0) != (b < 0) then remainder + b else remainder

def pow? (a : Int64) (b : Nat) : Option Int64 :=
  if b ≥ 0x100000000 then none
  else if a == 0 then some (if b == 0 then 1 else 0)
  else if a == 1 then some 1
  else if a == -1 then some (if b % 2 == 0 then 1 else -1)
  else if b ≥ 64 then none
  else ofInt? (a.toInt.pow b)

/-- Shifts of 63 places and more are refused unless `a` is zero, others if shifting back does not
lead back. -/
def shiftLeft? (a : Int64) (b : Nat) : Option Int64 :=
  if a == 0 then some 0
  else if b ≥ 63 then none
  else
    let shifted := a <<< Int64.ofNat b
    if shifted >>> Int64.ofNat b == a then some shifted else none

def shiftRight (a : Int64) (b : Nat) : Int64 :=
  if b ≥ 64 then (if a < 0 then -1 else 0)
  else a >>> Int64.ofNat b

def complement (a : Int64) : Int64 := ~~~a

def bitLength (a : Int64) : Int64 :=
  let n := a.toInt.natAbs
  if n == 0 then 0 else Int64.ofNat (n.log2 + 1)

def wrap (n : Int) : Int64 := Int64.ofInt n

def text (a : Int64) : String := toString a.toInt

end EmbedScript.Word
