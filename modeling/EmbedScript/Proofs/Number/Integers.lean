import EmbedScript.Interpreter
import EmbedScript.Proofs.Number.Exact
import EmbedScript.Proofs.Typing.Operators

/-!
An operator on integers gives the word for its exact result, or it fails because there is none.
Powers and shifts to the left refuse a few results that are words.
-/

namespace EmbedScript

open Exec Word Engine

namespace Exec

def GivesInteger (x : Exec Value) (w : World) (n : Int) : Prop := ∃ v : Int64, v.toInt = n ∧ x w = .done (.int v) w

-- The exact result is given, and only one that is no word is refused.
structure Computes (x : Exec Value) (w : World) (n : Int) : Prop where
  exact : Fits n → GivesInteger x w n
  refused : ¬ Fits n → ∃ text, x w = fail (.overflow text) w

theorem givesInteger_inj (given : GivesInteger x w n)
    (ran : x w = .done (.int v) left) : v.toInt = n := by
  obtain ⟨u,value,done⟩ := given
  rw [done] at ran
  cases ran
  exact value

theorem Computes.value (computed : Computes x w n) (ran : x w = .done (.int v) left) : v.toInt = n := by
  by_cases inside : Fits n
  · exact givesInteger_inj (computed.exact inside) ran
  · obtain ⟨text,failed⟩ := computed.refused inside
    rw [failed] at ran
    contradiction

theorem computes_checked (found : ∀ v, ofInt? n = some v → x w = .done (.int v) w)
    (missing : ofInt? n = none → ∃ text, x w = fail (.overflow text) w) :
    Computes x w n := by
  constructor
  · intro inside
    obtain ⟨v,value,word⟩ := ofInt?_fits inside
    exact ⟨v,value,found v word⟩
  · intro outside
    exact missing (ofInt?_not_fits outside)

end Exec

section Operators

variable {k : Engine} {w : World} {a b : Int64} {op : BinaryOp}

section

variable (silent : w.extensions.Silent "int")

include silent

theorem binary_word {r : Except Fault Int64} (rule : intBinary op a b = r.map fun v => some (.int v)) :
    k.binary op (.int a) (.int b) w = ofExcept (r.map .int) w := by
  rw [binary_int op a b silent,BinaryOp.onScalars,rule]
  cases r <;> rfl

theorem binary_gives {v} (rule : intBinary op a b = .ok (some (.int v)))
    (value : v.toInt = n) : GivesInteger (k.binary op (.int a) (.int b)) w n :=
  ⟨v,value,binary_word (r := .ok v) silent rule⟩

theorem binary_computes (rule : intBinary op a b = (orTooLarge o).map fun v => some (.int v))
    (checked : o = ofInt? n) : Computes (k.binary op (.int a) (.int b)) w n := by
  have ran := binary_word (k := k) silent rule
  rw [checked] at ran
  refine computes_checked (fun v found => ?_) fun missing => ?_
  · rw [ran,found]
    rfl
  · rw [ran,missing]
    exact ⟨_,rfl⟩

end

structure IntegerLaws (k : Engine) (w : World) (a b : Int64) : Prop where
  add : Computes (k.binary .add (.int a) (.int b)) w (a.toInt + b.toInt)
  sub : Computes (k.binary .sub (.int a) (.int b)) w (a.toInt - b.toInt)
  mul : Computes (k.binary .mul (.int a) (.int b)) w (a.toInt * b.toInt)
  floorDiv : b ≠ 0 →
    Computes (k.binary .floorDiv (.int a) (.int b)) w ⌊(a.toInt : ℚ) / b.toInt⌋
  mod : b ≠ 0 →
    GivesInteger (k.binary .mod (.int a) (.int b)) w (a.toInt - b.toInt * ⌊(a.toInt : ℚ) / b.toInt⌋)
  noDivisor : b = 0 → ∀ op ∈ [BinaryOp.floorDiv,.mod],
    ∃ text, k.binary op (.int a) (.int b) w = fail (.zeroDivision text) w
  rshift : 0 ≤ b →
    GivesInteger (k.binary .rshift (.int a) (.int b)) w ⌊(a.toInt : ℚ) / 2 ^ b.toInt.toNat⌋
  negativeShift : b < 0 → ∃ text, k.binary .rshift (.int a) (.int b) w = fail (.value text) w
  bitAnd : GivesInteger (k.binary .bitAnd (.int a) (.int b)) w (Int.land a.toInt b.toInt)
  bitOr : GivesInteger (k.binary .bitOr (.int a) (.int b)) w (Int.lor a.toInt b.toInt)
  bitXor : GivesInteger (k.binary .bitXor (.int a) (.int b)) w (Int.xor a.toInt b.toInt)
  neg : Computes (k.unary .neg (.int a)) w (-a.toInt)
  invert : GivesInteger (k.unary .invert (.int a)) w (-a.toInt - 1)
  abs : Computes (k.numeric .abs [.int a]) w |a.toInt|
  division : ∀ {q r : Int64} {left right : World},
    k.binary .floorDiv (.int a) (.int b) w = .done (.int q) left →
    k.binary .mod (.int a) (.int b) w = .done (.int r) right →
    a.toInt = q.toInt * b.toInt + r.toInt ∧
      (r.toInt = 0 ∨ r.toInt.sign = b.toInt.sign) ∧ |r.toInt| < |b.toInt|

section

variable (silent : w.extensions.Silent "int")

include silent

theorem floorDiv_computes (nonzero : b ≠ 0) : Computes (k.binary .floorDiv (.int a) (.int b)) w ⌊(a.toInt : ℚ) / b.toInt⌋ := by
  refine binary_computes silent ?_ (floorDiv?_eq nonzero)
  have rule : floorDivide a b = orTooLarge (floorDiv? a b) := if_neg (mt beq_iff_eq.mp nonzero)
  rw [← rule]
  rfl

theorem mod_gives (nonzero : b ≠ 0) : GivesInteger (k.binary .mod (.int a) (.int b)) w
      (a.toInt - b.toInt * ⌊(a.toInt : ℚ) / b.toInt⌋) := by
  refine binary_gives silent ?_ (toInt_floorMod nonzero)
  have rule : floorRemainder a b = .ok (floorMod a b) := if_neg (mt beq_iff_eq.mp nonzero)
  rw [intBinary,rule]
  rfl

theorem no_divisor (mem : op ∈ [BinaryOp.floorDiv,.mod]) :
    ∃ text, k.binary op (.int a) (.int 0) w = fail (.zeroDivision text) w := by
  simp only [List.mem_cons,List.not_mem_nil,or_false] at mem
  rcases mem with rfl | rfl
  · exact ⟨_,binary_word (r := .error .integerDivision) silent rfl⟩
  · exact ⟨_,binary_word (r := .error .integerDivision) silent rfl⟩

theorem rshift_gives (nonneg : 0 ≤ b) :
    GivesInteger (k.binary .rshift (.int a) (.int b)) w ⌊(a.toInt : ℚ) / 2 ^ b.toInt.toNat⌋ := by
  refine binary_gives silent ?_ (toInt_shiftRight a b.toInt.toNat)
  simp only [intBinary]
  rw [if_neg (Int64.not_lt.mpr nonneg)]
  rfl

theorem negative_shift (negative : b < 0) : ∃ text, k.binary .rshift (.int a) (.int b) w = fail (.value text) w := by
  refine ⟨_,binary_word (r := .error .negativeShift) silent ?_⟩
  simp only [intBinary]
  rw [if_pos negative]
  rfl

theorem neg_computes : Computes (k.unary .neg (.int a)) w (-a.toInt) := by
  have ran : k.unary .neg (.int a) w = ofExcept ((orTooLarge (neg? a)).map .int) w := unary_int .neg a silent
  rw [neg?] at ran
  refine computes_checked (fun v found => ?_) fun missing => ?_
  · rw [ran,found]
    rfl
  · rw [ran,missing]
    exact ⟨_,rfl⟩

end

theorem abs_computes : Computes (k.numeric .abs [.int a]) w |a.toInt| := by
  rw [Int.abs_eq_natAbs]
  refine computes_checked (fun v found => ?_) fun missing => ?_
  · have made : abs? a = some v := found
    simp only [numeric,absolute,made]
    rfl
  · have unmade : abs? a = none := missing
    simp only [numeric,absolute,unmade]
    exact ⟨_,rfl⟩

theorem Word.Remainder.sided {b} (small : Remainder b r) : (r = 0 ∨ r.sign = b.sign) ∧ |r| < |b| := by
  unfold Remainder at small
  rcases Int.lt_trichotomy r 0 with negative | rfl | positive
  · have divisor : b < 0 := by omega
    refine ⟨.inr (by rw [Int.sign_eq_neg_one_of_neg negative,Int.sign_eq_neg_one_of_neg divisor]),?_⟩
    rw [abs_of_neg negative,abs_of_neg divisor]
    omega
  · exact ⟨.inl rfl,by rw [abs_zero,abs_pos]; omega⟩
  · have divisor : 0 < b := by omega
    refine ⟨.inr (by rw [Int.sign_eq_one_of_pos positive,Int.sign_eq_one_of_pos divisor]),?_⟩
    rw [abs_of_pos positive,abs_of_pos divisor]
    omega

theorem integers_exact (silent : w.extensions.Silent "int") (a b : Int64) : IntegerLaws k w a b where
  add := binary_computes silent rfl rfl
  sub := binary_computes silent rfl rfl
  mul := binary_computes silent rfl rfl
  floorDiv := floorDiv_computes silent
  mod := mod_gives silent
  noDivisor := by
    rintro rfl op member
    exact no_divisor silent member
  rshift := rshift_gives silent
  negativeShift := negative_shift silent
  bitAnd := binary_gives silent rfl (Word.toInt_and a b)
  bitOr := binary_gives silent rfl (Word.toInt_or a b)
  bitXor := binary_gives silent rfl (Word.toInt_xor a b)
  neg := neg_computes silent
  invert := ⟨_, Word.toInt_complement a, Engine.unary_int .invert a silent⟩
  abs := abs_computes
  division := by
    intro q r left right divided rest
    by_cases zero : b = 0
    · subst zero
      obtain ⟨text, failed⟩ := @no_divisor k w a .floorDiv silent (List.mem_cons_self ..)
      rw [failed] at divided
      contradiction
    · have quotient := (floorDiv_computes silent zero).value divided
      have remainder := givesInteger_inj (mod_gives silent zero) rest
      have small := Word.remainder_floor (a := a.toInt) (Word.toInt_ne_zero zero)
      rw [← quotient] at remainder small
      rw [← remainder] at small
      refine ⟨?_, small.sided⟩
      rw [remainder, Int.mul_comm]
      omega

theorem integers_exact_limits :
    (∃ text, (engine 0).binary .floorDiv (.int Int64.minValue) (.int (-1)) .blank =
      fail (.overflow text) .blank) ∧
    GivesInteger ((engine 0).binary .mod (.int Int64.minValue) (.int (-1))) .blank 0 ∧
    GivesInteger ((engine 0).binary .floorDiv (.int (-7)) (.int 2)) .blank (-4) := by
  have extreme := @integers_exact (engine 0) .blank World.blank_silent Int64.minValue (-1)
  have usual := @integers_exact (engine 0) .blank World.blank_silent (-7) 2
  have quotient : ⌊(Int64.minValue.toInt : ℚ) / (-1 : Int64).toInt⌋ = Word.greatest + 1 :=
    Word.floor_eq (r := 0) rfl (.inr ⟨by decide, le_rfl⟩)
  have lower : ⌊((-7 : Int64).toInt : ℚ) / (2 : Int64).toInt⌋ = -4 :=
    Word.floor_eq (r := 1) rfl (.inl ⟨by decide, by decide⟩)
  refine ⟨?_, ?_, ?_⟩
  · refine (extreme.floorDiv (by decide)).refused ?_
    rw [quotient]
    unfold Word.Fits
    omega
  · have rest := extreme.mod (by decide)
    rwa [quotient] at rest
  · rw [← lower]
    refine (usual.floorDiv (by decide)).exact ?_
    rw [lower]
    exact ⟨by decide, by decide⟩

-- Powers and shifts to the left

theorem computes_not_refused (inside : Fits n) {text} (failed : x w = fail (.overflow text) w) : ¬ Computes x w n := by
  intro computed
  obtain ⟨v,_,ran⟩ := computed.exact inside
  rw [failed] at ran
  contradiction

theorem pow_rule (nonneg : 0 ≤ b) : intBinary .pow a b = (orTooLarge (pow? a b.toInt.toNat)).map fun v => some (.int v) := by
  simp only [intBinary,intPower]
  rw [if_neg (Int64.not_lt.mpr nonneg)]
  cases pow? a b.toInt.toNat <;> rfl

theorem lshift_rule (nonneg : 0 ≤ b) : intBinary .lshift a b =
      (orTooLarge (shiftLeft? a b.toInt.toNat)).map fun v => some (.int v) := by
  simp only [intBinary]
  rw [if_neg (Int64.not_lt.mpr nonneg)]
  rfl

theorem pow_fails (silent : w.extensions.Silent "int") (nonneg : 0 ≤ b) (far : 0x100000000 ≤ b.toInt) :
    k.binary .pow (.int a) (.int b) w = fail .integerTooLarge w := by
  have rule := pow_rule (a := a) nonneg
  have refused : pow? a b.toInt.toNat = none := if_pos (by omega)
  rw [refused] at rule
  exact binary_word silent rule

theorem fits_power {a} (small : |a| ≤ 1) (b : Nat) : Fits (a ^ b) := by
  have base : a.natAbs ≤ 1 := by
    rw [Int.abs_eq_natAbs] at small
    omega
  have power : (a ^ b).natAbs ≤ 1 := by
    rw [Int.natAbs_pow,← Nat.one_pow b]
    exact Nat.pow_le_pow_left base b
  unfold Fits least greatest
  omega

theorem lshift_fails (silent : w.extensions.Silent "int") : k.binary .lshift (.int (-1)) (.int 63) w = fail .integerTooLarge w :=
  binary_word (r := .error .integerTooLarge) silent rfl

-- Exact or too large, but for a few bases under huge exponents and for the least word as -1 shifted.
theorem powers_and_shifts (silent : w.extensions.Silent "int") (a b : Int64) (nonneg : 0 ≤ b) :
    (Computes (k.binary .pow (.int a) (.int b)) w (a.toInt ^ b.toInt.toNat) ↔
      ¬(|a.toInt| ≤ 1 ∧ 0x100000000 ≤ b.toInt)) ∧
    (Computes (k.binary .lshift (.int a) (.int b)) w (a.toInt * 2 ^ b.toInt.toNat) ↔
      ¬(a = -1 ∧ b = 63)) ∧
    (0x100000000 ≤ b.toInt → k.binary .pow (.int a) (.int b) w = fail .integerTooLarge w) ∧
    k.binary .lshift (.int (-1)) (.int 63) w = fail .integerTooLarge w := by
  have places := Int64.le_iff_toInt_le.mp nonneg
  rw [Int64.toInt_zero] at places
  refine ⟨⟨?_, ?_⟩, ⟨?_, ?_⟩, pow_fails silent nonneg, lshift_fails silent⟩
  · rintro computed ⟨small, far⟩
    exact computes_not_refused (fits_power small _) (pow_fails silent nonneg far) computed
  · intro other
    refine binary_computes silent (pow_rule nonneg) (Word.pow?_eq ?_)
    rw [Int.abs_eq_natAbs] at other
    omega
  · rintro computed ⟨rfl, rfl⟩
    exact computes_not_refused ⟨by decide, by decide⟩ (lshift_fails silent) computed
  · intro other
    refine binary_computes silent (lshift_rule nonneg) (Word.shiftLeft?_eq fun both => other ?_)
    refine ⟨both.1, Int64.toInt_inj.mp ?_⟩
    have value : (63 : Int64).toInt = 63 := rfl
    omega

theorem powers_and_shifts_least :
    GivesInteger ((engine 0).binary .pow (.int (-2)) (.int 63)) .blank Word.least ∧
    GivesInteger ((engine 0).binary .lshift (.int (-2)) (.int 62)) .blank Word.least := by
  have powers := @powers_and_shifts (engine 0) .blank World.blank_silent (-2) 63 (by decide)
  have shifts := @powers_and_shifts (engine 0) .blank World.blank_silent (-2) 62 (by decide)
  have inside : Word.Fits Word.least := ⟨le_rfl, by decide⟩
  exact ⟨(powers.1.mpr (by decide)).exact inside, (shifts.2.1.mpr (by decide)).exact inside⟩

-- The least word is refused as -1 shifted, and 1 as a power of itself.
theorem word_refused :
    ¬ Computes ((engine 0).binary .lshift (.int (-1)) (.int 63)) .blank ((-1) * 2 ^ 63) ∧
    ¬ Computes ((engine 0).binary .pow (.int 1) (.int 0x100000000)) .blank (1 ^ 0x100000000) := by
  have power := @pow_fails (engine 0) .blank 1 0x100000000 World.blank_silent (by decide) (by decide)
  refine ⟨computes_not_refused ⟨by decide, by decide⟩ (lshift_fails World.blank_silent), ?_⟩
  rw [one_pow]
  exact computes_not_refused ⟨by decide, by decide⟩ power

end Operators

end EmbedScript
