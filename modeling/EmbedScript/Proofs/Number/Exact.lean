import EmbedScript.Proofs.Number.Word
import Mathlib.Data.Int.Bitwise
import Mathlib.Data.Rat.Floor
import Mathlib.Tactic.Linarith
import Mathlib.Tactic.Ring

/-!
Operations on words against the integers: the floor of a quotient and the exact product, or refusal.
-/

namespace EmbedScript.Word

def Fits (n : Int) : Prop := least ≤ n ∧ n ≤ greatest

variable (v : Int64)

theorem toInt_fits : Fits v.toInt := fits v

theorem ofInt?_fits (inside : Fits n) : ∃ v, v.toInt = n ∧ ofInt? n = some v := by
  obtain ⟨v,found,value⟩ := exists_ofInt? inside.1 inside.2
  exact ⟨v,value,found⟩

theorem ofInt?_not_fits (outside : ¬ Fits n) : ofInt? n = none := if_neg outside

theorem bmod_eq (inside : Fits n) : n.bmod (2 ^ 64) = n := by
  obtain ⟨low,high⟩ := inside
  unfold least at low
  unfold greatest at high
  exact Int.bmod_eq_of_le (by omega) (by omega)

def Remainder (b r : Int) : Prop := (0 ≤ r ∧ r < b) ∨ (b < r ∧ r ≤ 0)

theorem floor_eq {a : Int} (divided : a = q * b + r) (small : Remainder b r) : ⌊(a : ℚ) / b⌋ = q := by
  have exact : (a : ℚ) = q * b + r := by exact_mod_cast divided
  rw [Int.floor_eq_iff]
  rcases small with ⟨low,high⟩ | ⟨low,high⟩
  · have positive : (0 : ℚ) < b := by exact_mod_cast Int.lt_of_le_of_lt low high
    have above : (0 : ℚ) ≤ r := by exact_mod_cast low
    have below : (r : ℚ) < b := by exact_mod_cast high
    rw [le_div_iff₀ positive,div_lt_iff₀ positive]
    constructor <;> linarith
  · have negative : (b : ℚ) < 0 := by exact_mod_cast Int.lt_of_lt_of_le low high
    have above : (b : ℚ) < r := by exact_mod_cast low
    have below : (r : ℚ) ≤ 0 := by exact_mod_cast high
    rw [le_div_iff_of_neg negative,div_lt_iff_of_neg negative]
    constructor <;> linarith

theorem remainder_floor {a : Int} (nonzero : b ≠ 0) : Remainder b (a - b * ⌊(a : ℚ) / b⌋) := by
  have low := Int.floor_le ((a : ℚ) / b)
  have high := Int.lt_floor_add_one ((a : ℚ) / b)
  rcases Int.lt_or_gt_of_ne nonzero with negative | positive
  · have sign : (b : ℚ) < 0 := by exact_mod_cast negative
    rw [le_div_iff_of_neg sign] at low
    rw [div_lt_iff_of_neg sign] at high
    have above : a ≤ ⌊(a : ℚ) / b⌋ * b := by exact_mod_cast low
    have below : (⌊(a : ℚ) / b⌋ + 1) * b < a := by exact_mod_cast high
    right
    constructor <;> linarith
  · have sign : (0 : ℚ) < b := by exact_mod_cast positive
    rw [le_div_iff₀ sign] at low
    rw [div_lt_iff₀ sign] at high
    have below : ⌊(a : ℚ) / b⌋ * b ≤ a := by exact_mod_cast low
    have above : a < (⌊(a : ℚ) / b⌋ + 1) * b := by exact_mod_cast high
    left
    constructor <;> linarith

theorem tmod_bounds {a : Int} (nonzero : b ≠ 0) :
    (a.tmod b).natAbs < b.natAbs ∧ (0 ≤ a → 0 ≤ a.tmod b) ∧ (a ≤ 0 → a.tmod b ≤ 0) := by
  refine ⟨?_,Int.tmod_nonneg b,fun sign => ?_⟩
  · rw [Int.natAbs_tmod]
    exact Nat.mod_lt _ (by omega)
  · have mirrored := Int.tmod_nonneg b (Int.neg_nonneg_of_nonpos sign)
    rw [Int.neg_tmod] at mirrored
    omega

-- Where the signs differ and something is left, the quotient is one too much.
theorem corrected_quotient {a b : Int} (nonzero : b ≠ 0) : ⌊(a : ℚ) / b⌋ =
      if a.tmod b ≠ 0 ∧ ¬(a < 0 ↔ b < 0) then a.tdiv b - 1 else a.tdiv b := by
  obtain ⟨small,nonneg,nonpos⟩ := tmod_bounds (a := a) nonzero
  have divided := Int.tdiv_mul_add_tmod a b
  split
  case isTrue apart =>
    refine floor_eq (r := a.tmod b + b) ?_ ?_
    · rw [Int.sub_mul]
      omega
    · unfold Remainder
      omega
  case isFalse together =>
    refine floor_eq divided.symm ?_
    unfold Remainder
    omega

theorem corrected_remainder {a b : Int} (nonzero : b ≠ 0) : a - b * ⌊(a : ℚ) / b⌋ =
      if a.tmod b ≠ 0 ∧ ¬(a.tmod b < 0 ↔ b < 0) then a.tmod b + b else a.tmod b := by
  obtain ⟨small,nonneg,nonpos⟩ := tmod_bounds (a := a) nonzero
  have divided := Int.mul_tdiv_add_tmod a b
  rw [corrected_quotient nonzero]
  split <;> split
  all_goals
    try rw [Int.mul_sub]
    omega

-- Of all quotients of words only one is no word.
theorem floor_fits {a b : Int} (inside : Fits a) (nonzero : b ≠ 0) (other : ¬(a = least ∧ b = -1)) : Fits ⌊(a : ℚ) / b⌋ := by
  have small := remainder_floor (a := a) nonzero
  generalize ⌊(a : ℚ) / b⌋ = q at small ⊢
  obtain ⟨low,high⟩ := inside
  unfold Fits
  unfold least at low other ⊢
  unfold greatest at high ⊢
  rcases small with ⟨above,below⟩ | ⟨below,above⟩
  · have divisor : 1 ≤ b := by omega
    constructor <;> by_contra outside <;> nlinarith
  · by_cases mirrored : b = -1
    · subst mirrored
      omega
    · have divisor : b ≤ -2 := by omega
      constructor <;> by_contra outside <;> nlinarith

variable {a : Int64}

theorem signs_differ {r b : Int64} : (r != 0 && decide (a < 0) != decide (b < 0)) = true ↔
      r.toInt ≠ 0 ∧ ¬(a.toInt < 0 ↔ b.toInt < 0) := by
  have something : r ≠ 0 ↔ r.toInt ≠ 0 := not_congr Int64.toInt_inj.symm
  have signs : decide (a < 0) ≠ decide (b < 0) ↔ ¬(a.toInt < 0 ↔ b.toInt < 0) := by rw [Ne,decide_eq_decide,neg_iff,neg_iff]
  rw [Bool.and_eq_true,bne_iff_ne,bne_iff_ne,something,signs]

theorem toInt_div {b} (other : ¬(a = Int64.minValue ∧ b = -1)) : (a / b).toInt = a.toInt.tdiv b.toInt := by
  by_cases least : a = Int64.minValue
  · exact Int64.toInt_div_of_ne_right a b fun mirrored => other ⟨least,mirrored⟩
  · exact Int64.toInt_div_of_ne_left a b least

theorem floorDiv?_eq {b} (nonzero : b ≠ 0) : floorDiv? a b = ofInt? ⌊(a.toInt : ℚ) / b.toInt⌋ := by
  have divisor := toInt_ne_zero nonzero
  unfold floorDiv?
  split
  case isTrue extreme =>
    simp only [Bool.and_eq_true,beq_iff_eq] at extreme
    obtain ⟨rfl,rfl⟩ := extreme
    have quotient : ⌊((Int64.minValue.toInt) : ℚ) / (-1 : Int64).toInt⌋ = greatest + 1 :=
      floor_eq rfl (.inr ⟨by decide,le_rfl⟩)
    rw [ofInt?_not_fits (by unfold Fits; omega)]
  case isFalse usual =>
    simp only [Bool.and_eq_true,beq_iff_eq] at usual
    have other : ¬(a.toInt = least ∧ b.toInt = -1) := fun extreme =>
      usual ⟨Int64.toInt_inj.mp extreme.1,Int64.toInt_inj.mp extreme.2⟩
    have inside := floor_fits (toInt_fits a) divisor other
    symm
    rw [ofInt?_eq_some_iff]
    rw [corrected_quotient divisor] at inside ⊢
    simp only [signs_differ,Int64.toInt_mod]
    split
    case isTrue apart =>
      rw [if_pos apart] at inside
      rw [Int64.toInt_sub,toInt_div usual]
      exact bmod_eq inside
    case isFalse => exact toInt_div usual

theorem Remainder.fits {b} (inside : Fits b) (small : Remainder b r) : Fits r := by
  unfold Fits least greatest at *
  unfold Remainder at small
  omega

theorem toInt_floorMod {b} (nonzero : b ≠ 0) : (floorMod a b).toInt = a.toInt - b.toInt * ⌊(a.toInt : ℚ) / b.toInt⌋ := by
  have divisor := toInt_ne_zero nonzero
  have inside := (remainder_floor (a := a.toInt) divisor).fits (toInt_fits b)
  rw [corrected_remainder divisor] at inside ⊢
  simp only [floorMod,signs_differ,Int64.toInt_mod]
  split
  case isTrue apart =>
    rw [if_pos apart] at inside
    rw [Int64.toInt_add,Int64.toInt_mod]
    exact bmod_eq inside
  case isFalse => exact Int64.toInt_mod a b


theorem shift_places (inside : b < 64) : ((Int64.ofNat b).toBitVec.smod 64).toNat = b := by
  have each : ∀ b : Fin 64, ((Int64.ofNat b).toBitVec.smod 64).toNat = b := by decide
  exact each ⟨b,inside⟩

theorem toInt_shiftRight_ofNat (a : Int64) (inside : b < 64) : (a >>> Int64.ofNat b).toInt = a.toInt / 2 ^ b := by
  have moved : (a >>> Int64.ofNat b).toBitVec = a.toBitVec.sshiftRight b := by
    rw [Int64.toBitVec_shiftRight,BitVec.sshiftRight',shift_places inside]
  rw [← Int64.toInt_toBitVec,moved,BitVec.toInt_sshiftRight,Int.shiftRight_eq_div_pow]
  rfl

theorem toInt_shiftLeft_ofNat (a : Int64) (inside : b < 64) : (a <<< Int64.ofNat b).toInt = (a.toInt * 2 ^ b).bmod (2 ^ 64) := by
  have moved : (a <<< Int64.ofNat b).toBitVec = a.toBitVec <<< b := by
    rw [Int64.toBitVec_shiftLeft,BitVec.shiftLeft_eq',shift_places inside]
  rw [← Int64.toInt_toBitVec,moved,BitVec.toInt_shiftLeft,← Int64.toInt_toBitVec,
    BitVec.toInt_eq_toNat_bmod,Int.bmod_mul_bmod,Nat.shiftLeft_eq]
  norm_cast

theorem toInt_shiftRight (a : Int64) (b : Nat) : (shiftRight a b).toInt = ⌊(a.toInt : ℚ) / 2 ^ b⌋ := by
  unfold shiftRight
  split
  case isTrue far =>
    obtain ⟨low,high⟩ := toInt_fits a
    have wide : (2 : Int) ^ 64 ≤ 2 ^ b := pow_le_pow_right₀ (by decide) far
    have divisor : (2 : ℚ) ^ b = ((2 ^ b : Int)) := by push_cast; rfl
    unfold least at low
    unfold greatest at high
    rw [divisor]
    symm
    split
    case isTrue negative =>
      have sign := neg_iff.mp negative
      exact floor_eq (q := -1) (r := a.toInt + 2 ^ b) (by ring) (.inl (by omega))
    case isFalse nonneg =>
      have sign := mt neg_iff.mpr nonneg
      exact floor_eq (q := 0) (by ring) (.inl (by omega))
  case isFalse near =>
    have quotient := Rat.floor_intCast_div_natCast a.toInt (2 ^ b)
    push_cast at quotient
    rw [toInt_shiftRight_ofNat a (Nat.not_le.mp near),quotient]

theorem not_fits_shifted {a} (nonzero : a ≠ 0) (far : 63 ≤ b) (other : ¬(a = -1 ∧ b = 63)) : ¬ Fits (a * 2 ^ b) := by
  rintro ⟨low,high⟩
  unfold least at low
  unfold greatest at high
  have wide : (2) ^ 63 ≤ 2 ^ b := pow_le_pow_right₀ (by decide) far
  by_cases mirrored : a = -1
  · have wider : (2 : Int) ^ 64 ≤ 2 ^ b := pow_le_pow_right₀ (by decide) (by omega)
    subst mirrored
    omega
  · rcases Int.lt_or_gt_of_ne nonzero with negative | positive
    · have apart : a ≤ -2 := by omega
      nlinarith
    · nlinarith

theorem shifted_back_iff (near : b < 63) : a <<< Int64.ofNat b >>> Int64.ofNat b = a ↔ Fits (a.toInt * 2 ^ b) := by
  have inside : b < 64 := by omega
  have back := toInt_shiftRight_ofNat (a <<< Int64.ofNat b) inside
  have nonzero : (2 : Int) ^ b ≠ 0 := by positivity
  rw [← Int64.toInt_inj,back]
  constructor
  · intro same
    have whole : (2) ^ b ∣ (a <<< Int64.ofNat b).toInt := by
      rw [toInt_shiftLeft_ofNat a inside,Int.bmod_eq_self_sub_mul_bdiv]
      refine Int.dvd_sub (Int.dvd_mul_left ..) (Int.dvd_mul_of_dvd_left ?_)
      exact pow_dvd_pow 2 (by omega)
    have product := Int.ediv_mul_cancel whole
    rw [same] at product
    rw [product]
    exact toInt_fits _
  · intro fits
    rw [toInt_shiftLeft_ofNat a inside,bmod_eq fits,Int.mul_ediv_cancel _ nonzero]

theorem shiftLeft?_eq (other : ¬(a = -1 ∧ b = 63)) : shiftLeft? a b = ofInt? (a.toInt * 2 ^ b) := by
  unfold shiftLeft?
  by_cases zero : a = 0
  · subst zero
    simp only [beq_self_eq_true,if_true,Int64.toInt_zero,Int.zero_mul]
    rfl
  rw [if_neg (by rwa [beq_iff_eq])]
  by_cases far : 63 ≤ b
  · have apart : ¬(a.toInt = -1 ∧ b = 63) := fun both => other ⟨Int64.toInt_inj.mp both.1,both.2⟩
    rw [if_pos far,ofInt?_not_fits (not_fits_shifted (toInt_ne_zero zero) far apart)]
  rw [if_neg far]
  by_cases fits : Fits (a.toInt * 2 ^ b)
  · rw [if_pos (by rw [beq_iff_eq,shifted_back_iff (by omega)]; exact fits)]
    symm
    rw [ofInt?_eq_some_iff,toInt_shiftLeft_ofNat a (by omega),bmod_eq fits]
  · rw [if_neg (by rw [beq_iff_eq,shifted_back_iff (by omega)]; exact fits),ofInt?_not_fits fits]

theorem not_fits_power {a} (large : 2 ≤ a.natAbs) (far : 64 ≤ b) : ¬ Fits (a ^ b) := by
  have wide : 2 ^ 64 ≤ (a ^ b).natAbs := by
    rw [Int.natAbs_pow]
    calc 2 ^ 64 ≤ 2 ^ b := Nat.pow_le_pow_right (by decide) far
      _ ≤ a.natAbs ^ b := Nat.pow_le_pow_left large b
  unfold Fits least greatest
  omega

theorem pow?_eq (other : ¬(a.toInt.natAbs ≤ 1 ∧ 0x100000000 ≤ b)) : pow? a b = ofInt? (a.toInt ^ b) := by
  have mirrored : (-1 : Int64).toInt = -1 := rfl
  simp only [pow?,beq_iff_eq]
  split_ifs with huge zero none one minus even far
  · rw [ofInt?_not_fits (not_fits_power (by omega) (by omega))]
  · subst zero none
    rfl
  · rw [zero,Int64.toInt_zero,zero_pow none]
    rfl
  · rw [one,Int64.toInt_one,one_pow]
    rfl
  · rw [minus,mirrored,(Nat.even_iff.mpr even).neg_one_pow]
    rfl
  · rw [minus,mirrored,(Nat.odd_iff.mpr (by omega)).neg_one_pow]
    rfl
  · have large : 2 ≤ a.toInt.natAbs := by
      have first : a.toInt ≠ 0 := toInt_ne_zero zero
      have second : a.toInt ≠ 1 := fun same => one (Int64.toInt_inj.mp same)
      have third : a.toInt ≠ -1 := fun same => minus (Int64.toInt_inj.mp same)
      omega
    rw [ofInt?_not_fits (not_fits_power large far)]
  · rfl

-- A digit of the two's complement of a word; beyond the word all are that of the sign.
theorem testBit_toInt (i : Nat) : v.toInt.testBit i = if i < 64 then v.toBitVec.getLsbD i else v.toBitVec.msb := by
  rw [← Int64.toInt_toBitVec]
  generalize v.toBitVec = x
  have beyond (far : ¬ i < 64) : x.toNat.testBit i = false := BitVec.getLsbD_of_ge x i (Nat.not_lt.mp far)
  cases sign : x.msb with
  | false =>
    have value : x.toInt = Int.ofNat x.toNat := by simp [BitVec.toInt_eq_msb_cond,sign]
    rw [value]
    change x.toNat.testBit i = _
    split
    case isTrue => rfl
    case isFalse far => exact beyond far
  | true =>
    have value : x.toInt = Int.negSucc (2 ^ 64 - (x.toNat + 1)) := by
      have bound := x.isLt
      simp only [BitVec.toInt_eq_msb_cond,sign,if_true]
      omega
    rw [value]
    change (!(2 ^ 64 - (x.toNat + 1)).testBit i) = _
    rw [Nat.testBit_two_pow_sub_succ x.isLt]
    split
    case isTrue near => simp [near,BitVec.getLsbD]
    case isFalse far => simp [far]

theorem eq_of_testBit {m : Int} (same : ∀ i, m.testBit i = n.testBit i) : m = n := by
  have small (m n : Nat) : m.testBit (m + n) = false ∧ n.testBit (m + n) = false := by
    have wide : m + n < 2 ^ (m + n) := Nat.lt_two_pow_self
    exact ⟨Nat.testBit_lt_two_pow (by omega),Nat.testBit_lt_two_pow (by omega)⟩
  cases m with
  | ofNat m =>
    cases n with
    | ofNat n => exact congrArg Int.ofNat (Nat.eq_of_testBit_eq same)
    | negSucc n =>
      have apart := same (m + n)
      simp [Int.testBit,small m n] at apart
  | negSucc m =>
    cases n with
    | ofNat n =>
      have apart := same (m + n)
      simp [Int.testBit,small m n] at apart
    | negSucc n => exact congrArg Int.negSucc (Nat.eq_of_testBit_eq fun i => Bool.not_inj (same i))

theorem toInt_and (a b : Int64) : (a &&& b).toInt = Int.land a.toInt b.toInt := by
  refine eq_of_testBit fun i => ?_
  rw [Int.testBit_land,testBit_toInt,testBit_toInt,testBit_toInt]
  split
  · exact BitVec.getLsbD_and ..
  · exact BitVec.msb_and ..

theorem toInt_or (a b : Int64) : (a ||| b).toInt = Int.lor a.toInt b.toInt := by
  refine eq_of_testBit fun i => ?_
  rw [Int.testBit_lor,testBit_toInt,testBit_toInt,testBit_toInt]
  split
  · exact BitVec.getLsbD_or ..
  · exact BitVec.msb_or ..

theorem toInt_xor (a b : Int64) : (a ^^^ b).toInt = Int.xor a.toInt b.toInt := by
  refine eq_of_testBit fun i => ?_
  rw [Int.testBit_lxor,testBit_toInt,testBit_toInt,testBit_toInt]
  split
  · exact BitVec.getLsbD_xor ..
  · exact BitVec.msb_xor ..

theorem toInt_complement (a : Int64) : (complement a).toInt = -a.toInt - 1 := by
  have inside := toInt_fits a
  rw [complement,Int64.toInt_not]
  refine bmod_eq ?_
  unfold Fits least greatest at *
  omega

end EmbedScript.Word
