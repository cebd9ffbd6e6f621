import EmbedScript.Number.Word

/-!
Words, the integers they stand for, and their digits.
-/

namespace EmbedScript.Word

theorem fits (v : Int64) : least ≤ v.toInt ∧ v.toInt ≤ greatest := ⟨Int64.le_toInt v,Int.lt_add_one_iff.mp (Int64.toInt_lt v)⟩

variable {v : Int64}

theorem pos_iff : 0 < v ↔ 0 < v.toInt := Int64.lt_iff_toInt_lt

theorem neg_iff : v < 0 ↔ v.toInt < 0 := Int64.lt_iff_toInt_lt

theorem toInt_ne_zero (nonzero : v ≠ 0) : v.toInt ≠ 0 := fun same => nonzero (Int64.toInt_inj.mp same)

theorem toInt_ofInt (low : least ≤ a) (high : a ≤ greatest) : (Int64.ofInt a).toInt = a :=
  Int64.toInt_ofInt_of_le low (Int.lt_add_one_iff.mpr high)

theorem exists_ofInt? (low : least ≤ a) (high : a ≤ greatest) : ∃ v, ofInt? a = some v ∧ v.toInt = a :=
  ⟨_,if_pos ⟨low,high⟩,toInt_ofInt low high⟩

theorem ofInt?_eq_some_iff : ofInt? a = some v ↔ v.toInt = a := by
  unfold ofInt?
  constructor
  · intro found
    split at found
    case isTrue inside =>
      rw [← Option.some.inj found]
      exact toInt_ofInt inside.1 inside.2
    case isFalse => cases found
  · intro same
    subst same
    rw [if_pos (fits v),Int64.ofInt_toInt]

theorem ofInt?_eq_none_iff : ofInt? a = none ↔ a < least ∨ greatest < a := by
  unfold ofInt?
  constructor
  · intro refused
    split at refused
    case isTrue => cases refused
    case isFalse outside => omega
  · intro outside
    exact if_neg (by omega)

-- A size that is no word becomes a negative one.
theorem toInt_wrap (nonneg : 0 ≤ a) (bounded : a < 0x10000000000000000) :
    (wrap a).toInt = if a ≤ greatest then a else a - 0x10000000000000000 := by
  have kept : a % (0x10000000000000000 : Nat) = a := Int.emod_eq_of_lt nonneg bounded
  rw [wrap,Int64.toInt_ofInt,Int64.size,Int.bmod_def,kept]
  unfold greatest
  split
  · rw [if_pos (by omega)]
  · rw [if_neg (by omega)]
    rfl

theorem ofInt?_natAbs (other : n ≠ Int64.minValue) : ofInt? n.toInt.natAbs = some (Int64.ofInt n.toInt.natAbs) := by
  have above := Int64.le_toInt n
  have below := Int64.toInt_lt n
  have inner : n.toInt ≠ -2 ^ 63 := fun same => other (Int64.toInt_inj.mp (same.trans Int64.toInt_minValue.symm))
  have range : least ≤ (n.toInt.natAbs) ∧ (n.toInt.natAbs) ≤ greatest := by
    simp only [least,greatest]
    omega
  exact if_pos range

theorem toList_toString (a : Int) : (toString a).toList =
    if a < 0 then '-' :: Nat.toDigits 10 a.natAbs else Nat.toDigits 10 a.natAbs := by
  cases a with
  | ofNat m =>
    exact Nat.toList_repr
  | negSucc m =>
    have written : toString (Int.negSucc m) = "-" ++ (m + 1).repr := rfl
    rw [if_pos (Int.negSucc_lt_zero m),written,String.toList_append,Nat.toList_repr]
    rfl

theorem ofInt_natAbs_nonneg (sign : 0 ≤ n.toInt) : Int64.ofInt n.toInt.natAbs = n := by
  rw [Int.natAbs_of_nonneg sign,Int64.ofInt_toInt]

theorem neg_ofInt_natAbs (sign : n.toInt < 0) : -Int64.ofInt n.toInt.natAbs = n := by
  rw [Int.ofNat_natAbs_of_nonpos (Int.le_of_lt sign),← Int64.ofInt_neg,Int.neg_neg,Int64.ofInt_toInt]

end EmbedScript.Word
