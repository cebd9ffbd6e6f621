import EmbedScript.Interpreter
import EmbedScript.Proofs.Exec
import EmbedScript.Proofs.Range.Elements

/-!
Ranges as scripts see them, who count with words.
-/

namespace EmbedScript

open Exec Word
open Sequence (Before)

namespace Sequence

variable {index : Int64}

theorem position?_of_nonneg (nonneg : 0 ≤ index.toInt) : position? index size =
      if index.toInt < (wrap size).toInt then some index.toInt.toNat else none := by
  have positive : ¬ index < 0 := mt neg_iff.mp (Int.not_lt.mpr nonneg)
  unfold position?
  simp only [if_neg positive,Bool.or_eq_true,decide_eq_true_eq]
  by_cases inside : index.toInt < (wrap size).toInt
  · rw [if_neg (by omega),if_pos inside]
  · rw [if_pos (by omega),if_neg inside]

theorem position_of_some (found : position? index size = some p) (what : String) :
    position index size what = .ok p := by
  delta position
  rw [found]

theorem position_of_none (missing : position? index size = none) (what : String) :
    position index size what = .error (.index (what ++ " index out of range")) := by
  delta position
  rw [missing]

end Sequence

variable {r : Range} {index : Int64} (k : Engine) (w : World)

theorem getItem_range : k.getItem (.range r) (.int index) w =
      ofExcept ((Sequence.position index r.size "range object").map fun position => (r.get? position).elim .none .int) w := by
  change ((ofExcept (Sequence.position index r.size "range object")) >>= fun position =>
    pure ((r.get? position).elim Value.none Value.int)) w = _
  cases Sequence.position index r.size "range object" with
  | ok position => rfl
  | error e => rfl

theorem getItem_of_fits (turning : r.step ≠ 0) (fits : r.size ≤ greatest)
    (nonneg : 0 ≤ index.toInt) (inside : index.toInt < r.size) :
    ∃ v, k.getItem (.range r) (.int index) w = .done (.int v) w ∧ v.toInt = r.start.toInt + r.step.toInt * index.toInt := by
  have bounded := Int.ofNat_lt.mpr (Range.size_lt turning)
  have length := toInt_wrap (Int.natCast_nonneg r.size) bounded
  rw [if_pos fits] at length
  have found : Sequence.position? index r.size = some index.toInt.toNat := by
    rw [Sequence.position?_of_nonneg nonneg,length,if_pos inside]
  obtain ⟨v,got,place⟩ := Range.exists_get? (i := index.toInt.toNat) turning (by omega)
  refine ⟨v,?_,?_⟩
  · rw [getItem_range,Sequence.position_of_some found]
    simp only [Except.map,got]
    rfl
  · rw [place,Range.walk,Sequence.Walk.item,Int.toNat_of_nonneg nonneg]

theorem getItem_of_long (turning : r.step ≠ 0) (long : ¬ r.size ≤ greatest) (nonneg : 0 ≤ index.toInt) :
    ∃ left, k.getItem (.range r) (.int index) w = .fault (.index "range object index out of range") left := by
  have bounded := Int.ofNat_lt.mpr (Range.size_lt turning)
  have length := toInt_wrap (Int.natCast_nonneg r.size) bounded
  have missing : Sequence.position? index r.size = none := by rw [Sequence.position?_of_nonneg nonneg,if_neg (by omega)]
  rw [getItem_range,Sequence.position_of_none missing]
  exact ⟨_,rfl⟩

-- The length of a range and its elements by index, for every range: they are what they should be
-- just if the number of elements is a word.
theorem range_access_in_words (turning : r.step ≠ 0) :
    ∃ count : Nat,
      (∀ n : Nat, n < count ↔
        Before r.step.toInt (r.start.toInt + r.step.toInt * n) r.stop.toInt) ∧
      (∃ length, k.applyBuiltin .len [.range r] w = .done (.int length) w ∧
        length.toInt =
          if count ≤ Word.greatest then (count : Int) else (count : Int) - 0x10000000000000000) ∧
      ∀ index : Int64, 0 ≤ index → index.toInt < count →
        if count ≤ Word.greatest then
          ∃ v, k.getItem (.range r) (.int index) w = .done (.int v) w ∧
            v.toInt = r.start.toInt + r.step.toInt * index.toInt
        else
          ∃ left, k.getItem (.range r) (.int index) w =
            .fault (.index "range object index out of range") left := by
  refine ⟨r.size, Range.lt_size_iff turning, ⟨Word.wrap r.size, rfl, ?_⟩, ?_⟩
  · exact Word.toInt_wrap (Int.natCast_nonneg r.size) (Int.ofNat_lt.mpr (Range.size_lt turning))
  · intro index nonneg inside
    have nonneg := Int64.le_iff_toInt_le.mp nonneg
    by_cases fits : r.size ≤ Word.greatest
    · rw [if_pos fits]
      exact getItem_of_fits k w turning fits nonneg inside
    · rw [if_neg fits]
      exact getItem_of_long k w turning fits nonneg

theorem range_access_in_words_longest :
    ∃ v, (engine 0).getItem (.range ⟨Int64.minValue, -1, 1⟩) (.int 0x7ffffffffffffffe)
        { types := ⟨[]⟩, maxDepth := 0 } = .done (.int v) { types := ⟨[]⟩, maxDepth := 0 } ∧
      v.toInt = -2 := by
  obtain ⟨count, counted, _, access⟩ := @range_access_in_words ⟨Int64.minValue, -1, 1⟩ (engine 0)
    { types := ⟨[]⟩, maxDepth := 0 } (by decide)
  have inside : 0x7ffffffffffffffe < count := (counted _).mpr (by decide)
  have past : ¬ 0x7fffffffffffffff < count := mt (counted _).mp (by decide)
  have fits : (count : Int) ≤ Word.greatest := by
    unfold Word.greatest
    omega
  have got := access 0x7ffffffffffffffe (by decide) (Int.ofNat_lt.mpr inside)
  rw [if_pos fits] at got
  exact got

-- A longer one: its length is a negative number, and it has a first element that no index reaches.
theorem range_access_too_long :
    (engine 0).applyBuiltin .len [.range ⟨-0x7fffffffffffffff, Int64.maxValue, 1⟩]
        { types := ⟨[]⟩, maxDepth := 0 } = .done (.int (-2)) { types := ⟨[]⟩, maxDepth := 0 } ∧
      Range.get? ⟨-0x7fffffffffffffff, Int64.maxValue, 1⟩ 0 = some (-0x7fffffffffffffff) ∧
      (engine 0).getItem (.range ⟨-0x7fffffffffffffff, Int64.maxValue, 1⟩) (.int 0)
        { types := ⟨[]⟩, maxDepth := 0 } =
        .fault (.index "range object index out of range")
          { types := ⟨[]⟩, maxDepth := 0,
            raised := some (.index "range object index out of range", []) } := by
  refine ⟨rfl, rfl, rfl⟩

end EmbedScript
