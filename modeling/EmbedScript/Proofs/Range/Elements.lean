import EmbedScript.Proofs.Number.Word
import EmbedScript.Proofs.Sequence.Walk
import EmbedScript.Range
import Mathlib.Data.List.Basic

/-!
Elements of ranges. Size, elements and membership are all read off one walk over integers.
-/

namespace EmbedScript.Range

open Word List

open Sequence (Before Walk)

variable {r : Range} {i : Nat} {v : Int64}

def walk (r : Range) : Walk := ⟨r.start.toInt,r.stop.toInt,r.step.toInt⟩

theorem size_eq_count (r : Range) : r.size = r.walk.count := by
  unfold size span Walk.count walk
  simp only [pos_iff]

theorem lt_size_iff (turning : r.step ≠ 0) (i : Nat) : i < r.size ↔ Before r.step.toInt (r.walk.item i) r.stop.toInt := by
  rw [size_eq_count]
  exact Walk.lt_count_iff (toInt_ne_zero turning) i

theorem step_cases (turning : r.step ≠ 0) : 0 < r.step.toInt ∨ r.step.toInt < 0 := by
  have := toInt_ne_zero turning
  omega

-- Elements lie between two words, so they are words.
theorem item_fits (turning : r.step ≠ 0) (inside : i < r.size) : least ≤ r.walk.item i ∧ r.walk.item i ≤ greatest := by
  rw [size_eq_count] at inside
  have start := fits r.start
  have stop := fits r.stop
  rcases step_cases turning with forward | backward
  · have between := Walk.item_forward forward inside
    simp only [walk] at between ⊢
    omega
  · have between := Walk.item_backward backward inside
    simp only [walk] at between ⊢
    omega

theorem get?_eq_some_iff : r.get? i = some v ↔ i < r.size ∧ v.toInt = r.walk.item i := by
  unfold get?
  by_cases inside : i < r.size
  · rw [if_pos inside,ofInt?_eq_some_iff]
    exact (and_iff_right inside).symm
  · rw [if_neg inside]
    exact ⟨nofun,fun found => absurd found.1 inside⟩

theorem exists_get? (turning : r.step ≠ 0) (inside : i < r.size) : ∃ v, r.get? i = some v ∧ v.toInt = r.walk.item i := by
  have fits := item_fits turning inside
  have exact := toInt_ofInt fits.1 fits.2
  exact ⟨_,get?_eq_some_iff.mpr ⟨inside,exact⟩,exact⟩

theorem get?_eq_none_iff : r.get? i = none ↔ r.size ≤ i := by
  constructor
  · intro ended
    by_cases turning : r.step = 0
    · have none : r.size = 0 := by simp [size,turning]
      exact none ▸ Nat.zero_le i
    · refine Nat.le_of_not_lt fun inside => ?_
      obtain ⟨v,found,-⟩ := exists_get? turning inside
      cases ended.symm.trans found
  · exact fun past => if_neg (Nat.not_lt.mpr past)

theorem get?_forward (forward : 0 < r.step.toInt) (found : r.get? i = some v) :
    r.start.toInt ≤ v.toInt ∧ v.toInt < r.stop.toInt := by
  obtain ⟨inside,place⟩ := get?_eq_some_iff.mp found
  rw [size_eq_count] at inside
  rw [place]
  exact Walk.item_forward forward inside

theorem get?_backward (backward : r.step.toInt < 0) (found : r.get? i = some v) :
    r.stop.toInt < v.toInt ∧ v.toInt ≤ r.start.toInt := by
  obtain ⟨inside,place⟩ := get?_eq_some_iff.mp found
  rw [size_eq_count] at inside
  rw [place]
  exact Walk.item_backward backward inside

def elements (r : Range) : List Int64 := (range r.size).filterMap r.get?

section

variable (turning : r.step ≠ 0)

include turning

theorem get?_eq_ofInt (inside : i < r.size) : r.get? i = some (Int64.ofInt (r.walk.item i)) := by
  obtain ⟨v,found,place⟩ := exists_get? turning inside
  rw [found,← place,Int64.ofInt_toInt]

theorem elements_eq_map : r.elements = (range r.size).map fun i => Int64.ofInt (r.walk.item i) := by
  rw [← filterMap_eq_map']
  exact filterMap_congr fun i among => get?_eq_ofInt turning (mem_range.mp among)

theorem length_elements : r.elements.length = r.size := by rw [elements_eq_map turning,length_map,length_range]

theorem getElem?_elements (i : Nat) : r.elements[i]? = r.get? i := by
  rw [elements_eq_map turning,getElem?_map]
  by_cases inside : i < r.size
  · rw [getElem?_range inside,get?_eq_ofInt turning inside]
    rfl
  · rw [get?,if_neg inside,getElem?_eq_none (by simpa using inside)]
    rfl

end

theorem contains_iff_dvd : r.contains v = true ↔ ¬ Before r.step.toInt v.toInt r.start.toInt ∧
      Before r.step.toInt v.toInt r.stop.toInt ∧ r.step.toInt ∣ v.toInt - r.start.toInt := by
  unfold contains Before
  rw [Bool.and_eq_true,beq_iff_eq,← Int.dvd_iff_emod_eq_zero]
  by_cases forward : 0 < r.step.toInt
  · rw [if_pos (pos_iff.mpr forward),if_pos forward,if_pos forward]
    simp only [Bool.and_eq_true,decide_eq_true_eq,Int64.lt_iff_toInt_lt,Int64.le_iff_toInt_le,Int.not_lt,and_assoc]
  · rw [if_neg (mt pos_iff.mp forward),if_neg forward,if_neg forward]
    simp only [Bool.and_eq_true,decide_eq_true_eq,Int64.lt_iff_toInt_lt,Int64.le_iff_toInt_le,Int.not_lt,and_assoc]

theorem exists_item (turning : r.step ≠ 0) (ahead : ¬ Before r.step.toInt v.toInt r.start.toInt)
    (whole : r.step.toInt ∣ v.toInt - r.start.toInt) : ∃ i, r.walk.item i = v.toInt := by
  obtain ⟨q,exact⟩ := whole
  have nonneg : 0 ≤ q := by
    rcases step_cases turning with forward | backward
    · rw [Before.iff_of_pos forward] at ahead
      exact Int.nonneg_of_mul_nonneg_right (by omega) forward
    · rw [Before.iff_of_neg backward] at ahead
      exact Int.nonneg_of_mul_nonpos_right (by omega) backward
  refine ⟨q.toNat,?_⟩
  simp only [walk,Walk.item,Int.toNat_of_nonneg nonneg]
  omega

theorem contains_iff (turning : r.step ≠ 0) : r.contains v = true ↔ ∃ i, r.get? i = some v := by
  rw [contains_iff_dvd]
  constructor
  · rintro ⟨ahead,short,whole⟩
    obtain ⟨i,place⟩ := exists_item turning ahead whole
    rw [← place] at short
    exact ⟨i,get?_eq_some_iff.mpr ⟨(lt_size_iff turning i).mpr short,place.symm⟩⟩
  · rintro ⟨i,found⟩
    obtain ⟨inside,place⟩ := get?_eq_some_iff.mp found
    rw [place]
    refine ⟨?_,(lt_size_iff turning i).mp inside,?_⟩
    · rw [← show r.walk.item 0 = r.start.toInt from Walk.item_zero]
      exact Walk.not_before_of_le (w := r.walk) (toInt_ne_zero turning) (Nat.zero_le i)
    · exact ⟨i,Walk.item_sub_start i⟩

structure Coherent (r : Range) : Prop where
  found : ∀ i, (r.get? i).isSome = true ↔ i < r.size
  exact : ∀ i v, r.get? i = some v → v.toInt = r.start.toInt + r.step.toInt * i
  ordered : ∀ i j u v, i < j → r.get? i = some u → r.get? j = some v →
    if 0 < r.step then u < v else v < u
  contained : ∀ v, r.contains v = true ↔ ∃ i, r.get? i = some v
  short : ∀ i v, r.get? i = some v → if 0 < r.step then v < r.stop else r.stop < v
  past : ¬ Before r.step.toInt (r.start.toInt + r.step.toInt * r.size) r.stop.toInt
  counted : ∀ n : Nat, n < r.size ↔
    Before r.step.toInt (r.start.toInt + r.step.toInt * n) r.stop.toInt
  -- No number on the way to an answer needs more than 64 digits and a sign.
  narrow : r.span.natAbs < 0x10000000000000000 ∧ r.size < 0x10000000000000000 ∧
    (∀ i < r.size, (r.step.toInt * i).natAbs < 0x10000000000000000) ∧
    ∀ v : Int64, (v.toInt - r.start.toInt).natAbs < 0x10000000000000000

theorem before_iff : Before r.step.toInt u.toInt v.toInt ↔ if 0 < r.step then u < v else v < u := by
  simp only [Int64.lt_iff_toInt_lt]
  rfl

theorem natAbs_sub_lt (u v : Int64) : (u.toInt - v.toInt).natAbs < 0x10000000000000000 := by
  have one := fits u
  have other := fits v
  simp only [least,greatest] at one other
  omega

theorem span_lt (r : Range) : r.span.natAbs < 0x10000000000000000 := by
  unfold span
  split
  · exact natAbs_sub_lt r.stop r.start
  · exact natAbs_sub_lt r.start r.stop

theorem size_le_span (turning : r.step ≠ 0) : r.size ≤ r.span.natAbs := by
  have stride : 0 < r.step.toInt.natAbs := Int.natAbs_pos.mpr (toInt_ne_zero turning)
  have grown : r.span.toNat ≤ r.step.toInt.natAbs * r.span.toNat := Nat.le_mul_of_pos_left _ stride
  have size : r.size < r.span.toNat + 1 := by
    refine Nat.div_lt_of_lt_mul ?_
    rw [Nat.mul_add]
    omega
  omega

theorem size_lt (turning : r.step ≠ 0) : r.size < 0x10000000000000000 := Nat.lt_of_le_of_lt (size_le_span turning) r.span_lt

theorem coherent (turning : r.step ≠ 0) : r.Coherent where
  found i := by
    constructor
    · intro holds
      obtain ⟨v, found⟩ := Option.isSome_iff_exists.mp holds
      exact (get?_eq_some_iff.mp found).1
    · intro inside
      obtain ⟨v, found, _⟩ := exists_get? turning inside
      exact Option.isSome_iff_exists.mpr ⟨v, found⟩
  exact i v found := (get?_eq_some_iff.mp found).2
  ordered i j u v less first second := by
    rw [← before_iff, (get?_eq_some_iff.mp first).2, (get?_eq_some_iff.mp second).2]
    exact Walk.item_before (w := r.walk) (Word.toInt_ne_zero turning) less
  contained v := contains_iff turning
  short i v found := by
    obtain ⟨inside, place⟩ := get?_eq_some_iff.mp found
    rw [← before_iff, place]
    exact (lt_size_iff turning i).mp inside
  past := mt (lt_size_iff turning r.size).mpr (Nat.lt_irrefl _)
  counted := lt_size_iff turning
  narrow := by
    refine ⟨r.span_lt, size_lt turning, ?_, fun v => natAbs_sub_lt v r.start⟩
    intro i inside
    obtain ⟨v, _, place⟩ := exists_get? turning inside
    have reach : v.toInt - r.start.toInt = r.step.toInt * i := by
      rw [place]
      exact Walk.item_sub_start i
    rw [← reach]
    exact natAbs_sub_lt v r.start

theorem coherent_falling :
    Coherent ⟨Int64.maxValue, Int64.minValue, Int64.minValue⟩ ∧
      size ⟨Int64.maxValue, Int64.minValue, Int64.minValue⟩ = 2 :=
  ⟨coherent (by decide), rfl⟩

end EmbedScript.Range
