import EmbedScript.Interpreter
import EmbedScript.Proofs.Exec
import EmbedScript.Proofs.Range.Elements
import EmbedScript.Proofs.Sequence.Slice

/-!
A slice of a range has the elements that the same slice takes from the list of all elements, except
that one at the very end of the words, behind which no range can end, is left out.
-/

namespace EmbedScript

open Exec List Word
open Sequence (Before Walk)

-- A bound within the words

namespace Sequence.Walk

def limit (step : Int) : Int := if 0 < step then greatest else least

-- The bound of this walk is the place behind `n` positions, unless that is no word: then it is the
-- last word, and the walk does not come by that word itself.
theorem lt_count_of_clipped {w : Walk} (turning : w.step ≠ 0) (nonempty : 0 < n)
    (fits : ∀ i < n, least ≤ w.item i ∧ w.item i ≤ greatest)
    (stop : w.stop = max least (min greatest (w.item n))) (i : Nat) :
    i < w.count ↔ i < n ∧ w.item i ≠ limit w.step := by
  have last := fits (n - 1) (Nat.sub_lt nonempty Nat.zero_lt_one)
  have behind : Before w.step (w.item (n - 1)) (w.item n) := item_before turning (Nat.sub_lt nonempty Nat.zero_lt_one)
  have word := fits i
  rw [lt_count_iff turning]
  rw [← before_iff_lt turning] at word ⊢
  unfold limit
  by_cases forward : 0 < w.step
  · rw [Before.iff_of_pos forward] at behind word
    rw [Before.iff_of_pos forward,Before.iff_of_pos forward]
    omega
  · have backward : w.step < 0 := by omega
    rw [Before.iff_of_neg backward] at behind word
    rw [Before.iff_of_neg backward,Before.iff_of_neg backward]
    omega

end Sequence.Walk

theorem filter_range_lt {n : Nat} (less : m ≤ n) : (range n).filter (· < m) = range m := by
  obtain ⟨rest,rfl⟩ := Nat.exists_eq_add_of_le less
  have kept : (range m).filter (· < m) = range m := filter_eq_self.mpr fun i among => by simpa using among
  have dropped : ((range rest).map (m + ·)).filter (· < m) = [] := by simp
  rw [range_add,filter_append,kept,dropped,append_nil]

namespace Range

variable {r : Range} {w : Walk} {step : Int64}

def chosen (r : Range) (w : Walk) : List Int64 := w.positions.filterMap r.get?

def limit (r : Range) : Int64 := if 0 < r.step then Int64.maxValue else Int64.minValue

theorem toInt_limit (r : Range) : r.limit.toInt = Walk.limit r.step.toInt := by
  unfold limit Walk.limit
  simp only [pos_iff]
  split <;> rfl

structure Slicing (r : Range) (w : Walk) (step : Int64) : Prop where
  turning : r.step ≠ 0
  moving : w.step ≠ 0
  inside : ∀ i < w.count, 0 ≤ w.item i ∧ w.item i < r.size
  scaled : step.toInt = r.step.toInt * w.step

theorem part_empty (empty : w.count = 0) : r.part w step = ⟨r.start,r.start,step⟩ := by simp only [part,if_pos empty]

namespace Slicing

variable (s : Slicing r w step)

include s

theorem step_ne_zero : step ≠ 0 := fun zero => by
  have scaled := s.scaled
  rw [zero] at scaled
  exact Int.mul_ne_zero (toInt_ne_zero s.turning) s.moving scaled.symm

theorem get?_item (counted : i < w.count) :
    ∃ v, r.get? (w.item i).toNat = some v ∧ v.toInt = r.start.toInt + r.step.toInt * w.item i := by
  have inside := s.inside i counted
  obtain ⟨v,found,place⟩ := exists_get? (i := (w.item i).toNat) s.turning (by omega)
  refine ⟨v,found,?_⟩
  rw [place,walk,Walk.item,Int.toNat_of_nonneg inside.1]

theorem part_eq (nonempty : 0 < w.count) : ∃ first last : Int64, first.toInt = r.start.toInt + r.step.toInt * w.item 0 ∧
      last.toInt = r.start.toInt + r.step.toInt * w.item (w.count - 1) ∧
      r.part w step = ⟨first,Int64.ofInt (max least (min greatest (last.toInt + step.toInt))),step⟩ := by
  obtain ⟨first,found,firstExact⟩ := s.get?_item nonempty
  obtain ⟨last,met,lastExact⟩ := s.get?_item (Nat.sub_lt nonempty Nat.zero_lt_one)
  refine ⟨first,last,firstExact,lastExact,?_⟩
  have counted : w.count ≠ 0 := Nat.ne_of_gt nonempty
  simp only [part,if_neg counted,found,met]

theorem part_step : (r.part w step).step = step := by
  rcases Nat.eq_zero_or_pos w.count with empty | nonempty
  · rw [part_empty empty]
  · obtain ⟨first,last,_,_,same⟩ := s.part_eq nonempty
    rw [same]

theorem part_turning : (r.part w step).step ≠ 0 := by
  rw [s.part_step]
  exact s.step_ne_zero

theorem part_item (nonempty : 0 < w.count) (i : Nat) : (r.part w step).walk.item i = r.start.toInt + r.step.toInt * w.item i := by
  obtain ⟨first,last,exact,_,same⟩ := s.part_eq nonempty
  rw [same]
  simp only [walk,Walk.item,exact,s.scaled,Int.mul_add,Int.mul_assoc]
  omega

theorem part_stop (nonempty : 0 < w.count) : (r.part w step).walk.stop =
      max least (min greatest ((r.part w step).walk.item w.count)) := by
  rw [s.part_item nonempty]
  obtain ⟨first,last,_,exact,same⟩ := s.part_eq nonempty
  have behind : r.start.toInt + r.step.toInt * w.item w.count = last.toInt + step.toInt := by
    rw [← Nat.sub_add_cancel nonempty,Walk.item_succ,exact,s.scaled,Int.mul_add,Int.add_assoc]
  rw [same,behind]
  exact toInt_ofInt (by omega) (by unfold least greatest; omega)

theorem lt_size_part (nonempty : 0 < w.count) (i : Nat) : i < (r.part w step).size ↔
      i < w.count ∧ (r.part w step).walk.item i ≠ (r.part w step).limit.toInt := by
  rw [size_eq_count,toInt_limit]
  refine Walk.lt_count_of_clipped (toInt_ne_zero s.part_turning) nonempty ?_ (s.part_stop nonempty) i
  intro j counted
  obtain ⟨v,_,place⟩ := s.get?_item counted
  rw [s.part_item nonempty,← place]
  exact fits v

theorem chosen_eq_map : r.chosen w = (range w.count).map fun i => Int64.ofInt (r.start.toInt + r.step.toInt * w.item i) := by
  unfold chosen Walk.positions
  rw [filterMap_map,← filterMap_eq_map']
  refine filterMap_congr fun i among => ?_
  obtain ⟨v,found,place⟩ := s.get?_item (mem_range.mp among)
  rw [Function.comp_apply,found,← place,Int64.ofInt_toInt]

-- The part has the chosen elements, save the last word that it could have.
theorem part_elements : (r.part w step).elements = (r.chosen w).filter (· ≠ (r.part w step).limit) := by
  have turned := s.part_turning
  rcases Nat.eq_zero_or_pos w.count with empty | nonempty
  · have nothing : (r.part w step).size = 0 := by
      rw [part_empty empty] at turned ⊢
      exact Nat.eq_zero_of_not_pos (mt (lt_size_iff turned 0).mp (by simp [walk,Before.irrefl]))
    rw [elements_eq_map turned,s.chosen_eq_map,nothing,empty]
    rfl
  · have size := s.lt_size_part nonempty
    have fewer : (r.part w step).size ≤ w.count := Nat.not_lt.mp fun more => Nat.lt_irrefl _ ((size w.count).mp more).1
    rw [elements_eq_map turned,s.chosen_eq_map,← filter_range_lt fewer,filter_map]
    simp only [s.part_item nonempty] at size ⊢
    refine congrArg _ (filter_congr fun i among => ?_)
    have counted := mem_range.mp among
    obtain ⟨v,_,place⟩ := s.get?_item counted
    simp only [Function.comp_apply,size,counted,true_and,← place,Int64.ofInt_toInt,ne_eq,Int64.toInt_inj]

end Slicing

-- An element at either end of the words can only be the first one.
theorem start_of_extreme (turning : r.step ≠ 0) (found : r.get? i = some v)
    (extreme : v.toInt = least ∨ v.toInt = greatest) : r.start = v := by
  have start := fits r.start
  have stop := fits r.stop
  refine Int64.toInt_inj.mp ?_
  rcases step_cases turning with forward | backward
  · have between := get?_forward forward found
    omega
  · have between := get?_backward backward found
    omega

theorem limit_extreme (r : Range) : r.limit.toInt = least ∨ r.limit.toInt = greatest := by
  unfold limit
  split
  · exact .inr rfl
  · exact .inl rfl

theorem start_of_limit_chosen (turning : r.step ≠ 0) (other : Range)
    (lost : other.limit ∈ r.chosen w) : r.start = other.limit := by
  obtain ⟨i,_,found⟩ := mem_filterMap.mp lost
  exact start_of_extreme turning found other.limit_extreme

def sliceWalk (r : Range) (start stop step : Option Int64) : Walk := Sequence.walk r.size start stop (step.getD 1)

theorem slicing_sliceWalk (turning : r.step ≠ 0) (start stop : Option Int64)
    (stepping : stride.getD 1 ≠ 0) (scaled : step.toInt = r.step.toInt * (stride.getD 1).toInt) :
    Slicing r (r.sliceWalk start stop stride) step where
  turning := turning
  moving := by
    rw [sliceWalk,Sequence.walk_eq]
    exact toInt_ne_zero stepping
  inside _ counted := Sequence.walk_inside r.size start stop stepping counted
  scaled := by rw [scaled,sliceWalk,Sequence.walk_eq]

theorem slice_elements (turning : r.step ≠ 0) (f : Int64 → α)
    (start stop : Option Int64) {step} (stepping : step.getD 1 ≠ 0) :
    Sequence.slice (r.elements.map f).toArray start stop step = .ok ((r.chosen (r.sliceWalk start stop step)).map f) := by
  have items (i : Nat) : (r.elements.map f).toArray[i]? = (r.get? i).map f := by
    rw [getElem?_toArray,getElem?_map,getElem?_elements turning]
  have size : (r.elements.map f).toArray.size = r.size := by rw [size_toArray,length_map,length_elements turning]
  have nonzero : ¬ (step.getD 1 == 0) = true := by simpa using stepping
  unfold Sequence.slice Sequence.slicePositions
  rw [size]
  simp only [if_neg nonzero,items,chosen,map_filterMap]
  rfl

end Range

-- Slices of values

theorem sliceBound_done (ran : sliceBound v w = .done bound left) : left = w := by
  unfold sliceBound at ran
  split at ran
  · cases ran
    rfl
  · cases read : Value.asInt? _ with
    | some n =>
      rw [read] at ran
      cases ran
      rfl
    | none =>
      rw [read] at ran
      cases ran

theorem newList_done (items : List Value) (w : World) : ∃ copy after, newList items w = .done (.list copy) after ∧
      after.heap.list copy = items.toArray := by
  refine ⟨⟨w.heap.lists.size⟩,_,rfl,?_⟩
  simp [Heap.list]

theorem sliceRange_done {stop}
    (fits : r.size ≤ greatest) (ran : sliceRange r start stop step w = .done v left) :
    left = w ∧ step.getD 1 ≠ 0 ∧ ∃ product,product.toInt = r.step.toInt * (step.getD 1).toInt ∧
      v = .range (r.part (r.sliceWalk start stop step) product) := by
  have short : ¬ greatest < r.size := Int.not_lt.mpr fits
  unfold sliceRange at ran
  by_cases stepping : step.getD 1 = 0
  · simp only [stepping] at ran
    cases ran
  · simp only [stepping,short,beq_iff_eq] at ran
    cases scaled : mul? r.step (step.getD 1) with
    | none =>
      rw [scaled] at ran
      cases ran
    | some product =>
      rw [scaled] at ran
      cases ran
      exact ⟨rfl,stepping,product,ofInt?_eq_some_iff.mp scaled,rfl⟩

-- The part of a range that a slice gives has the elements that the same slice takes from a list of
-- all elements, in the same order, except for the last word in its direction; that can only be the
-- start of the range.
theorem range_slice_follows_list {k : Engine} {r : Range} {start stop step v : Value}
    {w left : World} {source : Ref .list} (turning : r.step ≠ 0) (fits : r.size ≤ Word.greatest)
    (held : w.heap.list source = (r.elements.map Value.int).toArray)
    (ran : k.sliceValue (.range r) start stop step w = .done v left) :
    ∃ (part : Range) (selected : List Int64) (copy : Ref .list) (after : World),
      v = .range part ∧ left = w ∧ part.step ≠ 0 ∧
      k.sliceValue (.list source) start stop step w = .done (.list copy) after ∧
      after.heap.list copy = (selected.map Value.int).toArray ∧
      part.elements = selected.filter (· ≠ part.limit) ∧
      (part.limit ∈ selected → r.start = part.limit) := by
  obtain ⟨first, before, readFirst, ran⟩ := bind_eq_done ran
  cases sliceBound_done readFirst
  obtain ⟨last, between, readLast, ran⟩ := bind_eq_done ran
  cases sliceBound_done readLast
  obtain ⟨stride, behind, readStride, ran⟩ := bind_eq_done ran
  cases sliceBound_done readStride
  obtain ⟨same, stepping, product, scaled, rfl⟩ := sliceRange_done fits ran
  have slicing := Range.slicing_sliceWalk turning first last stepping scaled
  have taken : heapExcept (fun h => Sequence.slice (h.list source) first last stride) w =
      .done ((r.chosen (r.sliceWalk first last stride)).map Value.int) w := by
    rw [heapExcept, held, Range.slice_elements turning Value.int first last stepping]
    rfl
  obtain ⟨copy, after, made, kept⟩ := newList_done
    ((r.chosen (r.sliceWalk first last stride)).map Value.int) w
  refine ⟨_, r.chosen (r.sliceWalk first last stride), copy, after, rfl, same,
    slicing.part_turning, ?_, kept, slicing.part_elements, Range.start_of_limit_chosen turning _⟩
  exact (bind_done readFirst _).trans ((bind_done readLast _).trans
    ((bind_done readStride _).trans ((bind_done taken _).trans made)))

-- Every second element of a range across the words; the part would end behind the least word.
def wideRange : Range := ⟨Int64.maxValue,Int64.minValue,-0x4000000000000000⟩

def wideWorld : World :=
  { types := ⟨[]⟩, maxDepth := 0
    heap := { lists := #[(wideRange.elements.map Value.int).toArray] } }

theorem range_slice_follows_list_wide :
    ∃ (part : Range) (copy : Ref .list) (after : World),
      (engine 0).sliceValue (.range wideRange) (.int 1) .none (.int 2) wideWorld =
        .done (.range part) wideWorld ∧
      (engine 0).sliceValue (.list ⟨0⟩) (.int 1) .none (.int 2) wideWorld =
        .done (.list copy) after ∧
      after.heap.list copy = (part.elements.map Value.int).toArray := by
  have ran : (engine 0).sliceValue (.range wideRange) (.int 1) .none (.int 2) wideWorld =
      .done (.range ⟨0x3fffffffffffffff, Int64.minValue, Int64.minValue⟩) wideWorld := by
    rfl
  obtain ⟨part, selected, copy, after, made, _, _, listed, kept, elements, edge⟩ :=
    @range_slice_follows_list (engine 0) wideRange _ _ _ _ wideWorld wideWorld ⟨0⟩ (by decide)
      (by decide) rfl ran
  cases made
  have whole : selected.filter
      (· ≠ Range.limit ⟨0x3fffffffffffffff, Int64.minValue, Int64.minValue⟩) = selected :=
    List.filter_eq_self.mpr fun v among => decide_eq_true fun same =>
      absurd (edge (same ▸ among)) (by decide)
  rw [whole] at elements
  exact ⟨_, copy, after, ran, listed, elements ▸ kept⟩

-- A range that starts at the greatest word, backward: the part cannot end behind that word.
theorem range_slice_loses_limit :
    (engine 0).sliceValue (.range ⟨Int64.maxValue, 0x7ffffffffffffffc, -1⟩) .none .none (.int (-1))
        wideWorld = .done (.range ⟨0x7ffffffffffffffd, Int64.maxValue, 1⟩) wideWorld ∧
      Range.elements ⟨0x7ffffffffffffffd, Int64.maxValue, 1⟩ =
        [0x7ffffffffffffffd, 0x7ffffffffffffffe] ∧
      Sequence.slice (Range.elements ⟨Int64.maxValue, 0x7ffffffffffffffc, -1⟩).toArray none none
        (some (-1)) = .ok [0x7ffffffffffffffd, 0x7ffffffffffffffe, Int64.maxValue] := by
  refine ⟨rfl, rfl, rfl⟩

end EmbedScript
