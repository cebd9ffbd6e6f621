import EmbedScript.Proofs.Number.Word
import EmbedScript.Proofs.Sequence.Walk

/-!
A slice selects the positions from its first bound on, in equal steps, that come before the second.
The same selection is made step by step in words, none of which is refused.
-/

namespace EmbedScript.Sequence

open Word List Option

def nearest (low high b : Int) : Int := if b < low then low else if high < b then high else b

def boundAt (size : Nat) (low high missing : Int) : Option Int64 → Int
  | none => missing
  | some b => nearest low high (if b.toInt < 0 then size + b.toInt else b.toInt)

-- A slice that goes forward starts at the front and ends behind the last item; one that goes
-- backward starts at the last item and ends before the front.
def sliceStart (size : Nat) (step : Int64) : Option Int64 → Int :=
  if 0 < step then boundAt size 0 size 0 else boundAt size (-1) (size - 1) (size - 1)

def sliceStop (size : Nat) (step : Int64) : Option Int64 → Int :=
  if 0 < step then boundAt size 0 size size else boundAt size (-1) (size - 1) (-1)

theorem nearest_eq (sorted : low ≤ high) (b : Int) : nearest low high b = max low (min high b) := by
  unfold nearest
  all_goals omega

theorem nearest_inside (sorted : low ≤ high) (b : Int) : low ≤ nearest low high b ∧ nearest low high b ≤ high := by
  rw [nearest_eq sorted]
  omega

theorem boundAt_inside (size : Nat) (sorted : low ≤ high)
    (inside : low ≤ missing ∧ missing ≤ high) (bound : Option Int64) :
    low ≤ boundAt size low high missing bound ∧ boundAt size low high missing bound ≤ high := by
  cases bound with
  | none => exact inside
  | some b => exact nearest_inside sorted _

theorem clampBound_getD (size : Nat) (sorted : low ≤ high) (missing : Int) (bound : Option Int64) :
    (bound.map (clampBound size low high)).getD missing = boundAt size low high missing bound := by
  cases bound with
  | none => rfl
  | some b => simp only [map_some,getD_some,clampBound,boundAt,nearest_eq sorted,neg_iff,Int.add_comm]

theorem walk_eq (size : Nat) (start stop : Option Int64) (step : Int64) : walk size start stop step =
      ⟨sliceStart size step start,sliceStop size step stop,step.toInt⟩ := by
  unfold walk sliceStart sliceStop
  have forward : (0 : Int) ≤ size := Int.natCast_nonneg size
  have backward : (-1 : Int) ≤ size - 1 := by omega
  split
  · rw [clampBound_getD size forward,clampBound_getD size forward]
  · rw [clampBound_getD size backward,clampBound_getD size backward]

structure Selects (size : Nat) (start stop : Option Int64) (step : Int64) (positions : List Nat) :
    Prop where
  visited : ∀ i : Nat, positions[i]?.map Int.ofNat =
    if Before step.toInt (sliceStart size step start + step.toInt * i) (sliceStop size step stop)
    then some (sliceStart size step start + step.toInt * i)
    else none
  inside : ∀ p ∈ positions, p < size
  ordered : positions.Pairwise fun p q => if 0 < step then p < q else q < p

section

variable (size : Nat) (start stop : Option Int64) {step : Int64}

theorem walk_item (i : Nat) : (walk size start stop step).item i = sliceStart size step start + step.toInt * i := by
  rw [walk_eq,Walk.item]

section

variable (turning : step ≠ 0)

include turning

theorem lt_count_walk_iff (i : Nat) : i < (walk size start stop step).count ↔
      Before step.toInt (sliceStart size step start + step.toInt * i) (sliceStop size step stop) := by
  rw [walk_eq]
  exact Walk.lt_count_iff (toInt_ne_zero turning) i

theorem walk_inside (counted : i < (walk size start stop step).count) :
    0 ≤ (walk size start stop step).item i ∧ (walk size start stop step).item i < size := by
  rw [walk_eq] at counted ⊢
  by_cases forward : 0 < step
  · have between := Walk.item_forward (pos_iff.mp forward) counted
    have sorted : (0 : Int) ≤ size := Int.natCast_nonneg size
    have first := boundAt_inside size sorted ⟨Int.le_refl 0,sorted⟩ start
    have last := boundAt_inside size sorted ⟨sorted,Int.le_refl size⟩ stop
    simp only [sliceStart,sliceStop,if_pos forward] at between ⊢
    omega
  · have backward : step.toInt < 0 := by
      have := toInt_ne_zero turning
      rw [pos_iff] at forward
      omega
    have between := Walk.item_backward backward counted
    have sorted : (-1 : Int) ≤ size - 1 := by omega
    have first := boundAt_inside size sorted ⟨sorted,Int.le_refl (size - 1)⟩ start
    have last := boundAt_inside size sorted ⟨Int.le_refl (-1),sorted⟩ stop
    simp only [sliceStart,sliceStop,if_neg forward] at between ⊢
    omega

theorem mem_positions_walk (among : p ∈ (walk size start stop step).positions) : p < size := by
  obtain ⟨i,counted,rfl⟩ := mem_map.mp among
  have inside := walk_inside size start stop turning (mem_range.mp counted)
  omega

theorem ordered_positions_walk : (walk size start stop step).positions.Pairwise fun p q =>
      if 0 < step then p < q else q < p := by
  unfold Walk.positions
  rw [pairwise_map]
  refine pairwise_lt_range.imp_of_mem ?_
  intro i j first second less
  have before := walk_inside size start stop turning (mem_range.mp first)
  have behind := walk_inside size start stop turning (mem_range.mp second)
  have order : Before step.toInt ((walk size start stop step).item i) ((walk size start stop step).item j) := by
    rw [walk_eq]
    exact Walk.item_before (w := ⟨_,_,step.toInt⟩) (toInt_ne_zero turning) less
  unfold Before at order
  simp only [pos_iff]
  split
  · rw [if_pos ‹_›] at order
    omega
  · rw [if_neg ‹_›] at order
    omega

theorem walk_selects : Selects size start stop step (walk size start stop step).positions where
  visited i := by
    rw [Walk.getElem?_positions]
    by_cases counted : i < (walk size start stop step).count
    · have inside := walk_inside size start stop turning counted
      rw [if_pos counted,if_pos ((lt_count_walk_iff size start stop turning i).mp counted),← walk_item size start stop]
      exact congrArg some (Int.toNat_of_nonneg inside.1)
    · rw [if_neg counted,if_neg (mt (lt_count_walk_iff size start stop turning i).mpr counted)]
      rfl
  inside _ among := mem_positions_walk size start stop turning among
  ordered := ordered_positions_walk size start stop turning

end

end

-- In words

namespace Words

variable {size : Nat} {start stop : Option Int64} {length : Int64}

def nearest? (low high b : Int64) : Option Int64 :=
  if high < low then none else some (if b < low then low else if high < b then high else b)

def bound? (length low high b : Int64) : Option Int64 := (if b < 0 then add? b length else some b).bind (nearest? low high)

-- A walk that is over where its next position is no word.
def visit (stop step index : Int64) : List Int64 :=
  if _ahead : step ≠ 0 ∧ Before step.toInt index.toInt stop.toInt then
    match _moved : add? index step with
    | some next => index :: visit stop step next
    | none => [index]
  else []
termination_by (if 0 < step.toInt then stop.toInt - index.toInt else index.toInt - stop.toInt).toNat
decreasing_by
  have sum := ofInt?_eq_some_iff.mp _moved
  have turning := toInt_ne_zero _ahead.1
  have before := _ahead.2
  unfold Before at before
  split at before
  · omega
  · omega

def between? (length low high near far : Int64) (start stop : Option Int64) (step : Int64) : Option (List Nat) := do
  let first ← start.elim (some near) (bound? length low high)
  let last ← stop.elim (some far) (bound? length low high)
  return (visit last step first).map (·.toInt.toNat)

def positions? (size : Nat) (start stop : Option Int64) (step : Int64) : Option (List Nat) := do
  let length ← ofInt? size
  if 0 < step then between? length 0 length 0 length start stop step
  else
    let top ← sub? length 1
    between? length (-1) top top (-1) start stop step

theorem nearest?_eq (sorted : low.toInt ≤ high.toInt) (b : Int64) :
    ∃ v, nearest? low high b = some v ∧ v.toInt = nearest low.toInt high.toInt b.toInt := by
  unfold nearest? nearest
  simp only [Int64.lt_iff_toInt_lt]
  rw [if_neg (Int.not_lt.mpr sorted)]
  refine ⟨_,rfl,?_⟩
  repeat' split
  all_goals rfl

-- A bound below zero is no lower than the least word, and the length takes it no further than
-- the length itself goes.
theorem bound?_eq (measured : length.toInt = size) (sorted : low.toInt ≤ high.toInt) (missing : Int64) (bound : Option Int64) :
    ∃ v, bound.elim (some missing) (bound? length low high) = some v ∧
      v.toInt = boundAt size low.toInt high.toInt missing.toInt bound := by
  cases bound with
  | none => exact ⟨missing,rfl,rfl⟩
  | some b =>
    simp only [elim_some,bound?,boundAt,neg_iff]
    by_cases negative : b.toInt < 0
    · have given := fits b
      have whole := fits length
      obtain ⟨sum,added,exact⟩ : ∃ sum, add? b length = some sum ∧ sum.toInt = b.toInt + length.toInt :=
        exists_ofInt? (by omega) (by omega)
      rw [if_pos negative,if_pos negative,added,← measured,Int.add_comm,← exact]
      exact nearest?_eq sorted sum
    · rw [if_neg negative,if_neg negative]
      exact nearest?_eq sorted b

-- Where the next position is no word it lies behind every bound that is one.
theorem visit_eq (turning : stride ≠ 0) (last first : Int64) : (visit last stride first).map (·.toInt.toNat) =
      Walk.positions ⟨first.toInt,last.toInt,stride.toInt⟩ := by
  have steps := toInt_ne_zero turning
  fun_induction visit last stride first with
  | case1 index ahead next moved ih =>
    have rest := Walk.positions_cons (w := ⟨index.toInt,last.toInt,stride.toInt⟩) steps ahead.2
    have sum : next.toInt = index.toInt + stride.toInt := ofInt?_eq_some_iff.mp moved
    rw [rest,map_cons,ih,sum]
    rfl
  | case2 index ahead stuck =>
    have rest := Walk.positions_cons (w := ⟨index.toInt,last.toInt,stride.toInt⟩) steps ahead.2
    have past : ¬ Before stride.toInt (index.toInt + stride.toInt) last.toInt := by
      have outside := ofInt?_eq_none_iff.mp stuck
      have bound := fits last
      have here := fits index
      unfold Before
      split <;> omega
    have ended : (Walk.next ⟨index.toInt,last.toInt,stride.toInt⟩).positions = [] := Walk.positions_nil steps past
    rw [rest,ended]
    rfl
  | case3 index past =>
    rw [Walk.positions_nil steps fun ahead => past ⟨turning,ahead⟩]
    rfl

theorem between?_eq (measured : length.toInt = size) (sorted : low.toInt ≤ high.toInt) (turning : stride ≠ 0) (near far : Int64) :
    between? length low high near far start stop stride = some (Walk.positions
      ⟨boundAt size low.toInt high.toInt near.toInt start,boundAt size low.toInt high.toInt far.toInt stop,stride.toInt⟩) := by
  obtain ⟨first,found,firstExact⟩ := bound?_eq measured sorted near start
  obtain ⟨last,met,lastExact⟩ := bound?_eq measured sorted far stop
  unfold between?
  rw [found,met,← firstExact,← lastExact,← visit_eq turning]
  rfl

theorem positions?_eq (short : size ≤ greatest) (turning : stride ≠ 0) :
    positions? size start stop stride = some (walk size start stop stride).positions := by
  obtain ⟨length,measured,exact⟩ := exists_ofInt? (by unfold least; omega) short
  rw [positions?,measured,walk_eq]
  simp only [bind_eq_bind,bind_some,sliceStart,sliceStop]
  by_cases forward : 0 < stride
  · have sorted : (0 : Int64).toInt ≤ length.toInt := by
      rw [exact]
      exact Int.natCast_nonneg size
    simp only [if_pos forward]
    rw [between?_eq exact sorted turning,exact]
    rfl
  · obtain ⟨top,lowered,topExact⟩ : ∃ top, sub? length 1 = some top ∧ top.toInt = length.toInt - 1 :=
      exists_ofInt? (by change least ≤ length.toInt - 1; unfold least; omega) (by change length.toInt - 1 ≤ greatest; omega)
    have sorted : (-1 : Int64).toInt ≤ top.toInt := by
      change -1 ≤ top.toInt
      omega
    simp only [if_neg forward]
    rw [lowered,bind_some,between?_eq exact sorted turning,topExact,exact]
    rfl

end Words

-- For every sequence whose length is a word and every step but zero, the positions are those of
-- the slice, and none of the sums and differences on the way to them leaves the words.
theorem slicePositions_selects {size : Nat} (short : size ≤ Word.greatest)
    (start stop step : Option Int64) (turning : step ≠ some 0) :
    ∃ positions, slicePositions size start stop step = .ok positions ∧
      Selects size start stop (step.getD 1) positions ∧
      Words.positions? size start stop (step.getD 1) = some positions := by
  have stepping : step.getD 1 ≠ 0 := by
    cases step with
    | none => decide
    | some n => exact fun same => turning (congrArg some same)
  refine ⟨(walk size start stop (step.getD 1)).positions, ?_, walk_selects _ _ _ stepping,
    Words.positions?_eq short stepping⟩
  unfold slicePositions
  rw [if_neg (by simpa using stepping)]

theorem slicePositions_selects_limits :
    slicePositions 0x7fffffffffffffff (some Int64.minValue) (some Int64.maxValue)
        (some 0x7ffffffffffffffe) = .ok [0, 0x7ffffffffffffffe] ∧
      Selects 0x7fffffffffffffff (some Int64.minValue) (some Int64.maxValue) 0x7ffffffffffffffe
        [0, 0x7ffffffffffffffe] ∧
      Words.positions? 0x7fffffffffffffff (some Int64.minValue) (some Int64.maxValue)
        0x7ffffffffffffffe = some [0, 0x7ffffffffffffffe] := by
  have found : slicePositions 0x7fffffffffffffff (some Int64.minValue) (some Int64.maxValue)
      (some 0x7ffffffffffffffe) = .ok [0, 0x7ffffffffffffffe] := by
    rfl
  obtain ⟨positions, same, selects, inWords⟩ :=
    @slicePositions_selects 0x7fffffffffffffff (Int.le_refl _) (some Int64.minValue)
      (some Int64.maxValue) (some 0x7ffffffffffffffe) (by decide)
  cases Except.ok.inj (same.symm.trans found)
  exact ⟨found, selects, inWords⟩

end EmbedScript.Sequence
