import EmbedScript.Sequence

/-!
A walk comes by as many positions as its closed form says, each once and in order.
-/

namespace EmbedScript.Sequence

open List

def Before (step p q : Int) : Prop := if 0 < step then p < q else q < p

instance (step p q : Int) : Decidable (Before step p q) := inferInstanceAs (Decidable (if 0 < step then p < q else q < p))

namespace Before

theorem iff_of_pos (forward : 0 < step) : Before step p q ↔ p < q := by rw [Before,if_pos forward]

theorem iff_of_neg (backward : step < 0) : Before step p q ↔ q < p := by rw [Before,if_neg (Int.lt_asymm backward)]

theorem trans (first : Before step p q) (second : Before step q r) : Before step p r := by
  unfold Before at *
  split at first
  · rw [if_pos ‹_›] at *
    omega
  · rw [if_neg ‹_›] at *
    omega

theorem irrefl : ¬ Before step p p := by
  unfold Before
  split <;> exact Int.lt_irrefl p

end Before

namespace Walk

variable {w : Walk}

@[simp] theorem item_zero : w.item 0 = w.start := by simp [item]

theorem item_succ (i : Nat) : w.item (i + 1) = w.item i + w.step := by
  simp only [item,Int.natCast_add,Int.natCast_one,Int.mul_add,Int.mul_one,Int.add_assoc]

theorem item_sub_start (i : Nat) : w.item i - w.start = w.step * i := by
  unfold item
  omega

section

variable (turning : w.step ≠ 0)

include turning

theorem item_before (less : i < j) : Before w.step (w.item i) (w.item j) := by
  unfold item
  by_cases forward : 0 < w.step
  · rw [Before.iff_of_pos forward]
    have := Int.mul_lt_mul_of_pos_left (Int.ofNat_lt.mpr less) forward
    omega
  · have backward : w.step < 0 := by omega
    rw [Before.iff_of_neg backward]
    have := Int.mul_lt_mul_of_neg_left (Int.ofNat_lt.mpr less) backward
    omega

theorem not_before_of_le (le : i ≤ j) : ¬ Before w.step (w.item j) (w.item i) := by
  intro earlier
  rcases Nat.eq_or_lt_of_le le with rfl | less
  · exact Before.irrefl earlier
  · exact Before.irrefl ((item_before turning less).trans earlier)

theorem before_iff_lt : Before w.step (w.item i) (w.item j) ↔ i < j :=
  ⟨fun earlier => Nat.not_le.mp fun le => not_before_of_le turning le earlier,item_before turning⟩

-- The number of positions is a quotient rounded up: position `i` is one of them just if `i` whole
-- steps fall short of the bound.
theorem lt_count_iff (i : Nat) : i < w.count ↔ Before w.step (w.item i) w.stop := by
  have stride : 0 < w.step.natAbs := Int.natAbs_pos.mpr turning
  have covered : i < w.count ↔ i * w.step.natAbs < (if 0 < w.step then w.stop - w.start else w.start - w.stop).toNat := by
    unfold count
    rw [← Nat.succ_le_iff,Nat.le_div_iff_mul_le stride,Nat.succ_mul]
    omega
  unfold Before item
  by_cases forward : 0 < w.step
  · have reach : ((i * w.step.natAbs : Nat)) = w.step * i := by
      rw [Int.natCast_mul,Int.natAbs_of_nonneg (Int.le_of_lt forward),Int.mul_comm]
    simp only [if_pos forward]
    omega
  · have reach : ((i * w.step.natAbs : Nat)) = -(w.step * i) := by
      rw [Int.natCast_mul,Int.ofNat_natAbs_of_nonpos (Int.not_lt.mp forward),Int.mul_neg,Int.mul_comm]
    simp only [if_neg forward]
    omega

end

theorem item_forward (forward : 0 < w.step) (counted : i < w.count) : w.start ≤ w.item i ∧ w.item i < w.stop := by
  have short := (lt_count_iff (Int.ne_of_gt forward) i).mp counted
  rw [Before.iff_of_pos forward] at short
  have reach : 0 ≤ w.step * i := Int.mul_nonneg (Int.le_of_lt forward) (Int.natCast_nonneg i)
  refine ⟨?_,short⟩
  unfold item
  omega

theorem item_backward (backward : w.step < 0) (counted : i < w.count) : w.stop < w.item i ∧ w.item i ≤ w.start := by
  have short := (lt_count_iff (Int.ne_of_lt backward) i).mp counted
  rw [Before.iff_of_neg backward] at short
  have reach : w.step * i ≤ 0 := Int.mul_nonpos_of_nonpos_of_nonneg (Int.le_of_lt backward) (Int.natCast_nonneg i)
  refine ⟨short,?_⟩
  unfold item
  omega

theorem getElem?_positions (i : Nat) : w.positions[i]? = if i < w.count then some (w.item i).toNat else none := by
  unfold positions
  rw [getElem?_map]
  by_cases counted : i < w.count
  · rw [if_pos counted,getElem?_range counted]
    rfl
  · rw [if_neg counted,getElem?_eq_none (by simpa using counted)]
    rfl

-- One step

def next (w : Walk) : Walk := { w with start := w.start + w.step }

theorem item_next (i : Nat) : w.next.item i = w.item (i + 1) := by
  rw [item_succ]
  exact Int.add_right_comm ..

section

variable (turning : w.step ≠ 0)

include turning

theorem count_eq_zero (past : ¬ Before w.step w.start w.stop) : w.count = 0 := by
  have nothing : ¬ 0 < w.count := by rwa [lt_count_iff turning,item_zero]
  omega

theorem count_eq_succ (ahead : Before w.step w.start w.stop) : w.count = w.next.count + 1 := by
  have same (i : Nat) : i < w.count ↔ i < w.next.count + 1 := by
    cases i with
    | zero =>
      rw [lt_count_iff turning,item_zero]
      exact iff_of_true ahead (Nat.succ_pos _)
    | succ i =>
      have shifted : i < w.next.count ↔ Before w.step (w.next.item i) w.stop := lt_count_iff (w := w.next) turning i
      rw [lt_count_iff turning,← item_next,Nat.succ_lt_succ_iff,shifted]
  have short := same w.count
  have long := same (w.next.count + 1)
  omega

theorem positions_nil (past : ¬ Before w.step w.start w.stop) : w.positions = [] := by
  rw [positions,count_eq_zero turning past]
  rfl

theorem positions_cons (ahead : Before w.step w.start w.stop) : w.positions = w.start.toNat :: w.next.positions := by
  have shifted : (fun i => (w.item i).toNat) ∘ Nat.succ = fun i => (w.next.item i).toNat :=
    funext fun i => congrArg Int.toNat (item_next i).symm
  rw [positions,count_eq_succ turning ahead,range_succ_eq_map,map_cons,map_map,item_zero,shifted]
  rfl

end

end Walk

end EmbedScript.Sequence
