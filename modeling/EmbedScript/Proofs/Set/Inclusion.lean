import EmbedScript.Proofs.Order.Comparison

/-!
Sets are ordered by inclusion. Of two that do not include each other no comparison is answered.
-/

namespace EmbedScript

open Exec OrderedMap List

structure ValueSet.Kept (s : ValueSet) : Prop where
  hashed : ∀ m ∈ s.toList, HashKey.ofValue m.2 = .ok m.1
  distinct : s.keys.Nodup

theorem OrderedMap.within_iff [BEq κ] [LawfulBEq κ] (m other : OrderedMap κ α) :
    m.within other = true ↔ m.keys ⊆ other.keys := by
  rw [within,← Array.all_toList,all_eq_true]
  simp only [contains_iff_mem_keys]
  exact forall_mem_map.symm

theorem ValueSet.exists_order {s : ValueSet} (either : s.within t = true ∨ t.within s = true) :
    ∃ o, s.order t = some o ∧ (o ≠ .gt ↔ s.within t = true) ∧ (o ≠ .lt ↔ t.within s = true) := by
  rw [order]
  cases within : s.within t with
  | true =>
    cases back : t.within s with
    | true => exact ⟨.eq,rfl,by simp,by simp⟩
    | false => exact ⟨.lt,rfl,by simp,by simp⟩
  | false =>
    cases back : t.within s with
    | true => exact ⟨.gt,rfl,by simp,by simp⟩
    | false => simp [within,back] at either

namespace Engine

def Includes (k : Engine) (w : World) (outer inner : Ref .set) : Prop :=
  ∀ v ∈ (w.heap.set inner).values, k.contains (.set outer) v w = .done true w

def Says (k : Engine) (w : World) (op : BinaryOp) (a b : Value) (p : Prop) : Prop :=
  ∃ answer, k.binary op a b w = .done (.bool answer) w ∧ (answer = true ↔ p)

variable {k : Engine} {w : World} {r s : Ref .set}

theorem contains_set {hash} (hashed : HashKey.ofValue v = .ok hash) :
    k.contains (.set r) v w = .done ((w.heap.set r).contains hash) w := by
  change ofExcept ((w.heap.set r).has v) w = _
  rw [ValueSet.has,hashed]
  rfl

theorem includes_iff (kept : (w.heap.set r).Kept) : k.Includes w s r ↔ (w.heap.set r).within (w.heap.set s) = true := by
  have mem (m : HashKey × Value) (here : m ∈ (w.heap.set r).toList) :
      k.contains (.set s) m.2 w = .done true w ↔ m.1 ∈ (w.heap.set s).keys := by
    rw [contains_set (kept.hashed m here),← contains_iff_mem_keys]
    simp
  rw [within_iff]
  constructor
  · intro included hash found
    obtain ⟨m,here,rfl⟩ := mem_map.mp found
    exact (mem m here).mp (included m.2 (mem_map_of_mem here))
  · intro within v found
    obtain ⟨m,here,rfl⟩ := mem_map.mp found
    exact (mem m here).mpr (within (mem_map_of_mem here))

theorem equals_sets (left : (w.heap.set r).Kept) (right : (w.heap.set s).Kept) :
    (k.equals (.set r) (.set s)).Tells w (k.Includes w s r ∧ k.Includes w r s) := by
  refine ⟨r == s || (w.heap.set r).sameKeys (w.heap.set s),rfl,?_⟩
  rw [includes_iff left,includes_iff right,within_iff,within_iff,
    Bool.or_eq_true,sameKeys_iff left.distinct right.distinct,or_iff_right_of_imp]
  intro same
  cases eq_of_beq same
  exact ⟨fun _ => id,fun _ => id⟩

section Comparing

variable (left : (w.heap.set r).Kept) (right : (w.heap.set s).Kept)
  (silent : ∀ op : BinaryOp, w.extensions.get? "set" op.hook = none)
include left right silent

theorem says_differ : k.Says w .ne (.set r) (.set s) (¬ (k.Includes w s r ∧ k.Includes w r s)) := by
  obtain ⟨same,equal,told⟩ := equals_sets left right
  refine ⟨!same,?_,?_⟩
  · rw [binary_silent .ne rfl rfl (silent .ne)]
    exact settled_ne equal
  · rw [← told]
    simp

theorem differ_iff : k.binary .ne (.set r) (.set s) w = .done (.bool true) w ↔ ¬ (k.Includes w s r ∧ k.Includes w r s) := by
  obtain ⟨answer,ran,told⟩ := says_differ left right silent
  rw [ran,← told]
  simp

theorem says_of_either (op : BinaryOp) (comparing : op ∈ [BinaryOp.lt,.le,.gt,.ge])
    (either : k.Includes w s r ∨ k.Includes w r s) :
    ∃ o, k.Says w op (.set r) (.set s) (op.holds o = true) ∧ (o ≠ .gt ↔ k.Includes w s r) ∧ (o ≠ .lt ↔ k.Includes w r s) := by
  rw [includes_iff left,includes_iff right] at *
  obtain ⟨o,ordered,up,down⟩ := ValueSet.exists_order either
  have order : k.order (.set r) (.set s) w = .done (some o) w := by
    rw [← ordered]
    rfl
  refine ⟨o,⟨op.holds o,?_,Iff.rfl⟩,up,down⟩
  rw [binary_silent op rfl rfl (silent op)]
  exact settled_order comparing order

theorem binary_apart (comparing : op ∈ [BinaryOp.lt,.le,.gt,.ge])
    (outside : ¬ k.Includes w s r) (back : ¬ k.Includes w r s) :
    k.binary op (.set r) (.set s) w = fail (.type s!"'{op.symbol}' not supported between instances of 'set' and 'set'") w := by
  rw [includes_iff left,Bool.not_eq_true] at outside
  rw [includes_iff right,Bool.not_eq_true] at back
  have order : k.order (.set r) (.set s) w = .done none w := by
    have none : (w.heap.set r).order (w.heap.set s) = .none := by rw [ValueSet.order,outside,back]
    rw [← none]
    rfl
  rw [binary_silent op rfl rfl (silent op),settled_unordered comparing order]
  simp only [String.append_assoc]
  rfl

end Comparing

end Engine

structure SetComparison (k : Engine) (w : World) (r s : Ref .set) : Prop where
  subset : ∃ answer, k.performSet .isSubset (.set r) [.set s] w = .done (.bool answer) w ∧
    (answer = true ↔ k.Includes w s r)
  differ : k.Says w .ne (.set r) (.set s) (¬ (k.Includes w s r ∧ k.Includes w r s))
  le : k.Includes w s r ∨ k.Includes w r s → k.Says w .le (.set r) (.set s) (k.Includes w s r)
  lt : k.Includes w s r ∨ k.Includes w r s → k.Says w .lt (.set r) (.set s)
    (k.Includes w s r ∧ k.binary .ne (.set r) (.set s) w = .done (.bool true) w)
  ge : k.Includes w s r ∨ k.Includes w r s → k.Says w .ge (.set r) (.set s) (k.Includes w r s)
  gt : k.Includes w s r ∨ k.Includes w r s → k.Says w .gt (.set r) (.set s)
    (k.Includes w r s ∧ k.binary .ne (.set r) (.set s) w = .done (.bool true) w)
  apart : ¬ k.Includes w s r → ¬ k.Includes w r s → ∀ op ∈ [BinaryOp.lt,.le,.gt,.ge],
    k.binary op (.set r) (.set s) w =
      fail (.type s!"'{op.symbol}' not supported between instances of 'set' and 'set'") w

theorem set_comparison {k : Engine} {w : World} {r s : Ref .set} (left : (w.heap.set r).Kept)
    (right : (w.heap.set s).Kept)
    (silent : ∀ op : BinaryOp, w.extensions.get? "set" op.hook = none) : SetComparison k w r s where
  subset := ⟨_, rfl, (Engine.includes_iff left).symm⟩
  differ := Engine.says_differ left right silent
  le either := by
    obtain ⟨o, ⟨answer, ran, told⟩, up, _⟩ :=
      Engine.says_of_either left right silent .le (by simp) either
    refine ⟨answer, ran, told.trans (Iff.trans ?_ up)⟩
    simp [BinaryOp.holds]
  lt either := by
    obtain ⟨o, ⟨answer, ran, told⟩, up, down⟩ :=
      Engine.says_of_either left right silent .lt (by simp) either
    refine ⟨answer, ran, told.trans ?_⟩
    rw [Engine.differ_iff left right silent, ← up, ← down]
    cases o <;> simp [BinaryOp.holds]
  ge either := by
    obtain ⟨o, ⟨answer, ran, told⟩, _, down⟩ :=
      Engine.says_of_either left right silent .ge (by simp) either
    refine ⟨answer, ran, told.trans (Iff.trans ?_ down)⟩
    simp [BinaryOp.holds]
  gt either := by
    obtain ⟨o, ⟨answer, ran, told⟩, up, down⟩ :=
      Engine.says_of_either left right silent .gt (by simp) either
    refine ⟨answer, ran, told.trans ?_⟩
    rw [Engine.differ_iff left right silent, ← up, ← down]
    cases o <;> simp [BinaryOp.holds]
  apart outside back op comparing :=
    Engine.binary_apart left right silent comparing outside back

-- The sets {1}, {1, 2} and {3}.
def threeSets : World := { World.blank with
    heap := { sets := #[⟨#[(.atom (.int 1),.int 1)]⟩,⟨#[(.atom (.int 1),.int 1),(.atom (.int 2),.int 2)]⟩,
          ⟨#[(.atom (.int 3),.int 3)]⟩] } }

theorem threeSets_kept (i : Nat) : (threeSets.heap.set ⟨i⟩).Kept := by
  rcases i with _ | _ | _ | i
  case succ.succ.succ => exact ⟨nofun,.nil⟩
  all_goals exact ⟨by simp [threeSets,Heap.set,toList,HashKey.ofValue],by decide⟩

theorem threeSets_includes : (engine 0).Includes threeSets ⟨1⟩ ⟨0⟩ :=
  (Engine.includes_iff (threeSets_kept 0)).mpr ((within_iff ..).mpr (by decide))

theorem set_comparison_threeSets :
    (∀ i, (threeSets.heap.set ⟨i⟩).Kept) ∧ (engine 0).Includes threeSets ⟨1⟩ ⟨0⟩ ∧
      (engine 0).Says threeSets .lt (.set ⟨0⟩) (.set ⟨1⟩)
        ((engine 0).Includes threeSets ⟨1⟩ ⟨0⟩ ∧
          (engine 0).binary .ne (.set ⟨0⟩) (.set ⟨1⟩) threeSets = .done (.bool true) threeSets) ∧
      (engine 0).Says threeSets .ge (.set ⟨0⟩) (.set ⟨1⟩)
        ((engine 0).Includes threeSets ⟨0⟩ ⟨1⟩) := by
  have comparison := set_comparison (k := engine 0) (threeSets_kept 0) (threeSets_kept 1) fun _ => rfl
  exact ⟨threeSets_kept, threeSets_includes, comparison.lt (.inl threeSets_includes),
    comparison.ge (.inl threeSets_includes)⟩

-- {1} is no subset of {3}, but the operator refuses to say so.
theorem sets_apart_refused :
    (engine 0).performSet .isSubset (.set ⟨0⟩) [.set ⟨2⟩] threeSets = .done (.bool false) threeSets ∧
      (engine 0).binary .le (.set ⟨0⟩) (.set ⟨2⟩) threeSets =
        .fault (.type "'<=' not supported between instances of 'set' and 'set'")
          { threeSets with
            raised := some (.type "'<=' not supported between instances of 'set' and 'set'", []) } := by
  constructor
  · with_unfolding_all rfl
  · with_unfolding_all rfl

end EmbedScript
