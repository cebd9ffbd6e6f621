import EmbedScript.Interpreter
import EmbedScript.Proofs.Dict.Key
import EmbedScript.Proofs.OrderedMap

/-!
What keys keep apart: unequal values, unless they differ in their ranges alone.
-/

namespace EmbedScript

open Exec List OrderedMap HashKey

namespace OrderedMap

variable [BEq κ] [LawfulBEq κ]

theorem lookup_assign (key : κ) (value : α) (entries : List (κ × α)) : (assign key value entries).lookup key = some value := by
  induction entries with
  | nil => simp [assign]
  | cons e entries ih =>
    rw [assign]
    by_cases same : e.1 == key
    · rw [if_pos same,lookup_cons,BEq.comm,same]
    · have passed : (key == e.1) = false := by
        rw [BEq.comm]
        exact Bool.eq_false_iff.mpr same
      rw [if_neg same,lookup_cons,passed]
      exact ih

theorem get?_insert [DecidableEq κ] (m : OrderedMap κ α) (key other : κ) (value : α) :
    (m.insert key value).get? other = if key = other then some value else m.get? other := by
  by_cases same : key = other
  · subst same
    rw [if_pos rfl,get?_eq_lookup,toList_insert]
    exact lookup_assign ..
  · rw [if_neg same]
    exact get?_insert_of_ne same value

end OrderedMap

theorem Dict.get?_insertAt (d : Dict) (hash other : HashKey) (key value : Value) :
    ((d.insertAt hash key value).entries.get? other).map (·.2) =
      if hash = other then some value else (d.entries.get? other).map (·.2) := by
  unfold insertAt
  cases d.entries.get? hash with
  | some entry =>
    rw [get?_insert]
    split <;> rfl
  | none =>
    rw [get?_insert]
    split <;> rfl

variable {k : Engine} {w : World} {a b : Value} {h g : HashKey}

theorem Dict.get?_insert (first : ofValue a = .ok h) (second : ofValue b = .ok g) (d : Dict) (value : Value) :
    ∃ written, d.insert a value = .ok written ∧ written.get? b = if h = g then .ok (some value) else d.get? b := by
  refine ⟨d.insertAt h a value,?_,?_⟩
  · rw [insert,first]
    rfl
  · have found : (d.insertAt h a value).get? b = .ok (((d.insertAt h a value).entries.get? g).map (·.2)) := by
      rw [get?,second]
      rfl
    have before : d.get? b = .ok ((d.entries.get? g).map (·.2)) := by
      rw [get?,second]
      rfl
    rw [found,before,get?_insertAt]
    split <;> rfl

theorem ValueSet.has_add (first : ofValue a = .ok h) (second : ofValue b = .ok g) (s : ValueSet) :
    ∃ grown, s.add a = .ok grown ∧ grown.has b = if h = g then .ok true else s.has b := by
  refine ⟨s.insert h a,?_,?_⟩
  · rw [add,first]
    rfl
  · have found : ValueSet.has (s.insert h a) b = .ok ((s.insert h a).contains g) := by
      rw [has,second]
      rfl
    have before : s.has b = .ok (s.contains g) := by
      rw [has,second]
      rfl
    rw [found,before,contains_eq_isSome,contains_eq_isSome,get?_insert]
    split <;> rfl

-- Hash keys are the same for equal values and for those that differ in their ranges alone; what
-- shares a hash key shares its entry in a dict and its place in a set.
theorem hash_keys_separate (left : a.IsFixed) (right : b.IsFixed) (enough : a.height ≤ k.fuel) :
    ∃ h g same, HashKey.ofValue a = .ok h ∧ HashKey.ofValue b = .ok g ∧
      k.equals a b w = .done same w ∧
      (same = true ↔ h = g ∧ a.sameRanges b = true) ∧
      (∀ (d : Dict) (value : Value), ∃ written, d.insert a value = .ok written ∧
        written.get? b = if h = g then .ok (some value) else d.get? b) ∧
      (∀ s : ValueSet, ∃ grown, s.add a = .ok grown ∧
        grown.has b = if h = g then .ok true else s.has b) := by
  obtain ⟨h, first⟩ := HashKey.exists_ofValue a left.mutable?_eq_none
  obtain ⟨g, second⟩ := HashKey.exists_ofValue b right.mutable?_eq_none
  refine ⟨h, g, a.matched b, first, second, Engine.equals_fixed left right enough,
    HashKey.matched_iff left right first second, ?_, ?_⟩
  · intro d value
    exact Dict.get?_insert first second d value
  · intro s
    exact ValueSet.has_add first second s

def pairedRange (first : Value) (stop : Int64) : Value := .tuple 0 [first,.tuple 1 [.range ⟨0,stop,1⟩,.str "a"]]

theorem pairedRange_fixed (fixed : first.IsFixed) (stop : Int64) : (pairedRange first stop).IsFixed := by
  have inner : (Value.tuple 1 [.range ⟨0,stop,1⟩,.str "a"]).IsFixed :=
    .tuple 1 (forall_mem_cons.mpr ⟨.range _,forall_mem_singleton.mpr (.str _)⟩)
  exact .tuple 0 (forall_mem_cons.mpr ⟨fixed,forall_mem_singleton.mpr inner⟩)

theorem hash_keys_separate_paired :
    ∃ h g same, HashKey.ofValue (pairedRange (.bool true) 3) = .ok h ∧
      HashKey.ofValue (pairedRange (.int 1) 3) = .ok g ∧
      (engine 3).equals (pairedRange (.bool true) 3) (pairedRange (.int 1) 3)
        { types := ⟨[]⟩, maxDepth := 0 } = .done same { types := ⟨[]⟩, maxDepth := 0 } ∧
      same = true ∧ h = g := by
  have separate := @hash_keys_separate (engine 3) { types := ⟨[]⟩, maxDepth := 0 } _ _
    (pairedRange_fixed (.bool true) 3) (pairedRange_fixed (.int 1) 3) (by decide)
  obtain ⟨h, g, same, first, second, equal, told, _⟩ := separate
  have shared : h = g := by
    have keys : HashKey.ofValue (pairedRange (.bool true) 3) =
        HashKey.ofValue (pairedRange (.int 1) 3) := rfl
    exact Except.ok.inj (first.symm.trans (keys.trans second))
  exact ⟨h, g, same, first, second, equal, told.mpr ⟨shared, rfl⟩, shared⟩

theorem ranges_share_entry :
    (engine 0).equals (.range ⟨0, 1, 1⟩) (.range ⟨0, 2, 1⟩) { types := ⟨[]⟩, maxDepth := 0 } =
        .done false { types := ⟨[]⟩, maxDepth := 0 } ∧
      HashKey.ofValue (.range ⟨0, 1, 1⟩) = HashKey.ofValue (.range ⟨0, 2, 1⟩) ∧
      (Dict.insertItems {} [(.range ⟨0, 1, 1⟩, .str "a"), (.range ⟨0, 2, 1⟩, .str "b")]).map
        Dict.items = .ok [(.range ⟨0, 1, 1⟩, .str "b")] := by
  refine ⟨rfl, rfl, ?_⟩
  with_unfolding_all rfl

end EmbedScript
