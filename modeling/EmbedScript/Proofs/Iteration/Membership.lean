import EmbedScript.Proofs.Iteration.Cursor
import EmbedScript.Proofs.Set.Inclusion

/-!
On keys, searching a container finds the values that equal an element which iteration gives.
-/

namespace EmbedScript

open Exec HashKey

theorem Exec.Tells.anyM {items : List α} {test : α → Exec Bool}
    {p : α → Prop} (each : ∀ item ∈ items, (test item).Tells w (p item)) :
    (items.anyM test).Tells w (∃ item ∈ items, p item) := by
  induction items with
  | nil => exact ⟨false,rfl,by simp⟩
  | cons item rest ih =>
    obtain ⟨answer,ran,told⟩ := each item (.head _)
    have others := ih fun item mem => each item (.tail _ mem)
    cases answer with
    | true => exact ⟨true,bind_done ran _,by simp [← told]⟩
    | false =>
      refine (others.of_eq (bind_done ran _)).congr ?_
      simp [← told]

theorem Range.contains_iff_mem {r : Range} (turning : r.step ≠ 0) (n : Int64) : r.contains n = true ↔ n ∈ r.elements := by
  simp only [contains_iff turning,List.mem_iff_getElem?,getElem?_elements turning]

namespace Engine

variable {k : Engine} {w : World} {x : Value} {items : List Value}

theorem equal_iff_alike (left : e.IsKey) (right : x.IsKey) (enough : e.height ≤ k.fuel) :
    k.Equal w e x ↔ e.alike x = true := by
  rw [Equal,equals_keys left right enough]
  simp

theorem equal_int_iff (n : Int64) (given : x.IsKey) : k.Equal w (.int n) x ↔ x.asInt? = some n := by
  rw [equal_iff_alike (.int n) given (Nat.zero_le _)]
  cases given <;> simp [Value.alike,Value.asInt?,eq_comm (a := n)]

theorem contains_range_tells {r} (turning : r.step ≠ 0) (given : x.IsKey) :
    (k.contains (.range r) x).Tells w (∃ e ∈ r.elements.map .int, k.Equal w e x) := by
  refine ⟨x.asInt?.any r.contains,rfl,?_⟩
  simp only [List.mem_map,exists_exists_and_eq_and,equal_int_iff _ given,Option.any_eq_true,Range.contains_iff_mem turning]
  exact exists_congr fun n => and_comm

section Keys

variable (keys : ∀ e ∈ items, e.IsKey) (given : x.IsKey) (enough : ∀ e ∈ items, e.height ≤ k.fuel)
include keys given enough

theorem anyEquals_tells : (k.anyEquals items x).Tells w (∃ e ∈ items, k.Equal w e x) := by
  refine Exec.Tells.anyM fun e mem => ⟨e.alike x,?_,?_⟩
  · exact equals_keys (keys e mem) given (enough e mem)
  · exact (equal_iff_alike (keys e mem) given (enough e mem)).symm

theorem mem_hashes_iff {filed : List α} (values : filed.map valueOf = items)
    (own : ∀ m ∈ filed, ofValue (valueOf m) = .ok (hashOf m)) {hash}
    (hashed : ofValue x = .ok hash) :
    hash ∈ filed.map hashOf ↔ ∃ e ∈ items, k.Equal w e x := by
  subst values
  have same (m : α) (mem : m ∈ filed) : k.Equal w (valueOf m) x ↔ hashOf m = hash := by
    have listed : valueOf m ∈ filed.map valueOf := List.mem_map_of_mem mem
    rw [equal_iff_alike (keys _ listed) given (enough _ listed),alike_iff (keys _ listed) given (own m mem) hashed]
  simp only [List.mem_map,exists_exists_and_eq_and]
  exact exists_congr fun m => and_congr_right fun mem => (same m mem).symm

end Keys

theorem contains_tells (container : w.heap.Elements c items)
    (keys : ∀ e ∈ items, e.IsKey) (given : x.IsKey) (enough : ∀ e ∈ items, e.height ≤ k.fuel) :
    (k.contains c x).Tells w (∃ e ∈ items, k.Equal w e x) := by
  obtain ⟨hash,hashed⟩ := exists_ofValue x given.mutable?_eq_none
  cases container with
  | list r => exact (anyEquals_tells keys given enough).after_heap
  | tuple => exact anyEquals_tells keys given enough
  | range turning => exact contains_range_tells turning given
  | @dict r own =>
    refine ⟨(w.heap.dict r).entries.contains hash,?_,?_⟩
    · change ofExcept ((w.heap.dict r).contains x) w = _
      rw [Dict.contains,hashed]
      rfl
    · rw [OrderedMap.contains_iff_mem_keys]
      exact mem_hashes_iff keys given enough List.map_map.symm own hashed
  | @set r own =>
    refine ⟨(w.heap.set r).contains hash,contains_set hashed,?_⟩
    rw [OrderedMap.contains_iff_mem_keys]
    exact mem_hashes_iff keys given enough rfl own hashed

end Engine

structure MembershipLaws (k : Engine) (w : World) (c x : Value) (elements : List Value) : Prop where
  walk : ∃ cursor start left, k.iter c w = .done cursor start ∧ k.Gives cursor start elements left
  found : (k.contains c x).Tells w (∃ e ∈ elements, k.Equal w e x)
  equal : ∀ e ∈ elements, ∀ w' : World, w'.extensions.get? e.typeKey "__eq__" = none →
    k.Says w' .eq e x (k.Equal w e x)

theorem membership {k : Engine} {w : World} {c x : Value} {elements : List Value} (fuel : 0 < k.fuel)
    (container : w.heap.Elements c elements) (keys : ∀ e ∈ elements, e.IsKey) (given : x.IsKey)
    (enough : ∀ e ∈ elements, e.height ≤ k.fuel) : MembershipLaws k w c x elements where
  walk := Engine.iter_gives fuel container
  found := Engine.contains_tells container keys given enough
  equal e member w' plain := by
    have key := keys e member
    have deep := enough e member
    exact ⟨e.alike x, Engine.binary_eq_keys key given deep plain,
      (Engine.equal_iff_alike key given deep).symm⟩

def oneDict : World := { World.blank with
    heap := { dicts := #[⟨⟨#[(.atom (.int 1),.int 1,.none),
          (.tuple [.atom (.str "a"),.atom .none],.tuple 0 [.str "a",.none],.none)]⟩⟩] } }

theorem membership_oneDict :
    oneDict.heap.Elements (.dict ⟨0⟩) [.int 1, .tuple 0 [.str "a", .none]] ∧
      MembershipLaws (engine 2) oneDict (.dict ⟨0⟩) (.bool true) [.int 1, .tuple 0 [.str "a", .none]] ∧
      oneDict.heap.Elements (.range ⟨10, 0, -3⟩) ([10, 7, 4, 1].map .int) ∧
      MembershipLaws (engine 2) oneDict (.range ⟨10, 0, -3⟩) (.bool true)
        ([10, 7, 4, 1].map .int) := by
  have dict : oneDict.heap.Elements (.dict ⟨0⟩) [.int 1, .tuple 0 [.str "a", .none]] :=
    .dict (by simp [oneDict, Heap.dict, OrderedMap.toList, HashKey.ofValue, HashKey.ofValues]; rfl)
  have range : oneDict.heap.Elements (.range ⟨10, 0, -3⟩) ([10, 7, 4, 1].map .int) :=
    Heap.Elements.range (r := ⟨10, 0, -3⟩) (by decide)
  refine ⟨dict, membership (by decide) dict ?_ (.bool true) (by decide), range,
    membership (by decide) range ?_ (.bool true) (by decide)⟩
  · refine List.forall_mem_cons.mpr ⟨.int 1, List.forall_mem_singleton.mpr (.tuple 0 ?_)⟩
    exact List.forall_mem_cons.mpr ⟨.str "a", List.forall_mem_singleton.mpr .none⟩
  · exact List.forall_mem_map.mpr fun n _ => .int n

end EmbedScript
