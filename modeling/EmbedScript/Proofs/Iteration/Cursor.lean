import EmbedScript.Interpreter
import EmbedScript.Proofs.Exec
import EmbedScript.Proofs.Range.Elements

/-!
Walks through containers. A cursor gives the elements one after the other and changes only itself.
-/

namespace EmbedScript

open Exec List

inductive Engine.Gives (k : Engine) (c : Ref .cursor) : World → List Value → World → Prop where
  | ended {w left : World} (last : k.advance c w = .done none left) : Gives k c w [] left
  | item {w middle left : World} {v : Value} {vs : List Value}
      (next : k.advance c w = .done (some v) middle) (rest : Gives k c middle vs left) :
      Gives k c w (v :: vs) left

/-- A container and its elements. A range has a step, and what a dict or a set keeps is kept under
its own hash key. -/
inductive Heap.Elements (h : Heap) : Value → List Value → Prop where
  | list (r : Ref .list) : Elements h (.list r) (h.list r).toList
  | tuple (tag : Nat) (items : List Value) : Elements h (.tuple tag items) items
  | range {r : Range} (turning : r.step ≠ 0) : Elements h (.range r) (r.elements.map .int)
  | dict {r : Ref .dict}
      (hashed : ∀ e ∈ (h.dict r).entries.toList, HashKey.ofValue e.2.1 = .ok e.1) :
      Elements h (.dict r) (h.dict r).keys
  | set {r : Ref .set} (hashed : ∀ m ∈ (h.set r).toList, HashKey.ofValue m.2 = .ok m.1) :
      Elements h (.set r) (h.set r).values

-- What a walk through a container gives next, and where it goes on.
def Cursor.step (h : Heap) : Cursor → Option (Option Value × Cursor)
  | .list r index => some ((h.list r)[index]?,.list r (index + 1))
  | .items rest => some (rest.head?,.items rest.tail)
  | .range r index => some ((r.get? index).map .int,.range r (index + 1))
  | _ => none

inductive Cursor.Has (h : Heap) : Cursor → List Value → Prop where
  | list (r : Ref .list) (index : Nat) : Has h (.list r index) ((h.list r).toList.drop index)
  | items (rest : List Value) : Has h (.items rest) rest
  | range {r : Range} (turning : r.step ≠ 0) (index : Nat) :
      Has h (.range r index) ((r.elements.drop index).map .int)

def World.withCursors (w : World) (cursors : Array CursorInfo) : World := { w with heap := { w.heap with cursors } }

variable {w : World} {cursor : Cursor} {items : List Value}

theorem Cursor.Has.withCursors (has : cursor.Has w.heap items) (cursors : Array CursorInfo) :
    cursor.Has (w.withCursors cursors).heap items := by
  cases has with
  | list r index => exact .list r index
  | items => exact .items items
  | range turning index => exact .range turning index

theorem Cursor.Has.step (has : cursor.Has h items) :
    ∃ next, cursor.step h = some (items.head?,next) ∧ next.Has h items.tail := by
  cases has with
  | list r index =>
    refine ⟨.list r (index + 1),?_,?_⟩
    · rw [head?_drop,Array.getElem?_toList]
      rfl
    · rw [tail_drop]
      exact .list r (index + 1)
  | items => exact ⟨.items items.tail,rfl,.items items.tail⟩
  | @range r turning index =>
    refine ⟨.range r (index + 1),?_,?_⟩
    · rw [head?_map,head?_drop,Range.getElem?_elements turning]
      rfl
    · rw [← map_tail,tail_drop]
      exact .range turning (index + 1)

theorem setCursor_apply (there : c.id < w.heap.cursors.size) (next : Cursor) :
    ∃ cursors, setCursor c next w = .done () (w.withCursors cursors) ∧ cursors.size = w.heap.cursors.size ∧
      ((w.withCursors cursors).heap.cursor c).cursor = next ∧
      ∀ other, other ≠ c → (w.withCursors cursors).heap.cursor other = w.heap.cursor other := by
  refine ⟨_,rfl,Array.size_modify ..,?_,fun other apart => ?_⟩
  · rw [World.withCursors,Heap.cursor,Array.getElem?_modify,if_pos rfl,Array.getElem?_eq_getElem there]
    rfl
  · have elsewhere : c.id ≠ other.id := fun same => apart (congrArg Ref.mk same.symm)
    rw [World.withCursors,Heap.cursor,Array.getElem?_modify,if_neg elsewhere]
    rfl

namespace Engine

variable {k : Engine}

theorem advanceFrom_step {next} (there : c.id < w.heap.cursors.size)
    (steps : (w.heap.cursor c).cursor.step w.heap = some (item,next)) :
    ∃ cursors, (∀ fuel, k.advanceFrom (fuel + 1) c w = .done item (w.withCursors cursors)) ∧ cursors.size = w.heap.cursors.size ∧
      ((w.withCursors cursors).heap.cursor c).cursor = next ∧
      ∀ other, other ≠ c → (w.withCursors cursors).heap.cursor other = w.heap.cursor other := by
  have read : heap (fun h => (h.cursor c).cursor) w = .done (w.heap.cursor c).cursor w := rfl
  obtain ⟨cursors,set,size,moved,others⟩ := setCursor_apply there next
  simp only [advanceFrom,bind_done read]
  generalize held : (w.heap.cursor c).cursor = cursor at steps
  cases cursor with
  | list | range =>
    cases steps
    exact ⟨cursors,fun _ => bind_done set _,size,moved,others⟩
  | items rest =>
    cases steps
    cases rest with
    | nil => exact ⟨w.heap.cursors,fun _ => rfl,rfl,held,fun _ _ => rfl⟩
    | cons item rest => exact ⟨cursors,fun _ => bind_done set _,size,moved,others⟩
  | mapped | object | shared => cases steps

theorem advanceFrom_has (there : c.id < w.heap.cursors.size) (has : (w.heap.cursor c).cursor.Has w.heap items) :
    ∃ cursors, (∀ fuel, k.advanceFrom (fuel + 1) c w = .done items.head? (w.withCursors cursors)) ∧
      cursors.size = w.heap.cursors.size ∧
      ((w.withCursors cursors).heap.cursor c).cursor.Has w.heap items.tail ∧
      ∀ other, other ≠ c → (w.withCursors cursors).heap.cursor other = w.heap.cursor other := by
  obtain ⟨next,steps,rest⟩ := has.step
  obtain ⟨cursors,ran,size,moved,others⟩ := advanceFrom_step there steps
  exact ⟨cursors,ran,size,moved ▸ rest,others⟩

theorem advance_has (fuel : 0 < k.fuel) (there : c.id < w.heap.cursors.size) (has : (w.heap.cursor c).cursor.Has w.heap items) :
    ∃ cursors, k.advance c w = .done items.head? (w.withCursors cursors) ∧ cursors.size = w.heap.cursors.size ∧
      ((w.withCursors cursors).heap.cursor c).cursor.Has w.heap items.tail := by
  obtain ⟨n,more⟩ := Nat.exists_eq_succ_of_ne_zero (Nat.ne_of_gt fuel)
  obtain ⟨cursors,ran,size,left,-⟩ := advanceFrom_has there has
  exact ⟨cursors,by rw [advance,more,ran],size,left⟩

theorem gives_of_has (fuel : 0 < k.fuel) (there : c.id < w.heap.cursors.size) (has : (w.heap.cursor c).cursor.Has w.heap items) :
    ∃ cursors, k.Gives c w items (w.withCursors cursors) := by
  induction items generalizing w with
  | nil =>
    obtain ⟨cursors,ran,-,-⟩ := advance_has fuel there has
    exact ⟨cursors,.ended ran⟩
  | cons v vs ih =>
    obtain ⟨cursors,ran,size,left⟩ := advance_has fuel there has
    obtain ⟨ended,rest⟩ := ih (size ▸ there) (left.withCursors cursors)
    exact ⟨ended,.item ran rest⟩

theorem iter_has (fuel : 0 < k.fuel) (container : w.heap.Elements v items) : ∃ cursor, k.iter v w =
        .done ⟨w.heap.cursors.size⟩ (w.withCursors (w.heap.cursors.push ⟨cursor,false⟩)) ∧
      cursor.Has w.heap items := by
  obtain ⟨n,more⟩ := Nat.exists_eq_succ_of_ne_zero (Nat.ne_of_gt fuel)
  rw [iter,more]
  cases container with
  | list r => exact ⟨.list r 0,rfl,.list r 0⟩
  | range turning => exact ⟨.range _ 0,rfl,.range turning 0⟩
  | tuple | dict | set => exact ⟨.items _,rfl,.items _⟩

theorem held_new (w : World) (cursor : Cursor) :
    ((w.withCursors (w.heap.cursors.push ⟨cursor,false⟩)).heap.cursor ⟨w.heap.cursors.size⟩).cursor =
      cursor := by
  rw [World.withCursors,Heap.cursor,Array.getElem?_push_size]
  rfl

theorem gives_new (fuel : 0 < k.fuel) (has : cursor.Has w.heap items) :
    ∃ cursors, k.Gives ⟨w.heap.cursors.size⟩ (w.withCursors (w.heap.cursors.push ⟨cursor,false⟩))
      items (w.withCursors cursors) := by
  have there : w.heap.cursors.size < (w.heap.cursors.push ⟨cursor,false⟩).size := by simp
  refine gives_of_has fuel there ?_
  rw [held_new]
  exact has.withCursors _

theorem iter_gives (fuel : 0 < k.fuel) (container : w.heap.Elements v items) :
    ∃ cursor start left, k.iter v w = .done cursor start ∧ k.Gives cursor start items left := by
  obtain ⟨cursor,ran,has⟩ := iter_has fuel container
  obtain ⟨_,gives⟩ := gives_new fuel has
  exact ⟨_,_,_,ran,gives⟩

theorem drainFrom_gives (gives : k.Gives c w items left) {fuel}
    (enough : items.length < fuel) (before : Array Value) :
    k.drainFrom c fuel before w = .done (before ++ items.toArray) left := by
  induction gives generalizing fuel before with
  | ended last =>
    obtain ⟨fuel,rfl⟩ := Nat.exists_eq_succ_of_ne_zero (Nat.ne_of_gt enough)
    rw [drainFrom,bind_done last]
    rfl
  | @item _ _ _ v vs next rest ih =>
    obtain ⟨fuel,rfl⟩ := Nat.exists_eq_succ_of_ne_zero (Nat.ne_zero_of_lt enough)
    rw [drainFrom,bind_done next]
    refine (ih (Nat.lt_of_succ_lt_succ enough) (before.push v)).trans ?_
    simp

end Engine

end EmbedScript
