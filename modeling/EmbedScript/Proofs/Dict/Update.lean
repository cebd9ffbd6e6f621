import EmbedScript.Proofs.Dict.Merge

/-!
Updating a dict. The argument is read to its end first; then its entries are filed one after another,
until a key has no hash.
-/

namespace EmbedScript

open Exec Engine HashKey

-- What is left when some entries have been filed in a dict, and nothing else has happened.
structure Filed (w : World) (r : Ref .dict) (entries : List (Value × Value)) (left : World) : Prop where
  dict : (w.heap.dict r).insertItems entries = .ok (left.heap.dict r)
  others : ∀ other ≠ r, left.heap.dict other = w.heap.dict other
  rest : left = { w with heap := { w.heap with dicts := left.heap.dicts } }

def World.file (w : World) (r : Ref .dict) (hash : HashKey) (key value : Value) : World :=
  { w with heap := { w.heap with dicts := w.heap.dicts.modify r.id (·.insertAt hash key value) } }

variable {k : Engine} {w left : World} {r : Ref .dict} {hash : HashKey} {arguments : List Value}
  {entries : List (Value × Value)}

theorem Filed.none : Filed w r [] w := ⟨rfl,fun _ _ => rfl,rfl⟩

theorem Filed.cons (there : r.id < w.heap.dicts.size) (hashed : ofValue key = .ok hash)
    (filed : Filed (w.file r hash key value) r entries left) : Filed w r ((key,value) :: entries) left where
  dict := by
    rw [← filed.dict,World.file,Heap.dict_modify there]
    simp only [Dict.insertItems,List.foldlM_cons,Dict.insert,hashed]
    rfl
  others other different := by
    have elsewhere : r.id ≠ other.id := fun same => different (congrArg Ref.mk same.symm)
    rw [filed.others other different]
    simp [World.file,Heap.dict,Array.getElem?_modify,elsewhere]
  rest := filed.rest

-- Either all entries are filed, or those before a key that has no hash.
inductive Filing (w : World) (r : Ref .dict) : List (Value × Value) → Outcome Value → Prop where
  | all {entries : List (Value × Value)} {left : World} (filed : Filed w r entries left) : Filing w r entries (.done .none left)
  | some {before rest : List (Value × Value)} {key value : Value} {e : Fault} {left : World}
      (filed : Filed w r before left) (unhashed : ofValue key = .error e) :
      Filing w r (before ++ (key,value) :: rest) (fail e left)

theorem Filing.cons (there : r.id < w.heap.dicts.size) (hashed : ofValue key = .ok hash)
    (rest : Filing (w.file r hash key value) r entries o) : Filing w r ((key,value) :: entries) o := by
  cases rest with
  | all filed => exact .all (filed.cons there hashed)
  | some filed unhashed => exact .some (filed.cons there hashed) unhashed

theorem forIn_filing
    (each : ∀ e u, body e u = setEntry r e.1 e.2 >>= fun _ => pure (.yield u)) (entries : List (Value × Value))
    (there : r.id < w.heap.dicts.size) :
    Filing w r entries ((do let _ ← (forIn entries PUnit.unit body); return .none : Exec Value) w) := by
  induction entries generalizing w with
  | nil => exact .all .none
  | cons e entries ih =>
    rw [List.forIn_cons,each,bind_assoc,bind_assoc]
    cases hashed : ofValue e.1 with
    | error fault =>
      rw [setEntry,hashed]
      exact @Filing.some w r [] entries _ _ _ _ .none hashed
    | ok hash =>
      have put : setEntry r e.1 e.2 w = .done () (w.file r hash e.1 e.2) := by
        rw [setEntry,hashed]
        rfl
      rw [bind_done put]
      exact (ih (by simpa [World.file] using there)).cons there hashed

-- An error that comes up while the argument is read comes before anything is filed. One that comes up
-- later is due to a key without a hash, and the entries before it stay filed.
theorem dict_update {k : Engine} {w : World} {r : Ref .dict} {arguments : List Value} :
    (∀ e left, k.entries arguments w = .fault e left →
      k.performDict .update (.dict r) arguments w = .fault e left) ∧
    ∀ entries middle, k.entries arguments w = .done entries middle → r.id < middle.heap.dicts.size →
      Filing middle r entries (k.performDict .update (.dict r) arguments w) := by
  refine ⟨fun e left failed => ?_, fun entries middle read there => ?_⟩
  · rw [Engine.performDict, bind_apply, failed]
  · rw [Engine.performDict, bind_done read]
    exact forIn_filing (fun _ _ => rfl) entries there

def emptyDict : World := { World.blank with heap := { dicts := #[{}] } }

def unfiledArguments : List Value := [.tuple 0 [.tuple 1 [.int 1,.int 2],.tuple 2 [.list ⟨0⟩,.int 3]]]

theorem dict_update_unfiled : Filing emptyDict ⟨0⟩ [(.int 1,.int 2),(.list ⟨0⟩,.int 3)]
    ((engine 0).performDict .update (.dict ⟨0⟩) unfiledArguments emptyDict) :=
  dict_update.2 _ _ rfl Nat.one_pos

-- The first of two entries stays, although the second has no hash.
theorem update_stops_midway : ¬ ∀ arguments e left,
    (engine 0).performDict .update (.dict ⟨0⟩) arguments emptyDict = .fault e left →
      (left.heap.dict ⟨0⟩).size = 0 := by
  intro whole
  exact absurd (whole unfiledArguments _ _ rfl) (by decide +kernel)

end EmbedScript
