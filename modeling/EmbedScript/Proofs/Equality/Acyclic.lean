import EmbedScript.Proofs.Equality.Equivalence

/-!
Equality of values that hold no script object and no way back to themselves has an answer.
-/

namespace EmbedScript

open Exec

def Value.isAtom : Value → Bool
  | .list _ | .tuple .. | .dict _ | .object .. => false
  | _ => true

/-- The value nests so deep at most and holds no script object. The keys of its dicts can be
hashed. -/
inductive Value.Acyclic (h : Heap) : Nat → Value → Prop where
  | atom {depth : Nat} {v : Value} (atomic : v.isAtom = true) : Acyclic h depth v
  | list {depth : Nat} {r : Ref .list} (held : ∀ u ∈ (h.list r).toList, Acyclic h depth u) :
      Acyclic h (depth + 1) (.list r)
  | tuple {depth tag : Nat} {items : List Value} (held : ∀ u ∈ items, Acyclic h depth u) :
      Acyclic h (depth + 1) (.tuple tag items)
  | dict {depth : Nat} {r : Ref .dict}
      (hashed : ∀ e ∈ (h.dict r).items, ∃ hash, HashKey.ofValue e.1 = .ok hash)
      (held : ∀ e ∈ (h.dict r).items, Acyclic h depth e.2) : Acyclic h (depth + 1) (.dict r)

def Exec.Answers (x : Exec Bool) (w : World) : Prop := ∃ answer, x w = .done answer w

theorem Exec.answers_iff {x : Exec Bool} : x.Answers w ↔ ∃ p, x.Tells w p :=
  ⟨fun ⟨answer,ran⟩ => ⟨answer = true,answer,ran,Iff.rfl⟩,fun ⟨_,answer,ran,_⟩ => ⟨answer,ran⟩⟩

section

variable {k : Engine} {fuel : Nat}

theorem Exec.Answers.and_then {x : Exec Bool} (first : x.Answers w) (second : y.Answers w) :
    Exec.Answers (do if ← x then y else return false) w := by
  obtain ⟨p,first⟩ := answers_iff.mp first
  obtain ⟨q,second⟩ := answers_iff.mp second
  exact answers_iff.mpr ⟨p ∧ q,first.and_then second⟩

theorem Exec.Answers.of_eq {x y : Exec Bool} (answers : y.Answers w) (same : x w = y w) : x.Answers w := by
  obtain ⟨answer,ran⟩ := answers
  exact ⟨answer,same.trans ran⟩

theorem allEqual_answers
    (each : ∀ a ∈ as, ∀ b ∈ bs, (equal a b).Answers w) : (allEqual equal as bs).Answers w := by
  induction as generalizing bs with
  | nil => exact ⟨true,rfl⟩
  | cons a as ih =>
    cases bs with
    | nil => exact ⟨true,rfl⟩
    | cons b bs =>
      refine (each a (.head _) b (.head _)).and_then (ih ?_)
      exact fun a here b there => each a (.tail _ here) b (.tail _ there)

theorem allM_answers {items : List α}
    (each : ∀ a ∈ items, (test a).Answers w) : Exec.Answers (items.allM test) w := by
  induction items with
  | nil => exact ⟨true,rfl⟩
  | cons a items ih =>
    obtain ⟨answer,ran⟩ := each a (.head _)
    cases answer with
    | true =>
      obtain ⟨whole,ended⟩ := ih fun a mem => each a (.tail _ mem)
      exact ⟨whole,(bind_done ran _).trans ended⟩
    | false => exact ⟨false,bind_done ran _⟩

theorem Dict.get?_answers {d : Dict} {hash} (hashed : HashKey.ofValue key = .ok hash) :
    d.get? key = .ok none ∨ ∃ e ∈ d.items, d.get? key = .ok (some e.2) := by
  rw [Dict.get?_hashed hashed]
  cases found : d.entries.toList.lookup hash with
  | none => exact .inl rfl
  | some e =>
    obtain ⟨before,after,split,-⟩ := List.lookup_eq_some_iff.mp found
    refine .inr ⟨e,List.mem_map.mpr ⟨(hash,e),?_,rfl⟩,rfl⟩
    rw [split]
    exact List.mem_append_right _ (.head _)

namespace Engine

theorem dicts_answer (hashed : ∀ e ∈ (w.heap.dict r).items, ∃ hash, HashKey.ofValue e.1 = .ok hash)
    (each : ∀ e ∈ (w.heap.dict r).items, ∀ e' ∈ (w.heap.dict s).items,(k.equalsFrom fuel e.2 e'.2).Answers w) :
    (k.equalsFrom (fuel + 1) (.dict r) (.dict s)).Answers w := by
  rw [equalsFrom]
  split
  · exact ⟨true,rfl⟩
  refine .of_eq (.of_eq ?_ (bind_done (heap_apply ..) _)) (bind_done (heap_apply ..) _)
  split
  · exact ⟨false,rfl⟩
  refine allM_answers fun e here => ?_
  obtain ⟨hash,hashed⟩ := hashed e here
  rcases Dict.get?_answers hashed with missing | ⟨e',there,found⟩
  · have asked : heapExcept (fun h => (h.dict s).get? e.1) w = .done none w := by
      rw [heapExcept,missing]
      rfl
    exact ⟨false,bind_done asked _⟩
  · have asked : heapExcept (fun h => (h.dict s).get? e.1) w = .done (some e'.2) w := by
      rw [heapExcept,found]
      rfl
    exact (each e here e' there).of_eq (bind_done asked _)

theorem equalsFrom_answers (left : a.Acyclic w.heap deep) (right : b.Acyclic w.heap far)
    (enough : deep < fuel) : (k.equalsFrom fuel a b).Answers w := by
  induction fuel generalizing a b deep far with
  | zero => contradiction
  | succ fuel ih =>
    have items {deep far as bs} (left : ∀ a ∈ as, a.Acyclic w.heap deep)
        (right : ∀ b ∈ bs, b.Acyclic w.heap far) (enough : deep < fuel) :
        Exec.Answers (if as.length = bs.length then allEqual (k.equalsFrom fuel) as bs
          else return false) w := by
      split
      · exact allEqual_answers fun a here b there => ih (left a here) (right b there) enough
      · exact ⟨false,rfl⟩
    rw [equalsFrom.eq_def]
    dsimp only
    -- One case for each way to compare: the two that ask an object do not arise.
    split
    case h_1 =>
      contradiction
    case h_2 =>
      contradiction
    case h_3 r s =>
      cases left with
      | atom => contradiction
      | list left =>
        cases right with
        | atom => contradiction
        | list right =>
          split
          · exact ⟨true,rfl⟩
          · exact items left right (Nat.lt_of_succ_lt_succ enough)
    case h_4 =>
      cases left with
      | atom => contradiction
      | tuple left =>
        cases right with
        | atom => contradiction
        | tuple right => exact items left right (Nat.lt_of_succ_lt_succ enough)
    case h_5 r s =>
      cases left with
      | atom => contradiction
      | dict hashed left =>
        cases right with
        | atom => contradiction
        | dict _ right =>
          have within := Nat.lt_of_succ_lt_succ enough
          exact dicts_answer hashed fun e here e' there => ih (left e here) (right e' there) within
    case h_6 => exact ⟨_,rfl⟩

theorem equals_answers (left : a.Acyclic w.heap k.fuel) (right : b.Acyclic w.heap far) : (k.equals a b).Answers w :=
  equalsFrom_answers left right (Nat.lt_succ_self _)

end Engine

end

end EmbedScript
