import EmbedScript.Proofs.Equality.Acyclic
import EmbedScript.Proofs.Iteration.Cursor
import EmbedScript.Proofs.Range.Access
import EmbedScript.Proofs.Typing.Augment
import Mathlib.Tactic.MkIffOfInductiveProp

/-!
Changes of lists. What a change makes of a list is said on plain lists; one that fails leaves the
list as it was.
-/

namespace EmbedScript

open Exec Engine Sequence Word Array

-- What a change makes of a list

inductive ListMethod where
  | append
  | extend
  | pop
  | insert
  | remove
  | reverse
  | clear
  deriving DecidableEq, Repr

def ListMethod.name : ListMethod → String
  | append => "append"
  | extend => "extend"
  | pop => "pop"
  | insert => "insert"
  | remove => "remove"
  | reverse => "reverse"
  | clear => "clear"

inductive ListChange where
  | call (method : ListMethod) (arguments : List Value)
  /-- `items[index] = value` -/
  | assign (index value : Value)
  /-- `del items[index]` -/
  | delete (index : Value)
  /-- `items += value` -/
  | grow (value : Value)

def ListChange.run (k : Engine) (r : Ref .list) : ListChange → Exec Unit
  | call method arguments => discard (k.invokeMember (.list r) "list" method.name false arguments)
  | assign index value => k.setItem (.list r) index value
  | delete index => k.delItem (.list r) index
  | grow value => discard (k.augment .add (.list r) value)

def place? (index : Int) (size : Nat) : Option Nat :=
  if 0 ≤ index ∧ index < size then some index.toNat
  else if index < 0 ∧ 0 ≤ size + index then some (size + index).toNat
  else none

def slot (index : Int) (size : Nat) : Nat := (max 0 (min (size : Int) (if index < 0 then size + index else index))).toNat

inductive Engine.Drops (k : Engine) (v : Value) : World → List Value → List Value → Prop where
  | here {w left : World} {u : Value} {us : List Value} (equal : k.equals u v w = .done true left) :
      Drops k v w (u :: us) us
  | later {w left : World} {u : Value} {us rest : List Value}
      (unequal : k.equals u v w = .done false left) (drops : Drops k v left us rest) :
      Drops k v w (u :: us) (u :: rest)

-- The first item that answers to be equal, and the state its answer leaves. Items may do anything when
-- they are asked.
inductive Engine.Finds (k : Engine) (v : Value) : World → List Value → Nat → World → Prop where
  | here {w left : World} {u : Value} {us : List Value} (equal : k.equals u v w = .done true left) :
      Finds k v w (u :: us) 0 left
  | later {w middle left : World} {u : Value} {us : List Value} {n : Nat}
      (unequal : k.equals u v w = .done false middle) (finds : Finds k v middle us n left) :
      Finds k v w (u :: us) (n + 1) left

/-- What a change makes of a list. It fails if it makes nothing of it. -/
@[mk_iff] inductive ListChange.Makes (k : Engine) (w : World) (old : List Value) :
    ListChange → List Value → Prop where
  | append (v : Value) : Makes k w old (.call .append [v]) (old ++ [v])
  | extend {v : Value} {extra : List Value} {left : World} (given : k.items v w = .done extra left) :
      Makes k w old (.call .extend [v]) (old ++ extra)
  | pop (filled : old ≠ []) : Makes k w old (.call .pop []) old.dropLast
  | popAt {index : Int64} {n : Nat} (found : place? index.toInt old.length = some n) :
      Makes k w old (.call .pop [.int index]) (old.eraseIdx n)
  | insert (index : Int64) (v : Value) :
      Makes k w old (.call .insert [.int index,v]) (old.insertIdx (slot index.toInt old.length) v)
  | remove {v : Value} {rest : List Value} (drops : k.Drops v w old rest) :
      Makes k w old (.call .remove [v]) rest
  | reverse : Makes k w old (.call .reverse []) old.reverse
  | clear : Makes k w old (.call .clear []) []
  | assign {index v : Value} {i : Int64} {n : Nat} (whole : index.asInt? = some i)
      (found : place? i.toInt old.length = some n) : Makes k w old (.assign index v) (old.set n v)
  | delete {index : Value} {i : Int64} {n : Nat} (whole : index.asInt? = some i)
      (found : place? i.toInt old.length = some n) : Makes k w old (.delete index) (old.eraseIdx n)
  | grow {v : Value} {extra : List Value} {left : World} (given : k.items v w = .done extra left) :
      Makes k w old (.grow v) (old ++ extra)

def Exec.SparesList {α : Type} (x : Exec α) (w : World) (r : Ref .list) : Prop :=
  match x w with
  | .done _ left | .fault _ left => left.heap.lists[r.id]? = w.heap.lists[r.id]?
  | .halt _ => False

/-- The computation makes of the list what it should, or it fails because there is nothing to make
of it, and leaves it as it is. -/
def Exec.Turns {α : Type} (x : Exec α) (w : World) (r : Ref .list) (made : List Value → Prop) : Prop :=
  match x w with
  | .done _ left => ∃ items, left.heap.lists[r.id]? = some items ∧ made items.toList
  | .fault _ left => left.heap.lists[r.id]? = w.heap.lists[r.id]? ∧ ∀ items, ¬ made items
  | .halt _ => False

/-- Neither iterating over an argument nor comparing items with it changes the list. -/
def ListChange.Calm (k : Engine) (w : World) (r : Ref .list) : ListChange → Prop
  | call .extend [v] | grow v => (k.items v).SparesList w r
  | call .remove [v] => (k.indexOf v 0 (w.heap.list r).toList).SparesList w r
  | _ => True

theorem position?_eq_place? {size : Nat} (short : size ≤ greatest) :
    position? index size = place? index.toInt size := by
  have length : (wrap size).toInt = size := toInt_ofInt (by simp only [least]; omega) short
  unfold position? place?
  simp only [length,neg_iff,Bool.or_eq_true,decide_eq_true_eq]
  grind

theorem insertPosition_eq_slot (index : Int64) (size : Nat) : insertPosition index size = slot index.toInt size := by
  unfold insertPosition slot
  simp only [neg_iff]
  grind

theorem slot_le (index : Int) (size : Nat) : slot index size ≤ size := by
  unfold slot
  omega

theorem place?_lt {size} (found : place? index size = some n) : n < size := by
  unfold place? at found
  grind

-- Computations that change a list

section

variable {x : Exec α} {w left : World} {r : Ref .list} {old : Array Value}

namespace Exec.Turns

theorem of_eq {y : Exec α} (turns : y.Turns w r made) (same : x w = y w) : x.Turns w r made := by
  rw [Exec.Turns,same]
  exact turns

theorem congr (turns : x.Turns w r made) (same : ∀ items, made items ↔ made' items) : x.Turns w r made' := by
  obtain rfl : made = made' := funext fun items => propext (same items)
  exact turns

theorem finish (turns : x.Turns w r made) (b : β) : Exec.Turns (do let _ ← x; return b) w r made := by
  unfold Exec.Turns at turns ⊢
  rw [bind_apply]
  cases ran : x w with
  | done a left => simpa only [ran,pure_apply] using turns
  | fault e left => simpa only [ran] using turns
  | halt h => simp only [ran] at turns

theorem fail (e : Fault) (nothing : ∀ items, ¬ made items) : (fail e : Exec α).Turns w r made := ⟨rfl,nothing⟩

theorem bind {f : α → Exec β} (spares : x.SparesList w r)
    (done : ∀ a left, x w = .done a left → left.heap.lists[r.id]? = w.heap.lists[r.id]? → (f a).Turns left r made)
    (nothing : ∀ e left, x w = .fault e left → ∀ items, ¬ made items) :
    (x >>= f).Turns w r made := by
  unfold Exec.SparesList at spares
  cases ran : x w with
  | done a left =>
    simp only [ran] at spares
    have turns := done a left ran spares
    unfold Exec.Turns at turns ⊢
    rw [bind_done ran,← spares]
    exact turns
  | fault e left =>
    simp only [ran] at spares
    unfold Exec.Turns
    rw [bind_apply,ran]
    exact ⟨spares,nothing e left ran⟩
  | halt h => simp only [ran] at spares

section

variable (stored : w.heap.lists[r.id]? = some old)

include stored

theorem modify (result : made (f old).toList) (a : α) : Exec.Turns (do modifyList r f; return a) w r made := by
  refine ⟨f old,?_,result⟩
  rw [getElem?_modify,if_pos rfl,stored]
  rfl

theorem modify_at (short : old.size ≤ greatest) (index : Int64) (what : String)
    (f : Nat → Array Value → Array Value) (a : Nat → α) :
    Exec.Turns (do
        let position ← (position index old.size what)
        modifyList r (f position)
        return a position) w r
      (fun items => ∃ n, place? index.toInt old.size = some n ∧ items = (f n old).toList) := by
  cases found : place? index.toInt old.size with
  | some n =>
    rw [position_of_some ((position?_eq_place? short).trans found)]
    exact modify stored ⟨n,rfl,rfl⟩ (a n)
  | none =>
    rw [position_of_none ((position?_eq_place? short).trans found)]
    exact fail _ fun items ⟨n,here,_⟩ => by contradiction

theorem extend {k : Engine} (calm : (k.items v).SparesList w r) (a : α) : Exec.Turns (do
        let extra ← k.items v
        modifyList r (· ++ extra.toArray)
        return a) w r
      (fun items => ∃ extra left, k.items v w = .done extra left ∧ items = old.toList ++ extra) := by
  refine bind calm ?_ ?_
  · intro extra left ran kept
    refine modify (kept.trans stored) ⟨extra,left,ran,?_⟩ a
    rw [toList_append]
  · rintro e left ran items ⟨extra,other,given,-⟩
    cases ran.symm.trans given

end

end Exec.Turns

end

-- Looking for an item

namespace Engine

variable {k : Engine} {w : World} {v : Value} {items : List Value}

variable {left : World}

theorem indexOf_eq_some :
    k.indexOf v start items w = .done (some p) left ↔ ∃ n, p = start + n ∧ k.Finds v w items n left := by
  constructor
  · intro ran
    induction items generalizing start w with
    | nil => cases ran
    | cons u us ih =>
      obtain ⟨answer,middle,asked,ran⟩ := bind_eq_done ran
      cases answer with
      | true =>
        cases ran
        exact ⟨0,rfl,.here asked⟩
      | false =>
        obtain ⟨n,rfl,finds⟩ := ih ran
        exact ⟨n + 1,Nat.add_right_comm ..,.later asked finds⟩
  · rintro ⟨n,rfl,finds⟩
    induction finds generalizing start with
    | here equal =>
      rw [indexOf,bind_done equal]
      rfl
    | later unequal _ ih =>
      have rest := @ih (start + 1)
      rw [Nat.add_right_comm] at rest
      rw [indexOf,bind_done unequal]
      exact rest

theorem Finds.lt (finds : k.Finds v w items n left) : n < items.length := by
  induction finds with
  | here => exact Nat.zero_lt_succ _
  | later _ _ ih => exact Nat.succ_lt_succ ih

theorem drops_iff : k.Drops v w items rest ↔ ∃ n left, k.Finds v w items n left ∧ rest = items.eraseIdx n := by
  constructor
  · intro drops
    induction drops with
    | here equal => exact ⟨0,_,.here equal,rfl⟩
    | later unequal _ ih =>
      obtain ⟨n,left,finds,rfl⟩ := ih
      exact ⟨n + 1,left,.later unequal finds,rfl⟩
  · rintro ⟨n,left,finds,rfl⟩
    induction finds with
    | here equal => exact .here equal
    | later unequal _ ih => exact .later unequal ih

theorem not_drops
    (ran : k.indexOf v 0 items w = outcome) (missed : ∀ p left, outcome ≠ .done (some p) left) :
    ¬ k.Drops v w items rest := by
  intro drops
  obtain ⟨n,left,finds,-⟩ := drops_iff.mp drops
  exact missed _ left (ran.symm.trans (indexOf_eq_some.mpr ⟨n,rfl,finds⟩))

theorem indexOf_answers (right : v.Acyclic w.heap far) (left : ∀ u ∈ items, u.Acyclic w.heap k.fuel) (start : Nat) :
    ∃ found, k.indexOf v start items w = .done found w := by
  induction items generalizing start with
  | nil => exact ⟨none,rfl⟩
  | cons u us ih =>
    obtain ⟨answer,asked⟩ := equals_answers (left u (.head _)) right
    rw [indexOf,bind_done asked]
    cases answer with
    | true => exact ⟨some start,rfl⟩
    | false => exact ih (fun u mem => left u (.tail _ mem)) (start + 1)

end Engine

-- The methods of lists

def ListMethod.action? (method : ListMethod) (arguments : List Value) : Option ListAction :=
  match method with
  | append => match arguments with | [_] => some .append | _ => none
  | extend => match arguments with | [_] => some .extend | _ => none
  | pop => match arguments with | [] => some .pop | [.int _] => some .popAt | _ => none
  | insert => match arguments with | [.int _,_] => some .insert | _ => none
  | remove => match arguments with | [_] => some .remove | _ => none
  | reverse => match arguments with | [] => some .reverse | _ => none
  | clear => match arguments with | [] => some .clear | _ => none

namespace Signature

theorem takes_dynamic_of_exact {s : Signature} (takes : s.takes args .exact = true) : s.takes args .dynamic = true := by
  simp only [Signature.takes,Bool.or_eq_true,Bool.and_eq_true,List.all_eq_true] at takes ⊢
  refine takes.imp_right fun ⟨length,each⟩ => ⟨length,fun pair mem => ?_⟩
  exact Bool.or_eq_true_iff.mpr (.inr (each pair mem))

theorem resolve_one {c} (fixed : (signature c).variadic = false) :
    resolve signature [c] args false = if (signature c).takes args .dynamic then some c else none := by
  cases exact : (signature c).takes args .exact with
  | true => simp [resolve,fits,fixed,exact,takes_dynamic_of_exact exact]
  | false => cases dynamic : (signature c).takes args .dynamic <;> simp [resolve,fits,fixed,exact,dynamic]

end Signature

theorem ListMethod.resolve (method : ListMethod) (arguments : List Value) :
    (Signature.resolve HostMethod.signature (Standard.listType.methodsNamed method.name false)
      (arguments.map Value.kind) false).map HostMethod.action =
      (method.action? arguments).map .list := by
  cases method with
  | append | extend | remove =>
    refine (congrArg (Option.map _) (Signature.resolve_one rfl)).trans ?_
    rcases arguments with _ | ⟨a,_ | ⟨b,rest⟩⟩ <;> rfl
  | reverse | clear =>
    refine (congrArg (Option.map _) (Signature.resolve_one rfl)).trans ?_
    rcases arguments with _ | ⟨a,rest⟩ <;> rfl
  | insert =>
    refine (congrArg (Option.map _) (Signature.resolve_one rfl)).trans ?_
    rcases arguments with _ | ⟨a,_ | ⟨b,_ | ⟨c,rest⟩⟩⟩
    · rfl
    · cases a <;> rfl
    · cases a <;> rfl
    · cases a <;> rfl
  | pop =>
    rcases arguments with _ | ⟨a,_ | ⟨b,rest⟩⟩
    · rfl
    · cases a <;> rfl
    · cases a <;> rfl

theorem Engine.invokeMember_list {k : Engine}
    (standard : w.types.get? "list" = some Standard.listType) (method : ListMethod)
    (arguments : List Value) :
    match method.action? arguments with
    | some action => k.invokeMember (.list r) "list" method.name false arguments w = k.performList action (.list r) arguments w
    | none => ∃ e, k.invokeMember (.list r) "list" method.name false arguments w = fail e w := by
  have chosen := method.resolve arguments
  rw [invokeMember,bind_done (look_apply ..),standard,Option.elim_some]
  cases found : method.action? arguments with
  | some action =>
    rw [found] at chosen
    obtain ⟨mem,resolved,acts⟩ := Option.map_eq_some_iff.mp chosen
    rw [resolved]
    dsimp only
    rw [acts]
    rfl
  | none =>
    rw [found,Option.map_none,Option.map_eq_none_iff] at chosen
    rw [chosen]
    dsimp only
    split <;> exact ⟨_,rfl⟩

theorem Engine.getAttr_list {k : Engine}
    (standard : w.types.get? "list" = some Standard.listType) {method : ListMethod}
    (own : w.extensions.get? "list" method.name = none) :
    ∃ callee left, k.getAttr (.list r) method.name w = .done callee left ∧ left.heap.lists = w.heap.lists ∧
      ∀ arguments, k.callValue callee arguments = k.invokeMember (.list r) "list" method.name false arguments := by
  refine ⟨.nil w.heap.nextTag (.list r) "list" method.name false,
    { w with heap := { w.heap with nextTag := w.heap.nextTag + 1 } },?_,rfl,fun _ => rfl⟩
  have unowned : extension? (Value.list r).typeKey method.name w = .done none w := congrArg (Outcome.done · w) own
  have typed : hostType? (.list r) w = .done (some Standard.listType) w := congrArg (Outcome.done · w) standard
  refine (bind_done unowned _).trans ((bind_done typed _).trans ?_)
  cases method <;> rfl

namespace ListChange

variable {k : Engine} {w : World} {r : Ref .list} {old : Array Value}

variable (stored : w.heap.lists[r.id]? = some old)

include stored

theorem list_of_stored : w.heap.list r = old := by
  rw [Heap.list,stored]
  rfl

theorem pop_turns : (k.performList .pop (.list r) []).Turns w r (fun items => old.toList ≠ [] ∧ items = old.toList.dropLast) := by
  have held := list_of_stored stored
  cases last : old.back? with
  | none =>
    have same : k.performList .pop (.list r) [] w = fail emptyPop w := by
      rw [performList,receiverList,pure_bind,bind_done (heap_apply ..),held,last]
    refine .of_eq (.fail _ ?_) same
    rintro items ⟨filled,-⟩
    rw [back?_eq_none_iff] at last
    exact filled (congrArg toList last)
  | some v =>
    have filled : old.toList ≠ [] := by
      intro empty
      rw [← getLast?_toList,empty] at last
      contradiction
    have same : k.performList .pop (.list r) [] w = (do modifyList r (·.pop); return v) w := by
      rw [performList,receiverList,pure_bind,bind_done (heap_apply ..),held,last]
    exact .of_eq (.modify stored ⟨filled,toList_pop ..⟩ v) same

theorem popAt_turns (short : old.size ≤ greatest) (index : Int64) : (k.performList .popAt (.list r) [.int index]).Turns w r
      (fun items => ∃ n, place? index.toInt old.size = some n ∧ items = old.toList.eraseIdx n) := by
  by_cases empty : old.isEmpty = true
  · have same : k.performList .popAt (.list r) [.int index] w = fail emptyPop w := by
      rw [← list_of_stored stored] at empty
      rw [performList,receiverList,pure_bind,bind_done (heap_apply ..),if_pos empty]
      rfl
    refine .of_eq (.fail _ fun items ⟨n,found,_⟩ => ?_) same
    rw [isEmpty_iff_size_eq_zero.mp empty] at found
    exact absurd (place?_lt found) (Nat.not_lt_zero n)
  · have same : k.performList .popAt (.list r) [.int index] w = (do
          let position ← (position index old.size "pop" : Exec Nat)
          modifyList r (·.eraseIdxIfInBounds position)
          return old[position]?.getD .none) w := by
      rw [← list_of_stored stored] at empty ⊢
      rw [performList,receiverList,pure_bind,bind_done (heap_apply ..),if_neg empty]
      rfl
    refine (Exec.Turns.modify_at stored short index "pop" _ _).of_eq same |>.congr fun items => ?_
    simp only [toList_eraseIdxIfInBounds]

theorem removeItem_turns (calm : (k.indexOf v 0 old.toList).SparesList w r) :
    (k.removeItem r v).Turns w r (k.Drops v w old.toList) := by
  rw [← list_of_stored stored] at calm ⊢
  refine .of_eq (.bind calm ?_ ?_) (bind_done (heap_apply ..) _)
  · intro found left ran kept
    cases found with
    | none => exact .fail _ fun items => not_drops ran (by simp)
    | some position =>
      obtain ⟨n,rfl,finds⟩ := indexOf_eq_some.mp ran
      have held : left.heap.lists[r.id]? = some (w.heap.list r) := by rw [kept,stored,list_of_stored stored]
      have there : 0 + n < (left.heap.list r).size := by
        rw [list_of_stored held,Nat.zero_add]
        exact finds.lt
      refine .of_eq ?_ (bind_done (heap_apply ..) _)
      rw [if_pos there]
      refine .modify held (drops_iff.mpr ⟨n,left,finds,?_⟩) ()
      rw [toList_eraseIdxIfInBounds,Nat.zero_add]
  · intro e left ran items
    exact not_drops ran (by simp)

theorem call_turns (standard : w.types.get? "list" = some Standard.listType)
    (short : old.size ≤ greatest) {method}
    (calm : (call method arguments).Calm k w r) :
    ((call method arguments).run k r).Turns w r ((call method arguments).Makes k w old.toList) := by
  have invoked := invokeMember_list (k := k) (r := r) standard method arguments
  refine .finish ?_ ()
  cases found : method.action? arguments with
  | none =>
    rw [found] at invoked
    obtain ⟨e,failed⟩ := invoked
    refine .of_eq (.fail e fun items makes => ?_) failed
    cases makes <;> contradiction
  | some action =>
    rw [found] at invoked
    refine .of_eq ?_ invoked
    unfold ListMethod.action? at found
    cases method <;> dsimp only at found <;> split at found <;> cases found
    · refine .modify stored ?_ Value.none
      rw [toList_push]
      exact .append _
    · exact (Exec.Turns.extend stored calm Value.none).congr (by simp [makes_iff])
    · exact (pop_turns stored).congr (by simp [makes_iff])
    · exact (popAt_turns stored short _).congr (by simp [makes_iff])
    · refine .modify stored ?_ Value.none
      rw [insertPosition_eq_slot,insertIdxIfInBounds,dif_pos (slot_le ..),toList_insertIdx]
      exact .insert ..
    · rw [Calm,list_of_stored stored] at calm
      exact ((removeItem_turns stored calm).finish Value.none).congr (by simp [makes_iff])
    · refine .modify stored ?_ Value.none
      rw [toList_reverse]
      exact .reverse
    · exact .modify stored .clear Value.none

theorem indexed_turns (short : old.size ≤ greatest) (index : Value) (f : Nat → Array Value → Array Value) : Exec.Turns (do
        let n ← sequenceIndex (.list r) index
        let position ← position n (← heap fun h => (h.list r).size) "list assignment"
        modifyList r (f position)) w r
      (fun items => ∃ i n, index.asInt? = some i ∧ place? i.toInt old.size = some n ∧ items = (f n old).toList) := by
  unfold sequenceIndex
  cases asked : index.asInt? with
  | some i =>
    have size : heap (fun h => (h.list r).size) w = .done old.size w := by rw [heap_apply,list_of_stored stored]
    rw [pure_bind]
    refine .of_eq ?_ (bind_done size _)
    exact (Exec.Turns.modify_at stored short i "list assignment" f fun _ => ()).congr (by simp)
  | none => exact .of_eq (.fail _ (by simp)) rfl

end ListChange

-- Arguments that scripts do not answer for

def Value.isIterable : Value → Bool
  | .list _ | .tuple .. | .str _ | .dict _ | .set _ | .range _ | .generator _ | .iterator _
  | .object .. => true
  | _ => false

/-- What iterating over a value gives, if it is known and no script is asked. -/
inductive Engine.Spreads (k : Engine) (w : World) : Value → Option (List Value) → Prop where
  | list (r : Ref .list) : Spreads k w (.list r) (some (w.heap.list r).toList)
  | container {v : Value} {items : List Value} (elements : w.heap.Elements v items)
      (enough : items.length < k.fuel) : Spreads k w v (some items)
  | text {text : String} (enough : (characters text).length < k.fuel) :
      Spreads k w (.str text) (some (characters text))
  | other {v : Value} (single : v.isIterable = false)
      (unextended : w.extensions.get? v.typeKey "__iter__" = none) (fuel : 0 < k.fuel) :
      Spreads k w v none

namespace Engine

variable {k : Engine} {w : World} {v : Value} {items : List Value}

theorem items_of_cursor (walked : k.items v w = (do return (← k.drainFrom (← k.iter v) k.fuel #[]).toList) w)
    (ran : k.iter v w = .done ⟨w.heap.cursors.size⟩ (w.withCursors (w.heap.cursors.push ⟨cursor,false⟩)))
    (has : cursor.Has w.heap items) (enough : items.length < k.fuel) :
    ∃ left, left.heap.lists = w.heap.lists ∧ k.items v w = .done items left := by
  obtain ⟨cursors,gives⟩ := gives_new (Nat.zero_lt_of_lt enough) has
  refine ⟨w.withCursors cursors,rfl,?_⟩
  rw [walked,bind_done ran,bind_done (drainFrom_gives gives enough #[]),pure_apply]
  simp

theorem items_single (single : v.isIterable = false)
    (unextended : w.extensions.get? v.typeKey "__iter__" = none) (fuel : 0 < k.fuel) :
    k.items v w = fail (.notIterable (w.heap.typeName v)) w := by
  obtain ⟨n,more⟩ := Nat.exists_eq_succ_of_ne_zero (Nat.ne_of_gt fuel)
  have asked : extension? v.typeKey "__iter__" w = .done none w := congrArg (Outcome.done · w) unextended
  have failed : k.iter v w = fail (.notIterable (w.heap.typeName v)) w := by
    rw [iter,more,iterFrom.eq_def]
    dsimp only
    split
    case h_10 => exact bind_done asked _
    all_goals contradiction
  unfold items
  split
  case h_3 =>
    rw [bind_apply,failed]
    rfl
  all_goals contradiction

theorem items_spreads (spreads : k.Spreads w v found) : ∃ left, left.heap.lists = w.heap.lists ∧
      k.items v w = found.elim (.fault (.notIterable (w.heap.typeName v)) left) (.done · left) := by
  cases spreads with
  | list r => exact ⟨w,rfl,rfl⟩
  | container elements enough =>
    obtain ⟨cursor,ran,has⟩ := iter_has (Nat.zero_lt_of_lt enough) elements
    cases elements with
    | list | tuple => exact ⟨w,rfl,rfl⟩
    | range | dict | set => exact items_of_cursor rfl ran has enough
  | text enough =>
    refine items_of_cursor rfl ?_ (.items _) enough
    obtain ⟨n,more⟩ := Nat.exists_eq_succ_of_ne_zero (Nat.ne_zero_of_lt enough)
    rw [iter,more]
    rfl
  | other single unextended fuel =>
    have failed := items_single single unextended fuel
    exact ⟨{ w with raised := some (.notIterable (w.heap.typeName v),w.calls) },rfl,failed⟩

end Engine

namespace ListChange

variable {k : Engine} {w : World} {r : Ref .list} {old : Array Value}

/-- The change asks no script: it compares with a value that holds no object, and iterates over a
value that gives known items, or none. -/
def Plain (k : Engine) (w : World) : ListChange → Prop
  | call .extend [v] | grow v => ∃ found, k.Spreads w v found
  | call .remove [v] => ∃ depth, v.Acyclic w.heap depth
  | _ => True

theorem leaves_of_spreads (spreads : k.Spreads w v found) : (k.items v).SparesList w r := by
  obtain ⟨left,same,ran⟩ := items_spreads spreads
  rw [Exec.SparesList,ran]
  cases found <;> exact congrArg (·[r.id]?) same

variable {change : ListChange}

theorem Plain.calm (plain : change.Plain k w)
    (items : ∀ u ∈ (w.heap.list r).toList, u.Acyclic w.heap k.fuel) : change.Calm k w r := by
  unfold Plain at plain
  unfold Calm
  split at plain
  · obtain ⟨found,spreads⟩ := plain
    exact leaves_of_spreads spreads
  · obtain ⟨found,spreads⟩ := plain
    exact leaves_of_spreads spreads
  · obtain ⟨depth,acyclic⟩ := plain
    obtain ⟨found,ran⟩ := indexOf_answers acyclic items 0
    rw [Exec.SparesList,ran]
  · trivial

theorem turns (stored : w.heap.lists[r.id]? = some old)
    (standard : w.types.get? "list" = some Standard.listType) (short : old.size ≤ greatest) (calm : change.Calm k w r) :
    (change.run k r).Turns w r (change.Makes k w old.toList) := by
  cases change with
  | call => exact call_turns stored standard short calm
  | assign index v => exact (indexed_turns stored short index fun n items => items.setIfInBounds n v).congr (by simp [makes_iff])
  | delete index => exact (indexed_turns stored short index fun n items => items.eraseIdxIfInBounds n).congr (by simp [makes_iff])
  | grow => exact ((Exec.Turns.extend stored calm (Value.list r)).finish ()).congr (by simp [makes_iff])

end ListChange

/-- Each change makes of the list what it should, or fails and leaves it as it was, as long as the
scripts that it asks leave the list alone. -/
theorem list_changes {k : Engine} {w : World} {r : Ref .list} {old : Array Value}
    (stored : w.heap.lists[r.id]? = some old) (short : old.size ≤ Word.greatest)
    (standard : w.types.get? "list" = some Standard.listType)
    (own : ∀ method : ListMethod, w.extensions.get? "list" method.name = none)
    (acyclic : ∀ u ∈ old.toList, u.Acyclic w.heap k.fuel) :
    (∀ method : ListMethod, ∃ callee left, k.getAttr (.list r) method.name w = .done callee left ∧
      left.heap.lists = w.heap.lists ∧
      ∀ arguments, k.callValue callee arguments =
        k.invokeMember (.list r) "list" method.name false arguments) ∧
    (∀ change : ListChange, change.Calm k w r →
      (change.run k r).Turns w r (change.Makes k w old.toList)) ∧
    (∀ change : ListChange, change.Plain k w → change.Calm k w r) ∧
    ∀ v found, k.Spreads w v found → ∃ left, left.heap.lists = w.heap.lists ∧
      k.items v w = found.elim (.fault (.notIterable (w.heap.typeName v)) left) (.done · left) := by
  refine ⟨fun method => Engine.getAttr_list standard (own method), fun change calm => ?_,
    fun change plain => ?_, fun v found spreads => Engine.items_spreads spreads⟩
  · exact ListChange.turns stored standard short calm
  · rw [← ListChange.list_of_stored stored] at acyclic
    exact plain.calm acyclic

def shelfWorld : World := { Interpreter.initial {} with heap := { lists := #[#[.int 5,.tuple 0 [.int 1],.bool true,.int 5]] } }

theorem list_changes_shelf : ∃ left items,
    (ListChange.call .remove [.int 5]).run (engine 3) ⟨0⟩ shelfWorld = .done () left ∧
    left.heap.lists[0]? = some items ∧ items.toList = [.tuple 0 [.int 1], .bool true, .int 5] := by
  have acyclic : ∀ u ∈ [Value.int 5, .tuple 0 [.int 1], .bool true, .int 5],
      u.Acyclic shelfWorld.heap (engine 3).fuel := by
    intro u member
    simp only [List.mem_cons, List.not_mem_nil, or_false] at member
    rcases member with rfl | rfl | rfl | rfl
    · exact .atom rfl
    · refine .tuple fun u member => ?_
      cases List.mem_singleton.mp member
      exact .atom rfl
    · exact .atom rfl
    · exact .atom rfl
  obtain ⟨-, changes, calm, -⟩ := @list_changes (engine 3) shelfWorld ⟨0⟩
    #[.int 5, .tuple 0 [.int 1], .bool true, .int 5] rfl (by decide) rfl (fun _ => rfl) acyclic
  obtain ⟨items, held, makes⟩ := changes (.call .remove [.int 5]) (calm _ ⟨0, .atom rfl⟩)
  refine ⟨_, items, rfl, held, ?_⟩
  generalize items.toList = rest at makes
  cases makes with
  | remove drops =>
    cases drops with
    | here => rfl
    | later unequal => cases unequal

-- Where `x` is known to be a list, `x += y` makes a new one, and the list that `x` was stays as it is.
theorem typed_growth_forks : ∃ instr st,
    Compile.augment (.name "x") .add (.name "y") ⟨⟨[]⟩, {}⟩ aliasedState = .ok (instr, st) ∧
    ¬ (instr.exec (engine 1) sampleFrame).Turns aliasedWorld ⟨0⟩
      ((ListChange.grow (.list ⟨0⟩)).Makes (engine 1) aliasedWorld [.int 0]) := by
  refine ⟨_, _, rfl, ?_⟩
  rintro ⟨items, held, makes⟩
  generalize grown : items.toList = made at makes
  cases makes with
  | grow given =>
    cases given
    cases held
    cases congrArg List.length grown

end EmbedScript
