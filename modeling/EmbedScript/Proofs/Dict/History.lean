import EmbedScript.Proofs.Dict.Key
import EmbedScript.Proofs.OrderedMap

/-!
Dicts as lists of entries. What scripts do to a dict, step by step, and what they are answered, is
what happens to the list of its entries.
-/

namespace EmbedScript

open Exec List OrderedMap HashKey

variable {entries : List (Value × Value)}

namespace Entries

-- An entry keeps its place and the key it was first written with.
def put (key value : Value) : List (Value × Value) → List (Value × Value)
  | [] => [(key,value)]
  | e :: rest => if e.1.alike key then (e.1,value) :: rest else e :: put key value rest

def find? (key : Value) (entries : List (Value × Value)) : Option Value := (entries.find? (·.1.alike key)).map (·.2)

def drop (key : Value) (entries : List (Value × Value)) : List (Value × Value) := entries.eraseP (·.1.alike key)

def merge (entries others : List (Value × Value)) : List (Value × Value) :=
  others.foldl (fun entries e => put e.1 e.2 entries) entries

def Distinct (entries : List (Value × Value)) : Prop := entries.Pairwise fun e f => e.1.alike f.1 = false

theorem mem_put (mem : e ∈ put key value entries) : (∃ f ∈ entries, e.1 = f.1) ∨ e.1 = key := by
  induction entries with
  | nil =>
    rw [put,mem_singleton] at mem
    exact .inr (by rw [mem])
  | cons first rest ih =>
    rw [put] at mem
    split at mem
    · rcases mem_cons.mp mem with rfl | mem
      · exact .inl ⟨first,.head _,rfl⟩
      · exact .inl ⟨e,.tail _ mem,rfl⟩
    · rcases mem_cons.mp mem with rfl | mem
      · exact .inl ⟨e,.head _,rfl⟩
      · exact (ih mem).imp_left fun ⟨f,there,same⟩ => ⟨f,.tail _ there,same⟩

theorem Distinct.put (distinct : Distinct entries) (key value : Value) : Distinct (put key value entries) := by
  induction entries with
  | nil => exact pairwise_singleton ..
  | cons first rest ih =>
    obtain ⟨apart,others⟩ := pairwise_cons.mp distinct
    rw [Entries.put]
    split
    case isTrue => exact pairwise_cons.mpr ⟨apart,others⟩
    case isFalse new =>
      refine pairwise_cons.mpr ⟨fun e mem => ?_,ih others⟩
      rcases mem_put mem with ⟨f,there,same⟩ | same
      · rw [same]
        exact apart f there
      · rw [same]
        exact Bool.eq_false_iff.mpr new

theorem put_absent (absent : ∀ e ∈ entries, e.1.alike key = false) (value : Value) :
    put key value entries = entries ++ [(key,value)] := by
  induction entries with
  | nil => rfl
  | cons first rest ih =>
    rw [put,absent first (.head _)]
    exact congrArg (first :: ·) (ih fun e mem => absent e (.tail _ mem))

theorem drop_absent (absent : find? key entries = none) : drop key entries = entries := by
  rw [find?,Option.map_eq_none_iff,find?_eq_none] at absent
  exact eraseP_of_forall_not absent

theorem merge_distinct
    (distinct : Distinct (entries ++ others)) : merge entries others = entries ++ others := by
  induction others generalizing entries with
  | nil => exact (append_nil entries).symm
  | cons e others ih =>
    have absent : ∀ f ∈ entries, f.1.alike e.1 = false := fun f mem => (pairwise_append.mp distinct).2.2 f mem e (.head _)
    have grown : entries ++ e :: others = (entries ++ [e]) ++ others := by simp
    rw [merge,foldl_cons,put_absent absent,grown]
    exact ih (grown ▸ distinct)

end Entries

namespace Dict

-- Dicts whose keys never change. Each entry is filed under the hash key of its key.
structure Keyed (d : Dict) : Prop where
  key : ∀ e ∈ d.entries.toList, e.2.1.IsKey
  hash : ∀ e ∈ d.entries.toList, ofValue e.2.1 = .ok e.1
  distinct : Entries.Distinct d.items

theorem keyed_empty : Keyed {} where
  key _ mem := nomatch mem
  hash _ mem := nomatch mem
  distinct := .nil

variable {d : Dict} {key : Value}

theorem Keyed.filed (keyed : d.Keyed) (given : key.IsKey) (hashed : ofValue key = .ok h) :
    ∀ e ∈ d.entries.toList, (e.1 == h) = e.2.1.alike key := by
  intro e mem
  rw [Bool.eq_iff_iff,beq_iff_eq,alike_iff (keyed.key e mem) given (keyed.hash e mem) hashed]

section Filed

variable {filed : List (HashKey × Value × Value)} (agree : ∀ e ∈ filed, (e.1 == h) = e.2.1.alike key)
include agree

theorem find?_filed : (filed.lookup h).map (·.2) = Entries.find? key (filed.map (·.2)) := by
  induction filed with
  | nil => rfl
  | cons e filed ih =>
    have rest := ih fun e mem => agree e (.tail _ mem)
    have here := agree e (.head _)
    rw [Entries.find?] at rest ⊢
    rw [map_cons,find?_cons,lookup_cons,BEq.comm,here]
    cases e.2.1.alike key with
    | true => rfl
    | false => exact rest

theorem drop_filed : (filed.eraseP (·.1 == h)).map (·.2) = Entries.drop key (filed.map (·.2)) := by
  induction filed with
  | nil => rfl
  | cons e filed ih =>
    have rest := ih fun e mem => agree e (.tail _ mem)
    have here := agree e (.head _)
    rw [Entries.drop] at rest ⊢
    rw [map_cons,eraseP_cons,eraseP_cons,here]
    cases e.2.1.alike key with
    | true => rfl
    | false => exact congrArg (e.2 :: ·) rest

theorem put_filed (value : Value) : (assign h ((filed.lookup h).elim (key,value) fun old => (old.1,value)) filed).map
      (·.2) = Entries.put key value (filed.map (·.2)) := by
  induction filed with
  | nil => rfl
  | cons e filed ih =>
    have rest := ih fun e mem => agree e (.tail _ mem)
    have here := agree e (.head _)
    have turned : (h == e.1) = e.2.1.alike key := by rw [BEq.comm,here]
    rw [map_cons,Entries.put,assign,lookup_cons,turned,here]
    cases e.2.1.alike key with
    | true => rfl
    | false => exact congrArg (e.2 :: ·) rest

end Filed

theorem insertAt_eq (d : Dict) (h : HashKey) (key value : Value) : (d.insertAt h key value).entries.toList =
      assign h ((d.entries.get? h).elim (key,value) fun old => (old.1,value))
        d.entries.toList := by
  unfold insertAt
  cases d.entries.get? h with
  | none => exact toList_insert ..
  | some old => exact toList_insert ..

section

variable (keyed : d.Keyed)

include keyed

theorem Keyed.items_insertAt (given : key.IsKey) (hashed : ofValue key = .ok h) :
    (d.insertAt h key value).items = Entries.put key value d.items := by
  rw [items,OrderedMap.values,insertAt_eq,OrderedMap.get?_eq_lookup]
  exact put_filed (keyed.filed given hashed) value

theorem Keyed.insertAt (given : key.IsKey) (hashed : ofValue key = .ok h) (value : Value) : (d.insertAt h key value).Keyed := by
  -- An entry that is overwritten keeps its key, which is filed already.
  have filed : ∀ e ∈ (d.insertAt h key value).entries.toList,e.2.1.IsKey ∧ ofValue e.2.1 = .ok e.1 := by
    intro e mem
    rw [insertAt_eq] at mem
    rcases mem_assign mem with old | rfl
    · exact ⟨keyed.key e old,keyed.hash e old⟩
    · cases found : d.entries.get? h with
      | none => exact ⟨given,hashed⟩
      | some old =>
        have there := mem_of_get?_eq_some found
        exact ⟨keyed.key (h,old) there,keyed.hash (h,old) there⟩
  refine ⟨fun e mem => (filed e mem).1,fun e mem => (filed e mem).2,?_⟩
  rw [keyed.items_insertAt given hashed]
  exact keyed.distinct.put key value

theorem Keyed.items_erase (given : key.IsKey) (hashed : ofValue key = .ok h) :
    Dict.items ⟨d.entries.erase h⟩ = Entries.drop key d.items := by
  rw [items,OrderedMap.values,OrderedMap.toList_erase]
  exact drop_filed (keyed.filed given hashed)

theorem Keyed.erase (given : key.IsKey) (hashed : ofValue key = .ok h) : Keyed ⟨d.entries.erase h⟩ := by
  have kept : ∀ e ∈ (d.entries.erase h).toList, e ∈ d.entries.toList := by
    intro e mem
    rw [toList_erase] at mem
    exact mem_of_mem_eraseP mem
  refine ⟨fun e mem => keyed.key e (kept e mem),fun e mem => keyed.hash e (kept e mem),?_⟩
  rw [keyed.items_erase given hashed]
  exact Pairwise.eraseP _ keyed.distinct

theorem Keyed.get? (given : key.IsKey) (hashed : ofValue key = .ok h) :
    (d.entries.get? h).map (·.2) = Entries.find? key d.items := by
  rw [get?_eq_lookup]
  exact find?_filed (keyed.filed given hashed)

theorem Keyed.insertItems (given : ∀ e ∈ others, e.1.IsKey) :
    ∃ merged, d.insertItems others = .ok merged ∧ merged.Keyed ∧ merged.items = Entries.merge d.items others := by
  induction others generalizing d with
  | nil => exact ⟨d,rfl,keyed,rfl⟩
  | cons e others ih =>
    have first := given e (.head _)
    obtain ⟨h,hashed⟩ := exists_ofValue e.1 first.mutable?_eq_none
    obtain ⟨merged,ran,kept,same⟩ := ih (keyed.insertAt first hashed e.2) fun e mem => given e (.tail _ mem)
    have inserted : d.insert e.1 e.2 = .ok (d.insertAt h e.1 e.2) := by
      rw [Dict.insert,hashed]
      rfl
    refine ⟨merged,?_,kept,?_⟩
    · change (d.insert e.1 e.2 >>= fun d => d.insertItems others) = .ok merged
      rw [inserted]
      exact ran
    · rw [same,keyed.items_insertAt first hashed]
      rfl

end

end Dict

theorem Heap.dict_modify {h : Heap} (there : r.id < h.dicts.size)
    (f : Dict → Dict) : ({ h with dicts := h.dicts.modify r.id f }).dict r = f (h.dict r) := by
  rw [dict,dict,Array.getElem?_modify,if_pos rfl,Array.getElem?_eq_getElem there]
  rfl

inductive KeyOp where
  | insert (value : Value)
  | remove
  | get
  | contains

namespace KeyOp

-- `d[key] = value`, `d.pop(key, None)`, `d.get(key)` and `key in d`.
def run (k : Engine) (r : Ref .dict) (key : Value) : KeyOp → Exec Value
  | insert value => do
    k.setItem (.dict r) key value
    return .none
  | remove => k.performDict .popOr (.dict r) [key,.none]
  | get => k.performDict .get (.dict r) [key]
  | contains => return .bool (← k.contains (.dict r) key)

def onHash (r : Ref .dict) (key : Value) (op : KeyOp) (h : HashKey) : Exec Value := do
  let found ← heap fun heap => (heap.dict r).entries.get? h
  match op with
  | insert value =>
    modifyDict r (·.insertAt h key value)
    return .none
  | remove =>
    if found.isSome then modifyDict r fun d => ⟨d.entries.erase h⟩
    return (found.map (·.2)).getD .none
  | get => return (found.map (·.2)).getD .none
  | contains => return .bool found.isSome

def onEntries (key : Value) (entries : List (Value × Value)) : KeyOp → Value × List (Value × Value)
  | insert value => (.none,Entries.put key value entries)
  | remove => ((Entries.find? key entries).getD .none,Entries.drop key entries)
  | get => ((Entries.find? key entries).getD .none,entries)
  | contains => (.bool (Entries.find? key entries).isSome,entries)

variable {k : Engine} {w : World} {r : Ref .dict} {key : Value} {op : KeyOp}

theorem run_eq : op.run k r key w = (ofExcept (ofValue key) >>= op.onHash r key) w := by
  cases op with
  | insert value =>
    simp only [run,Engine.setItem,setEntry,bind_assoc]
    rfl
  | remove =>
    change (ofExcept (ofValue key) >>= fun h => _) w = _
    refine bind_eq rfl fun h left _ => ?_
    simp only [onHash,bind_done (heap_apply _ left)]
    cases (left.heap.dict r).entries.get? h with
    | none => rfl
    | some e => rfl
  | get =>
    change (heapExcept (fun h => (h.dict r).get? key) >>= fun found => pure (found.getD .none)) w = _
    simp only [Dict.get?]
    cases ofValue key with
    | error e => rfl
    | ok h => rfl
  | contains =>
    simp only [run,Engine.contains,Dict.contains]
    cases ofValue key with
    | error e => rfl
    | ok h =>
      change Outcome.done _ w = Outcome.done _ w
      rw [contains_eq_isSome]

theorem run_key (there : r.id < w.heap.dicts.size) (keyed : (w.heap.dict r).Keyed) (given : key.IsKey) :
    ∃ left, op.run k r key w = .done (op.onEntries key (w.heap.dict r).items).1 left ∧
      left.heap.dicts.size = w.heap.dicts.size ∧ (left.heap.dict r).Keyed ∧
      (left.heap.dict r).items = (op.onEntries key (w.heap.dict r).items).2 := by
  obtain ⟨h,hashed⟩ := exists_ofValue key given.mutable?_eq_none
  have found := keyed.get? given hashed
  have ran : op.run k r key w = op.onHash r key h w := by
    rw [run_eq,hashed]
    rfl
  rw [ran]
  cases op with
  | insert value =>
    refine ⟨_,rfl,Array.size_modify ..,?_⟩
    rw [Heap.dict_modify there]
    exact ⟨keyed.insertAt given hashed value,keyed.items_insertAt given hashed⟩
  | remove =>
    cases stored : (w.heap.dict r).entries.get? h with
    | none =>
      rw [stored] at found
      have looked : heap (fun heap => (heap.dict r).entries.get? h) w = .done none w := by rw [heap_apply,stored]
      refine ⟨w,?_,rfl,keyed,(Entries.drop_absent found.symm).symm⟩
      rw [onHash,bind_done looked,onEntries,← found]
      rfl
    | some e =>
      rw [stored] at found
      have looked : heap (fun heap => (heap.dict r).entries.get? h) w = .done (some e) w := by rw [heap_apply,stored]
      refine ⟨{ w with heap := { w.heap with
        dicts := w.heap.dicts.modify r.id fun d => ⟨d.entries.erase h⟩ } },?_,Array.size_modify ..,?_⟩
      · rw [onHash,bind_done looked,onEntries,← found]
        rfl
      · rw [Heap.dict_modify there]
        exact ⟨keyed.erase given hashed,keyed.items_erase given hashed⟩
  | get =>
    refine ⟨w,?_,rfl,keyed,rfl⟩
    simp only [onEntries,← found]
    rfl
  | contains =>
    refine ⟨w,?_,rfl,keyed,rfl⟩
    simp only [onEntries,← found,Option.isSome_map]
    rfl

theorem run_refused (refused : key.mutable? = some kind) : op.run k r key w = fail (.unhashable kind) w := by
  rw [run_eq,ofValue_eq_error key refused]
  rfl

end KeyOp

inductive DictOp where
  | clear
  | keyed (op : KeyOp) (key : Value)

namespace DictOp

def run (k : Engine) (r : Ref .dict) : DictOp → Exec Value
  | clear => k.performDict .clear (.dict r) []
  | keyed op key => op.run k r key

-- Keys are built from scalars, or something in them keeps them from being keys.
def Fits : DictOp → Prop
  | clear => True
  | keyed _ key => key.IsKey ∨ key.mutable?.isSome = true

def answer (entries : List (Value × Value)) : DictOp → Except Fault Value × List (Value × Value)
  | clear => (.ok .none,[])
  | keyed op key => key.mutable?.elim ((op.onEntries key entries).map .ok id) fun kind => (.error (.unhashable kind),entries)

def answers : List (Value × Value) → List DictOp → List (Except Fault Value) × List (Value × Value)
  | entries, [] => ([],entries)
  | entries, op :: ops => ((op.answer entries).1 :: (answers (op.answer entries).2 ops).1,(answers (op.answer entries).2 ops).2)

variable {k : Engine} {w : World}

theorem attempt_done (ran : x w = .done a left) : attempt x w = .done (.ok a) left := by
  rw [attempt,ran]

theorem run_answer {op : DictOp} (there : r.id < w.heap.dicts.size) (keyed : (w.heap.dict r).Keyed) (fits : op.Fits) :
    ∃ left, attempt (op.run k r) w = .done (op.answer (w.heap.dict r).items).1 left ∧
      left.heap.dicts.size = w.heap.dicts.size ∧ (left.heap.dict r).Keyed ∧
      (left.heap.dict r).items = (op.answer (w.heap.dict r).items).2 := by
  cases op with
  | clear =>
    refine ⟨_,attempt_done rfl,Array.size_modify ..,?_⟩
    rw [Heap.dict_modify there]
    exact ⟨Dict.keyed_empty,rfl⟩
  | keyed op key =>
    rcases fits with given | refused
    · obtain ⟨left,ran,kept⟩ := @KeyOp.run_key k w r key op there keyed given
      rw [answer,given.mutable?_eq_none]
      exact ⟨left,attempt_done ran,kept⟩
    · obtain ⟨kind,refused⟩ := Option.isSome_iff_exists.mp refused
      rw [answer,refused]
      refine ⟨{ w with raised := some (.unhashable kind,w.calls) },?_,rfl,keyed,rfl⟩
      rw [attempt,run,KeyOp.run_refused refused]
      rfl

theorem run_answers {ops} (there : r.id < w.heap.dicts.size)
    (keyed : (w.heap.dict r).Keyed) (fits : ∀ op ∈ ops, op.Fits) :
    ∃ left, (ops.mapM fun op => attempt (op.run k r)) w = .done (answers (w.heap.dict r).items ops).1 left ∧
      (left.heap.dict r).Keyed ∧ (left.heap.dict r).items = (answers (w.heap.dict r).items ops).2 := by
  induction ops generalizing w with
  | nil => exact ⟨w,rfl,keyed,rfl⟩
  | cons op ops ih =>
    obtain ⟨middle,first,size,kept,same⟩ := @run_answer k w r op there keyed (fits op (.head _))
    obtain ⟨left,rest,last,items⟩ := @ih middle (size ▸ there) kept fun op mem => fits op (.tail _ mem)
    refine ⟨left,?_,last,?_⟩
    · rw [mapM_cons,bind_done first,bind_done rest,same]
      rfl
    · rw [items,same,answers]

end DictOp

end EmbedScript
