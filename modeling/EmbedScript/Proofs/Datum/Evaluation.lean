import EmbedScript.Proofs.Code.Compile
import EmbedScript.Proofs.Datum.Parsing
import EmbedScript.Proofs.OrderedMap
import EmbedScript.Interpreter

/-!
Evaluation of plain data. The expression of a tree makes a value that is read as the tree.
-/

namespace EmbedScript

open Code Exec Datum OrderedMap

namespace Datum

mutual

def code : Datum → Code
  | .none => .literal .none
  | .bool b => .literal (.bool b)
  | .int n => .literal (.int n)
  | .str text => .literal (.str text)
  | .list ds => .list (codes ds)
  | .tuple ds => .tuple (codes ds)
  | .set ds => if ds.isEmpty then .call (.global "set") [] else .set (codes ds)
  | .dict es => .dict (codesOf es)

def codes : List Datum → List ItemCode
  | [] => []
  | d :: ds => .one d.code :: codes ds

def codesOf : List Binding → List EntryCode
  | [] => []
  | .mk k v :: es => .pair k.code v.code :: codesOf es

end

theorem expr_ne_star (d : Datum) (inner : Expr) : d.expr ≠ .star inner := by
  cases d with
  | set ds => cases ds <;> simp [expr]
  | _ => simp [expr]

section Compiling

open Compile

mutual

theorem compile_expr (top : AtModule st) (d : Datum) : d.expr.compile false env st = .ok (Typed.dynamic d.code,st) := by
  cases d with
  | none => rfl
  | bool b => rfl
  | int n => rfl
  | str text => rfl
  | list ds => exact (bind_ok top.isTyped _).trans (bind_ok (compile_exprs top ds) _)
  | tuple ds => exact (bind_ok top.isTyped _).trans (bind_ok (compile_exprs top ds) _)
  | set ds =>
    match ds with
    | [] =>
      have name : (Expr.name "set").compile false env st = .ok (Typed.dynamic (.global "set"),st) := by
        rw [Expr.compile_name,bind_ok top.isTyped,bind_ok (top.readName "set")]
        rfl
      exact (bind_ok top.isTyped _).trans (bind_ok name _)
    | d :: ds => exact (bind_ok top.isTyped _).trans (bind_ok (compile_exprs top (d :: ds)) _)
  | dict es => exact (bind_ok top.isTyped _).trans (bind_ok (compile_exprsOf top es) _)

theorem compile_exprs (top : AtModule st) (ds : List Datum) : Expr.compileItems (exprs ds) env st = .ok (codes ds,st) := by
  match ds with
  | [] => rfl
  | d :: ds =>
    rw [exprs,Expr.compileItems_cons d.expr_ne_star,bind_ok top.isTyped,bind_ok (compile_expr top d),
      bind_ok (compile_exprs top ds)]
    rfl

theorem compile_exprsOf (top : AtModule st) (es : List Binding) :
    Expr.compileEntries (exprsOf es) env st = .ok (codesOf es,st) := by
  match es with
  | [] => rfl
  | .mk k v :: es =>
    refine (bind_ok top.isTyped _).trans ((bind_ok (compile_expr top k) _).trans ?_)
    exact (bind_ok top.isTyped _).trans ((bind_ok (compile_expr top v) _).trans (bind_ok (compile_exprsOf top es) _))

end

end Compiling

end Datum

-- New values

structure World.Grown (w w' : World) : Prop where
  heap : w.heap.Extends w'.heap
  modules : w'.heap.modules = w.heap.modules
  rest : w' = { w with heap := w'.heap }

namespace World.Grown

variable {a : World}

theorem refl (w : World) : w.Grown w := ⟨.refl _,rfl,rfl⟩

theorem trans (first : a.Grown b) (second : b.Grown c) : a.Grown c := by
  refine ⟨first.heap.trans second.heap,second.modules.trans first.modules,?_⟩
  rw [second.rest,first.rest]

end World.Grown

theorem getElem?_push_of_some {xs : Array α} {i : Nat}
    (stored : xs[i]? = some x) (y : α) : (xs.push y)[i]? = some x := by
  have bound := (Array.getElem?_eq_some_iff.mp stored).1
  rw [Array.getElem?_push_lt bound,← stored,Array.getElem?_eq_getElem bound]

namespace Exec

variable (w : World)

theorem newTuple_shows (shown : ShowsAll w.heap items ds) :
    ∃ v w', newTuple items w = .done v w' ∧ Shows w'.heap v (.tuple ds) ∧ w.Grown w' := by
  refine ⟨_,_,rfl,.tuple (shown.mono ?_),?_⟩
  · exact ⟨id,id,id⟩
  · exact ⟨⟨id,id,id⟩,rfl,rfl⟩

theorem newList_shows (shown : ShowsAll w.heap items ds) :
    ∃ v w', newList items w = .done v w' ∧ Shows w'.heap v (.list ds) ∧ w.Grown w' := by
  have grown : w.heap.Extends { w.heap with lists := w.heap.lists.push items.toArray } :=
    ⟨fun stored => getElem?_push_of_some stored _,id,id⟩
  refine ⟨_,_,rfl,.list Array.getElem?_push_size ?_,⟨grown,rfl,rfl⟩⟩
  simpa using shown.mono grown

theorem newSet_shows {ds} (shown : ShowsMembers w.heap s.toList ds) (nodup : s.keys.Nodup) :
    ∃ v w', newSet s w = .done v w' ∧ Shows w'.heap v (.set ds) ∧ w.Grown w' := by
  have grown : w.heap.Extends { w.heap with sets := w.heap.sets.push s } := ⟨id,fun stored => getElem?_push_of_some stored _,id⟩
  exact ⟨_,_,rfl,.set Array.getElem?_push_size (shown.mono grown) nodup,⟨grown,rfl,rfl⟩⟩

theorem newDict_shows {es} (shown : ShowsEntries w.heap d.entries.toList es) (nodup : d.entries.keys.Nodup) :
    ∃ v w', newDict d w = .done v w' ∧ Shows w'.heap v (.dict es) ∧ w.Grown w' := by
  have grown : w.heap.Extends { w.heap with dicts := w.heap.dicts.push d } := ⟨id,id,fun stored => getElem?_push_of_some stored _⟩
  exact ⟨_,_,rfl,.dict Array.getElem?_push_size (shown.mono grown) nodup,⟨grown,rfl,rfl⟩⟩

end Exec

section Keys

variable {keys : List HashKey}

theorem Shows.hash {key} (shown : Shows h v d) (keyed : d.key? = some key) : HashKey.ofValue v = .ok key := by
  rw [shown.key] at keyed
  cases hashed : HashKey.ofValue v with
  | error e =>
    rw [hashed] at keyed
    contradiction
  | ok other =>
    rw [hashed] at keyed
    rw [Option.some.inj keyed]

theorem Datum.keys?_cons (keyed : keys? (d :: ds) = some keys) :
    ∃ key rest, keys = key :: rest ∧ d.key? = some key ∧ keys? ds = some rest := by
  rw [keys?,Option.bind_eq_some_iff] at keyed
  obtain ⟨key,first,remaining⟩ := keyed
  rw [Option.map_eq_some_iff] at remaining
  obtain ⟨rest,others,rfl⟩ := remaining
  exact ⟨key,rest,rfl,first,others⟩

theorem ShowsAll.foldlM_add (shown : ShowsAll h vs ds) (keyed : keys? ds = some keys)
    (nodup : (s.keys ++ keys).Nodup) :
    ∃ s' members, vs.foldlM ValueSet.add s = .ok s' ∧ s'.toList = s.toList ++ members ∧
      s'.keys = s.keys ++ keys ∧ ShowsMembers h members ds := by
  induction vs generalizing ds keys s with
  | nil =>
    cases shown
    cases keyed
    exact ⟨s,[],rfl,by simp,by simp,.nil⟩
  | cons v vs ih =>
    cases shown with
    | cons first rest =>
      obtain ⟨key,others,rfl,keyed,remaining⟩ := keys?_cons keyed
      have absent : key ∉ s.keys := fun mem => (List.nodup_append.mp nodup).2.2 key mem key (.head _) rfl
      have hashed := first.hash keyed
      have added : s.add v = .ok (s.insert key v) := by
        simp only [ValueSet.add,hashed]
        rfl
      have extended := keys_insert_absent absent v
      obtain ⟨s',members,folded,stored,keys,shown⟩ :=
        @ih _ _ (s.insert key v) rest remaining (by rw [extended]; simpa using nodup)
      refine ⟨s',(key,v) :: members,?_,?_,?_,.cons hashed first shown⟩
      · rw [List.foldlM_cons,added]
        exact folded
      · simp [stored,toList_insert_absent absent]
      · simp [keys,extended]

theorem ShowsAll.ofValues (shown : ShowsAll h vs ds) (distinct : Distinct ds) :
    ∃ s, ValueSet.ofValues vs = .ok s ∧ ShowsMembers h s.toList ds ∧ s.keys.Nodup := by
  obtain ⟨keys,keyed,nodup⟩ := distinct
  obtain ⟨s,members,folded,stored,same,shown⟩ :=
    shown.foldlM_add (s := {}) keyed (by simpa [OrderedMap.keys,OrderedMap.toList] using nodup)
  have whole : s.toList = members := by simpa [toList] using stored
  have all : s.keys = keys := by simpa [OrderedMap.keys,OrderedMap.toList] using same
  exact ⟨s,folded,whole ▸ shown,all ▸ nodup⟩

theorem Dict.insert_absent {d : Dict} {hash}
    (hashed : HashKey.ofValue key = .ok hash) (absent : hash ∉ d.entries.keys) (value : Value) :
    d.insert key value = .ok ⟨d.entries.insert hash (key,value)⟩ := by
  have written : d.insertAt hash key value = ⟨d.entries.insert hash (key,value)⟩ := by rw [Dict.insertAt,get?_absent absent]
  rw [Dict.insert,hashed]
  exact congrArg Except.ok written

end Keys

structure MakesSets (k : Engine) (f : Frame) (w : World) : Prop where
  named : ∀ w', w.Grown w' → f.readGlobal "set" w' = .done (.type "set") w'
  called : ∀ w', w.Grown w' → k.call (.type "set") [] w' = newSet {} w'

theorem MakesSets.grown (makes : MakesSets k f w) (grown : w.Grown w') : MakesSets k f w' :=
  ⟨fun w'' more => makes.named w'' (grown.trans more),fun w'' more => makes.called w'' (grown.trans more)⟩

namespace Datum

mutual

theorem eval_code (d : Datum) (keyed : d.All Keyed) (w : World) (makes : MakesSets k f w) :
    ∃ v w', d.code.eval k f w = .done v w' ∧ Shows w'.heap v d ∧ w.Grown w' := by
  cases d with
  | none => exact ⟨_,w,rfl,.none,.refl w⟩
  | bool b => exact ⟨_,w,rfl,.bool b,.refl w⟩
  | int n => exact ⟨_,w,rfl,.int n,.refl w⟩
  | str text => exact ⟨_,w,rfl,.str text,.refl w⟩
  | list ds =>
    obtain ⟨vs,w₁,items,shown,grown⟩ := eval_codes ds keyed.2 w makes
    obtain ⟨v,w₂,made,read,more⟩ := newList_shows w₁ shown
    refine ⟨v,w₂,?_,read,grown.trans more⟩
    rw [code,eval,bind_done items,made]
  | tuple ds =>
    obtain ⟨vs,w₁,items,shown,grown⟩ := eval_codes ds keyed.2 w makes
    obtain ⟨v,w₂,made,read,more⟩ := newTuple_shows w₁ shown
    refine ⟨v,w₂,?_,read,grown.trans more⟩
    rw [code,eval,bind_done items,made]
  | set ds =>
    match ds with
    | [] =>
      obtain ⟨v,w',made,read,grown⟩ := @Exec.newSet_shows w {} [] .nil (by simp [keys,toList])
      refine ⟨v,w',?_,read,grown⟩
      have callee : eval k f (.global "set") w = .done (.type "set") w := makes.named w (.refl w)
      change eval k f (.call (.global "set") []) w = _
      rw [eval,bind_done callee,evalArguments,pure_bind,makes.called w (.refl w),made]
    | d :: ds =>
      obtain ⟨vs,w₁,items,shown,grown⟩ := eval_codes (d :: ds) keyed.2 w makes
      obtain ⟨s,collected,members,distinct⟩ := shown.ofValues keyed.1
      obtain ⟨v,w₂,made,read,more⟩ := newSet_shows w₁ members distinct
      refine ⟨v,w₂,?_,read,grown.trans more⟩
      change eval k f (.set (codes (d :: ds))) w = _
      rw [eval,bind_done items,collected]
      exact made
  | dict es =>
    obtain ⟨keys,known,nodup⟩ := keyed.1
    obtain ⟨d,entries,w₁,made₁,stored,same,shown,grown⟩ := eval_codesOf es keyed.2 w makes {} keys known
        (by simpa [OrderedMap.keys,OrderedMap.toList] using nodup)
    have whole : d.entries.toList = entries := by simpa [toList] using stored
    have all : d.entries.keys = keys := by simpa [OrderedMap.keys,OrderedMap.toList] using same
    obtain ⟨v,w₂,made₂,read,more⟩ := newDict_shows w₁ (whole ▸ shown) (all ▸ nodup)
    refine ⟨v,w₂,?_,read,grown.trans more⟩
    rw [code,eval,bind_done made₁,made₂]

theorem eval_codes (ds : List Datum) (keyed : Each Keyed ds) (w : World) (makes : MakesSets k f w) :
    ∃ vs w', evalItems k f (codes ds) w = .done vs w' ∧ ShowsAll w'.heap vs ds ∧
      w.Grown w' := by
  match ds with
  | [] => exact ⟨[],w,rfl,.nil,.refl w⟩
  | d :: ds =>
    obtain ⟨v,w₁,first,shown,grown⟩ := eval_code d keyed.1 w makes
    obtain ⟨vs,w₂,rest,others,more⟩ := eval_codes ds keyed.2 w₁ (makes.grown grown)
    refine ⟨v :: vs,w₂,?_,.cons (shown.mono more.heap) others,grown.trans more⟩
    rw [codes,evalItems,bind_done first,bind_done rest]
    rfl

theorem eval_codesOf (es : List Binding) (keyed : EachOf Keyed es) (w : World)
    (makes : MakesSets k f w) (d : Dict) (keys : List HashKey)
    (known : keys? (es.map Binding.key) = some keys) (nodup : (d.entries.keys ++ keys).Nodup) :
    ∃ d' entries w', evalEntries k f d (codesOf es) w = .done d' w' ∧ d'.entries.toList = d.entries.toList ++ entries ∧
      d'.entries.keys = d.entries.keys ++ keys ∧ ShowsEntries w'.heap entries es ∧
      w.Grown w' := by
  match es with
  | [] =>
    cases known
    exact ⟨d,[],w,rfl,by simp,by simp,.nil,.refl w⟩
  | .mk key value :: es =>
    obtain ⟨hash,others,rfl,ofKey,remaining⟩ := keys?_cons known
    obtain ⟨a,w₁,first,keyShown,grown₁⟩ := eval_code key keyed.1.1 w makes
    obtain ⟨b,w₂,second,valueShown,grown₂⟩ := eval_code value keyed.1.2 w₁ (makes.grown grown₁)
    have hashed := keyShown.hash ofKey
    have absent : hash ∉ d.entries.keys := fun mem => (List.nodup_append.mp nodup).2.2 hash mem hash (.head _) rfl
    have inserted := Dict.insert_absent hashed absent b
    have extended := keys_insert_absent absent (a,b)
    obtain ⟨d',entries,w₃,rest,stored,keys,shown,grown₃⟩ := eval_codesOf es keyed.2 w₂ (makes.grown (grown₁.trans grown₂))
        ⟨d.entries.insert hash (a,b)⟩ others remaining (by rw [extended]; simpa using nodup)
    have later := grown₂.trans grown₃
    refine ⟨d',(hash,a,b) :: entries,w₃,?_,?_,?_,.cons hashed (keyShown.mono later.heap) (valueShown.mono grown₃.heap) shown,
      grown₁.trans later⟩
    · rw [codesOf,evalEntries,bind_done first,bind_done second,inserted]
      exact rest
    · simp [stored,toList_insert_absent absent]
    · simp [keys,extended]

end

end Datum

end EmbedScript
