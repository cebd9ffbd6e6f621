import EmbedScript.Proofs.Iteration.Generator
import EmbedScript.Proofs.Keyword.Confined

namespace EmbedScript

open Exec Compile List Scope Code

-- The names of the target

-- Each name that the store binds is a slot of its own frame.
mutual

def Store.Within (locals : List String) : Store → Prop
  | .cell place name _ => ∃ slot, locals[slot]? = some name ∧ place = .slot slot
  | .global _ => False
  | .attribute .. | .index .. => True
  | .tuple items => Store.AllWithin locals items

def Store.AllWithin (locals : List String) : List Store → Prop
  | [] => True
  | store :: stores => store.Within locals ∧ Store.AllWithin locals stores

end

structure Scope.Comprehends (s : Scope) (locals : List String) : Prop where
  kind : s.kind = .function
  globals : s.globals = []
  locals : s.locals = locals

def CompileState.Comprehends (st : CompileState) (locals : List String) : Prop :=
  ∃ s outer, st.scopes = s :: outer ∧ s.Comprehends locals

section

variable {env : CompileEnv} {st left : CompileState} {locals : List String} {store : Store}

theorem Scope.Comprehends.of_bare {s t : Scope} (comprehends : s.Comprehends locals)
    (same : t.bare = s.bare) : t.Comprehends locals := by
  obtain ⟨kind,globals,rfl⟩ := comprehends
  exact ⟨(congrArg Scope.kind same).trans kind,(congrArg Scope.globals same).trans globals,(congrArg Scope.locals same :)⟩

theorem CompileState.Comprehends.kept (inside : st.Comprehends locals)
    (kept : left.scopes.map bare = st.scopes.map bare) : left.Comprehends locals := by
  obtain ⟨s,outer,scopes,comprehends⟩ := inside
  rw [scopes] at kept
  obtain ⟨t,rest,split,same,-⟩ := map_eq_cons_iff.mp kept
  exact ⟨t,rest,split,comprehends.of_bare same⟩

theorem Scope.Comprehends.declareAll {s : Scope} (comprehends : s.Comprehends locals)
    (distinct : locals.Nodup) (names : List String) :
    ∃ all, (s.declareAll names).Comprehends all ∧ all.Nodup ∧ ∀ name, name ∈ all ↔ name ∈ locals ∨ name ∈ names := by
  induction names generalizing s locals with
  | nil => exact ⟨locals,comprehends,distinct,by simp⟩
  | cons first names ih =>
    by_cases present : first ∈ locals
    · have same : s.declare first = s := by rw [declare,comprehends.locals,if_pos (contains_iff_mem.mpr present)]
      obtain ⟨all,declared,distinct,members⟩ := ih comprehends distinct
      refine ⟨all,?_,distinct,fun name => (members name).trans ?_⟩
      · rw [declareAll,foldl_cons,same]
        exact declared
      · grind
    · have longer : (s.declare first).Comprehends (locals ++ [first]) := by
        obtain ⟨kind,globals,rfl⟩ := comprehends
        rw [declare,if_neg (mt contains_iff_mem.mp present)]
        exact ⟨kind,globals,rfl⟩
      obtain ⟨all,declared,distinct,members⟩ := ih longer (nodup_append.mpr ⟨distinct,by simp,by grind⟩)
      exact ⟨all,declared,distinct,fun name => (members name).trans (by grind)⟩

theorem storeName_within (inside : st.Comprehends locals) (declared : name ∈ locals)
    (ran : storeName name .dynamic env st = .ok (store,left)) : store.Within locals := by
  obtain ⟨s,outer,scopes,kind,globals,rfl⟩ := inside
  obtain ⟨slot,found⟩ := Option.ne_none_iff_exists'.mp (mt idxOf?_eq_none_iff.mp (not_not_intro declared))
  have resolved : find name true st.scopes = (some (.slot slot),st.scopes) := by
    rw [scopes,find]
    simp [endsSearch,visible?,slot?,kind,globals,found]
  obtain ⟨bound,same,-⟩ := idxOf?_eq_some_iff.mp found
  rw [storeName,bind_ok (resolve_apply name),resolved] at ran
  obtain ⟨declared,middle,-,ran⟩ := bind_eq_ok ran
  cases ran
  exact ⟨slot,List.getElem?_eq_some_iff.mpr ⟨bound,same⟩,rfl⟩

mutual

theorem Target.compileStore_within : (target : Target) → (∀ name ∈ target.names, name ∈ locals) →
    ∀ ⦃st left store⦄, CompileState.Comprehends st locals →
      target.compileStore .dynamic env st = .ok (store,left) → store.Within locals
  | .name n, declared, _, _, _, inside, ran => storeName_within inside (declared n (by simp [Target.names])) ran
  | .attribute object n, _, _, _, _, _, ran => by
    obtain ⟨here,_,_,ran⟩ := bind_eq_ok ran
    obtain ⟨code,_,_,ran⟩ := bind_eq_ok ran
    cases ran
    trivial
  | .index object place, _, _, _, _, _, ran => by
    obtain ⟨here,_,_,ran⟩ := bind_eq_ok ran
    obtain ⟨code,_,_,ran⟩ := bind_eq_ok ran
    obtain ⟨here,_,_,ran⟩ := bind_eq_ok ran
    obtain ⟨code,_,_,ran⟩ := bind_eq_ok ran
    cases ran
    trivial
  | .tuple items, declared, _, _, _, inside, ran => by
    obtain ⟨stores,middle,ran,ended⟩ := bind_eq_ok ran
    cases ended
    exact Target.compileStores_within items declared inside ran

theorem Target.compileStores_within : (items : List Target) → (∀ name ∈ Target.names.many items, name ∈ locals) →
    ∀ ⦃st left stores⦄, CompileState.Comprehends st locals →
      Target.compileStores items env st = .ok (stores,left) → Store.AllWithin locals stores
  | [], _, _, _, _, _, ran => by
    cases ran
    trivial
  | item :: items, declared, _, _, _, inside, ran => by
    obtain ⟨store,middle,first,ran⟩ := bind_eq_ok ran
    obtain ⟨stores,last,rest,ended⟩ := bind_eq_ok ran
    cases ended
    have kept : Compile.Keeps (item.compileStore .dynamic) := item.compileStore_keeps
    rw [Target.names.many,forall_mem_append] at declared
    exact ⟨Target.compileStore_within item declared.1 inside first,
      Target.compileStores_within items declared.2 (inside.kept (kept first)) rest⟩

end

end

def Collection.compileElement : Collection → Expr → Compile Code
  | .dict, .dict [.pair key value] => do
    let key ← key.compile false
    let value ← value.compile false
    return .tuple [.one key.code,.one value.code]
  | .dict, .dict _ => refuse .dictComprehension
  | _, element => do
    let element ← element.compile false
    return element.code

theorem Collection.compileElement_keeps (kind : Collection) (element : Expr) : Compile.Keeps (kind.compileElement element) := by
  unfold Collection.compileElement
  split
  · exact .pair (Expr.compile_keeps false _) (Expr.compile_keeps false _)
  · exact .refuse _
  · exact .map (Expr.compile_keeps false _)

def Compile.Inside {α : Type} (env : CompileEnv) (locals : List String) (x : Compile α) (a : α) : Prop :=
  ∃ st left, CompileState.Comprehends st locals ∧ x env st = .ok (a,left)

/-- The plan of a comprehension: its parts are compiled in a scope of their own, whose locals are the
names of the target. -/
structure ElementPlan.Compiled (p : ElementPlan) (env : CompileEnv) (locals : List String)
    (kind : Collection) (element : Expr) (target : Target) (condition : Option Expr) : Prop where
  distinct : locals.Nodup
  names (name : String) : name ∈ locals ↔ name ∈ target.names
  slots : p.slots = locals.length
  store : Inside env locals (target.compileStore .dynamic) p.store
  condition : Inside env locals (Expr.compileOption false condition) p.condition
  element : Inside env locals (kind.compileElement element) p.element

section

variable {kind : Collection} {element : Expr} {target : Target} {condition : Option Expr}
  {env : CompileEnv} {st left : CompileState} {t : Typed}

theorem compiled_of_collecting {source : Bool → Compile Typed} {label : Scope → String}
    {collect : Store → Option Code → Compile (Store × Option Code × Code)}
    (collects : ∀ ⦃s c env st parts left⦄, collect s c env st = .ok (parts,left) →
      ∃ e, kind.compileElement element env st = .ok (e,left) ∧ parts = (s,c,e))
    (ran : (do
      let here ← isTyped
      let found ← source here
      let s ← scope
      let inside ← within (declareAll { kind := .function, qualname := label s } target.names) (do
        let s ← target.compileStore .dynamic
        let c ← Expr.compileOption false condition
        collect s c)
      let made ← addElement {
        slots := inside.2.locals.length, captures := inside.2.captures.map (·.2), store := inside.1.1,
        condition := inside.1.2.1, element := inside.1.2.2 }
      return Typed.dynamic (.comprehension kind found.code made) : Compile Typed) env st = .ok (t,left)) :
    ∃ here found outer plan p locals, source here env st = .ok (found,outer) ∧
      t = Typed.dynamic (.comprehension kind found.code plan) ∧
      left.plans.elements[plan]? = some p ∧ p.Compiled env locals kind element target condition := by
  obtain ⟨here,_,typed,ran⟩ := bind_eq_ok ran
  cases typed
  obtain ⟨found,outer,first,ran⟩ := bind_eq_ok ran
  rw [bind_ok scope_apply] at ran
  generalize label _ = name at ran
  obtain ⟨⟨parts,last⟩,closed,body,ran⟩ := bind_eq_ok ran
  obtain ⟨middle,inside,rfl,rfl⟩ := within_eq_ok body
  cases ran
  obtain ⟨store,stored,storing,inside⟩ := bind_eq_ok inside
  obtain ⟨test,tested,testing,inside⟩ := bind_eq_ok inside
  obtain ⟨e,compiled,rfl⟩ := collects inside
  have blank : Comprehends { kind := .function, qualname := name } [] := ⟨rfl,rfl,rfl⟩
  obtain ⟨locals,declared,distinct,names⟩ := blank.declareAll .nil target.names
  have opened : CompileState.Comprehends { outer with scopes := _ :: outer.scopes } locals := ⟨_,_,rfl,declared⟩
  have kept : Compile.Keeps (target.compileStore .dynamic) := target.compileStore_keeps
  have bound : stored.Comprehends locals := opened.kept (kept storing)
  have kept : Compile.Keeps (Expr.compileOption false condition) := Expr.compileOption_keeps false condition
  have asked : tested.Comprehends locals := bound.kept (kept testing)
  obtain ⟨s,around,scopes,left⟩ := asked.kept (kind.compileElement_keeps element compiled)
  refine ⟨_,found,outer,_,_,locals,first,rfl,Array.getElem?_push_size,{
    distinct, names := by simpa using names, slots := ?_, store := ⟨_,_,opened,storing⟩,
    condition := ⟨_,_,bound,testing⟩, element := ⟨_,_,asked,compiled⟩ }⟩
  rw [scopes]
  exact congrArg length left.locals

theorem Expr.compile_comprehension {iterable typed}
    (ran : (Expr.comprehension kind element target iterable condition).compile typed env st = .ok (t,left)) :
    ∃ here source outer plan p locals, iterable.compile here env st = .ok (source,outer) ∧
      t = Typed.dynamic (.comprehension kind source.code plan) ∧
      left.plans.elements[plan]? = some p ∧ p.Compiled env locals kind element target condition := by
  have simple : ∀ ⦃s : Store⦄ ⦃c : Option Code⦄ ⦃env st parts left⦄, (do
      let element ← element.compile false
      return (s,c,element.code) : Compile _) env st = .ok (parts,left) →
      ∃ e, (do return (← element.compile false).code : Compile Code) env st = .ok (e,left) ∧ parts = (s,c,e) := by
    intro s c env st parts left ran
    obtain ⟨e,middle,compiled,ended⟩ := bind_eq_ok ran
    cases ended
    exact ⟨e.code,bind_ok compiled _,rfl⟩
  cases kind with
  | dict =>
    cases element with
    | dict entries =>
      match entries with
      | [.pair key value] =>
        refine compiled_of_collecting ?_ ran
        intro s c env st parts left ran
        obtain ⟨k,middle,first,ran⟩ := bind_eq_ok ran
        obtain ⟨v,last,second,ended⟩ := bind_eq_ok ran
        cases ended
        exact ⟨_,(bind_ok first _).trans (bind_ok second _),rfl⟩
      | [] | .pair _ _ :: _ :: _ | .unpack _ :: _ =>
        refine compiled_of_collecting ?_ ran
        intro s c env st parts left ran
        obtain ⟨_,_,refused,-⟩ := bind_eq_ok ran
        cases refused
    | _ => exact compiled_of_collecting simple ran
  | _ => exact compiled_of_collecting simple ran

end

def World.making (w : World) (info : GeneratorInfo) : World :=
  { w with heap := { w.heap with generators := w.heap.generators.push info } }

def Frame.generatorOver (f : Frame) (r : Ref .list) (plan : Nat) (p : ElementPlan) : GeneratorInfo :=
  ⟨.list r,plan,f.captured p.captures,f.home⟩

theorem newFrame_apart {captures} (opened : newFrame slots captures home w = .done f left) :
    f.base = w.heap.cells.size := by
  cases opened
  rfl

def Value.Pairs (v : Value) (entry : Value × Value) : Prop := ∃ tag, v = .tuple tag [entry.1,entry.2]

namespace Engine

variable {n : Nat} {f : Frame} {w u last : World} {r : Ref .list} {p : ElementPlan} {plan : Nat}
  {kind : Collection} {source : Code} {results : List (Option Value)}

theorem eval_comprehension (given : source.eval (engine n) f w = .done (.list r) u) (planned : w.plans.elements[plan]? = some p) :
    (comprehension kind source plan).eval (engine n) f w =
      (engine n).collectInto kind (.generator ⟨u.heap.generators.size⟩) (u.making (f.generatorOver r plan p)) := by
  have runs : growing.Quiet true (source.eval (engine n) f) := Accord.rel_eval f source
  have still := (runs.done given).element planned
  rw [eval,bind_done given,bind_done (look_apply ..),still]
  rfl

theorem generator_lasts (given : source.eval (engine n) f w = .done (.list r) u)
    (planned : w.plans.elements[plan]? = some p) (reached : (u.making (f.generatorOver r plan p)).Grows v) :
    v.heap.generators[u.heap.generators.size]? = some (f.generatorOver r plan p) ∧ v.plans.elements[plan]? = some p := by
  have runs : growing.Quiet true (source.eval (engine n) f) := Accord.rel_eval f source
  have still := (runs.done given).element planned
  refine ⟨?_,reached.element still⟩
  obtain ⟨more,split⟩ := reached.heap.generators
  rw [← Array.getElem?_toList,← split]
  simp [World.making]

theorem dictOfPairs_eq {pairs entries} (split : Forall₂ Value.Pairs pairs entries) :
    dictOfPairs pairs = (do newDict (← Dict.insertItems {} entries)) := by
  unfold dictOfPairs
  refine congrArg (· >>= newDict) ?_
  generalize ({} : Dict) = d
  induction split generalizing d with
  | nil => rfl
  | @cons v entry pairs entries split _ ih =>
    obtain ⟨tag,rfl⟩ := split
    rw [foldlM_cons,Dict.insertItems,foldlM_cons]
    dsimp only
    cases d.insert entry.1 entry.2 with
    | error e => rfl
    | ok inserted => exact ih inserted

theorem makes_pair {captures} (element : p.element = .tuple [.one key,.one value])
    (makes : p.Makes k captures home item w (some v) last) : ∃ entry, v.Pairs entry := by
  cases makes with
  | element frame put holds made =>
    rw [element] at made
    obtain ⟨items,_,evaluated,made⟩ := bind_eq_done made
    obtain ⟨a,_,_,evaluated⟩ := bind_eq_done evaluated
    obtain ⟨rest,_,evaluated,ended⟩ := bind_eq_done evaluated
    cases ended
    obtain ⟨b,_,_,evaluated⟩ := bind_eq_done evaluated
    obtain ⟨none,_,evaluated,ended⟩ := bind_eq_done evaluated
    cases ended
    cases evaluated
    cases made
    exact ⟨(a,b),_,rfl⟩

theorem Collects.pairs {inner} {k : Engine} {items}
    (collects : k.Collects makes g inner outer w items results last)
    (pair : ∀ ⦃item w v left⦄, makes item w (some v) left → ∃ entry, v.Pairs entry) :
    ∃ entries, Forall₂ Value.Pairs (results.filterMap id) entries := by
  induction collects with
  | ended => exact ⟨[],.nil⟩
  | @item _ _ _ _ _ _ result _ _ _ made _ ih =>
    obtain ⟨entries,split⟩ := ih
    cases result with
    | none => exact ⟨entries,split⟩
    | some v =>
      obtain ⟨entry,here⟩ := pair made
      exact ⟨entry :: entries,.cons here split⟩

end Engine

theorem ElementPlan.Compiled.entry {p : ElementPlan} {locals condition}
    (compiled : p.Compiled env locals .dict (.dict entries) target condition) :
    ∃ key value, p.element = .tuple [.one key,.one value] := by
  obtain ⟨st,left,-,ran⟩ := compiled.element
  match entries with
  | [.pair key value] =>
    obtain ⟨key,_,_,ran⟩ := bind_eq_ok ran
    obtain ⟨value,_,_,ran⟩ := bind_eq_ok ran
    injection ran with both
    injection both with made
    exact ⟨_,_,made.symm⟩
  | [] | .pair _ _ :: _ :: _ | .unpack _ :: _ => cases ran

section

variable {kind : Collection} {element : Expr} {target : Target} {iterable : Expr}
  {condition : Option Expr} {typed : Bool} {env : CompileEnv} {st left : CompileState} {t : Typed}

/-- A comprehension is the filter-map of its source: a list, a set and a dict hold what the plan
makes of the items, in their order, and a generator gives it whenever it is consumed. The names of
the target are slots of a frame of their own, whose cells are new for each item. -/
theorem comprehension_filterMaps
    (ran : (Expr.comprehension kind element target iterable condition).compile typed env st =
      .ok (t, left)) :
    ∃ here source outer plan p locals, iterable.compile here env st = .ok (source, outer) ∧
      t = Typed.dynamic (.comprehension kind source.code plan) ∧
      left.plans.elements[plan]? = some p ∧ p.Compiled env locals kind element target condition ∧
      p.store.Within locals ∧ left.scopes.map Scope.bare = st.scopes.map Scope.bare ∧
      ∀ n f w r u, source.code.eval (engine (n + 1)) f w = .done (.list r) u →
        w.plans.elements[plan]? = some p →
        (∀ v frame start, u.Grows v →
          newFrame p.slots (f.captured p.captures) f.home v = .done frame start →
            u.heap.cells.size ≤ frame.base) ∧
        (kind = .generator → t.code.eval (engine (n + 1)) f w =
          .done (.generator ⟨u.heap.generators.size⟩) (u.making (f.generatorOver r plan p))) ∧
        (∀ results last, results.length + 2 ≤ n →
          (engine (n + 1)).Consumes (p.Makes (engine n) (f.captured p.captures) f.home)
            ⟨u.heap.generators.size⟩ r (u.making (f.generatorOver r plan p)) results last →
          (kind = .list →
            t.code.eval (engine (n + 1)) f w = newList (results.filterMap id) last) ∧
          (kind = .set → t.code.eval (engine (n + 1)) f w =
            (do newSet (← ValueSet.ofValues (results.filterMap id)) : Exec Value) last) ∧
          (kind = .dict → ∀ entries, element = .dict entries →
            ∃ pairs, List.Forall₂ Value.Pairs (results.filterMap id) pairs ∧
              t.code.eval (engine (n + 1)) f w =
                (do newDict (← Dict.insertItems {} pairs) : Exec Value) last)) ∧
        ∀ m v results last, (u.making (f.generatorOver r plan p)).Grows v → results.length + 2 ≤ m →
          (engine (m + 1)).Consumes (p.Makes (engine m) (f.captured p.captures) f.home)
            ⟨u.heap.generators.size⟩ r v results last →
          (engine (m + 1)).items (.generator ⟨u.heap.generators.size⟩) v =
            .done (results.filterMap id) last ∧
          ∃ c start, (engine (m + 1)).iter (.generator ⟨u.heap.generators.size⟩) v = .done c start ∧
            (engine (m + 1)).Gives c start (results.filterMap id) last := by
  have kept : left.scopes.map Scope.bare = st.scopes.map Scope.bare :=
    (Expr.compile_keeps typed _ : Compile.Keeps _) ran
  obtain ⟨here, source, outer, plan, p, locals, given, rfl, planned, compiled⟩ :=
    Expr.compile_comprehension ran
  have within : p.store.Within locals := by
    obtain ⟨_, _, inside, stored⟩ := compiled.store
    exact target.compileStore_within (fun name among => (compiled.names name).mpr among) inside stored
  refine ⟨here, source, outer, plan, p, locals, given, rfl, planned, compiled, within, kept, ?_⟩
  intro n f w r u evaluated installed
  have evaluates : (Code.comprehension kind source.code plan).eval (engine (n + 1)) f w = _ :=
    Engine.eval_comprehension evaluated installed
  refine ⟨?_, ?_, ?_, ?_⟩
  · intro v frame start reached opened
    rw [newFrame_apart opened]
    exact reached.heap.cells
  · rintro rfl
    exact evaluates
  · intro results last enough consumes
    obtain ⟨there, planned⟩ := Engine.generator_lasts evaluated installed (.refl _)
    have items := Engine.items_generator there rfl planned consumes enough
    refine ⟨?_, ?_, ?_⟩
    · rintro rfl
      exact evaluates.trans (bind_done items _)
    · rintro rfl
      exact evaluates.trans (bind_done items _)
    · rintro rfl entries rfl
      obtain ⟨key, value, pair⟩ := compiled.entry
      obtain ⟨pairs, split⟩ := consumes.pairs fun _ _ _ _ makes => Engine.makes_pair pair makes
      refine ⟨pairs, split, ?_⟩
      rw [← Engine.dictOfPairs_eq split]
      exact evaluates.trans (bind_done items _)
  · intro m v results last reached enough consumes
    obtain ⟨there, planned⟩ := Engine.generator_lasts evaluated installed reached
    exact ⟨Engine.items_generator there rfl planned consumes enough, _, _,
      Engine.gives_generator there rfl planned consumes enough⟩

end

-- `[x for x in xs if x]`, where `xs` is a list of `False` and `'a'`.
def picked : Expr := .comprehension .list (.name "x") (.name "x") (.name "xs") (some (.name "x"))

def pickedPlan : ElementPlan := ⟨1,[],.cell (.slot 0) "x" .dynamic,some (.slot 0 "x" false),.slot 0 "x" false⟩

def pickedWorld (generators : Array GeneratorInfo) (cursors : Array CursorInfo) (cells : Array (Option Value)) : World where
  maxDepth := 10
  types := ⟨[]⟩
  plans := { elements := #[pickedPlan] }
  heap := {
    lists := #[#[.bool false,.str "a"]], modules := #[⟨"main",⟨#[("xs",.list ⟨0⟩)]⟩⟩]
    generators, cursors, cells }

def pickedGenerator : GeneratorInfo := ⟨.list ⟨0⟩,0,#[],⟨0⟩⟩

def pickedAt (index : Nat) (cells : Array (Option Value)) : World :=
  pickedWorld #[pickedGenerator] #[⟨.list ⟨0⟩ index,false⟩,⟨.mapped ⟨0⟩ ⟨0⟩,false⟩] cells

theorem picked_consumes : (engine 6).Consumes (pickedPlan.Makes (engine 5) #[] ⟨0⟩) ⟨0⟩ ⟨0⟩
    (pickedWorld #[pickedGenerator] #[] #[]) [none,some (.str "a")]
    (pickedAt 3 #[some (.bool false),some (.str "a")]) := by
  have walks (index : Nat) (cells : Array (Option Value)) :
      (pickedAt index cells).Walks ⟨0⟩ ⟨0⟩ ⟨1⟩ (drop index [.bool false,.str "a"]) :=
    ⟨rfl,.list ⟨0⟩ index⟩
  have first : pickedPlan.Makes (engine 5) #[] ⟨0⟩ (.bool false) (pickedAt 1 #[]) none (pickedAt 1 #[some (.bool false)]) := by
    have frame : newFrame 1 #[] ⟨0⟩ (pickedAt 1 #[]) = .done ⟨0,#[],⟨0⟩⟩ (pickedAt 1 #[none]) := rfl
    have put : pickedPlan.store.put (engine 5) ⟨0,#[],⟨0⟩⟩ (.bool false) (pickedAt 1 #[none]) =
      .done () (pickedAt 1 #[some (.bool false)]) := rfl
    have read : (Code.slot 0 "x" false).eval (engine 5) ⟨0,#[],⟨0⟩⟩ (pickedAt 1 #[some (.bool false)]) =
      .done (.bool false) (pickedAt 1 #[some (.bool false)]) := rfl
    exact .nothing frame put (.asked rfl read rfl)
  have second : pickedPlan.Makes (engine 5) #[] ⟨0⟩ (.str "a") (pickedAt 2 #[some (.bool false)])
      (some (.str "a")) (pickedAt 2 #[some (.bool false),some (.str "a")]) := by
    have frame : newFrame 1 #[] ⟨0⟩ (pickedAt 2 #[some (.bool false)]) =
      .done ⟨1,#[],⟨0⟩⟩ (pickedAt 2 #[some (.bool false),none]) := rfl
    have put : pickedPlan.store.put (engine 5) ⟨1,#[],⟨0⟩⟩ (.str "a") (pickedAt 2 #[some (.bool false),none]) =
        .done () (pickedAt 2 #[some (.bool false),some (.str "a")]) := rfl
    have read : (Code.slot 0 "x" false).eval (engine 5) ⟨1,#[],⟨0⟩⟩ (pickedAt 2 #[some (.bool false),some (.str "a")]) =
        .done (.str "a") (pickedAt 2 #[some (.bool false),some (.str "a")]) := rfl
    exact .element frame put (.asked rfl read rfl) read
  exact .item (walks 0 #[]) rfl first (.item (walks 1 _) rfl second (.ended (walks 2 _) rfl))

theorem comprehension_filterMaps_picked :
    ∃ t left last, picked.compile false ⟨⟨[]⟩, {}⟩
        { scopes := [{ kind := .module, qualname := "<module>" }] } = .ok (t, left) ∧
      t.code.eval (engine 6) ⟨0, #[], ⟨0⟩⟩ (pickedWorld #[] #[] #[]) = newList [.str "a"] last ∧
      (engine 6).items (.generator ⟨0⟩) (pickedWorld #[pickedGenerator] #[] #[]) =
        .done [.str "a"] last := by
  have ran : picked.compile false ⟨⟨[]⟩, {}⟩ { scopes := [{ kind := .module, qualname := "<module>" }] } =
    .ok (Typed.dynamic (.comprehension .list (.global "xs") 0),
      { scopes := [{ kind := .module, qualname := "<module>" }], plans := { elements := #[pickedPlan] } }) := rfl
  obtain ⟨_, source, _, plan, p, _, _, code, planned, _, _, _, runs⟩ := comprehension_filterMaps ran
  injection congrArg Typed.code code with _ same index
  subst index
  cases planned
  have given : source.code.eval (engine 6) ⟨0, #[], ⟨0⟩⟩ (pickedWorld #[] #[] #[]) =
    .done (.list ⟨0⟩) (pickedWorld #[] #[] #[]) := same ▸ rfl
  obtain ⟨-, -, gathered, consumed⟩ := runs 5 ⟨0, #[], ⟨0⟩⟩ _ ⟨0⟩ _ given rfl
  refine ⟨_, _, _, ran, (gathered _ _ (by decide) picked_consumes).1 rfl, ?_⟩
  exact (consumed 5 _ _ _ (.refl _) (by decide) picked_consumes).1

-- The element is evaluated anew whenever the generator is consumed, so what it gives may be another
-- sequence, though the source is the same.
theorem generator_anew :
    (Request.serve Interpreter.k (.runSource "main"
        "c = [1, 2]\ng = (c.pop() for x in [0])\nprint(list(g), list(g))\n") shallowWorld).result?.map
      (·.2.output) = some "[2] [1]\n" := by
  decide +kernel

end EmbedScript
