import EmbedScript.Proofs.Code.Compile

/-!
What compiling an expression does to the state around it. A `Compile.Law` is a relation between the
states before and after that every expression keeps.
-/

namespace EmbedScript

open Scope

def Scope.bare (s : Scope) : Scope := { s with captures := [] }

theorem Scope.find_bare (name : String) (innermost : Bool) (scopes : List Scope) :
    (find name innermost scopes).2.map bare = scopes.map bare := by
  fun_induction find name innermost scopes with
  | case1 | case2 | case3 | case4 => rfl
  | case5 innermost s outer _ _ _ after missed ih =>
    rw [missed] at ih
    exact congrArg (s.bare :: ·) ih
  | case6 innermost s outer _ _ _ place after found ih =>
    rw [found] at ih
    exact congrArg (s.bare :: ·) ih

def Scope.place (s : Scope) : ScopeKind × Nat × Option Kind := (s.kind,s.loops,s.returns)

@[simp] theorem Scope.declareAll_place (s : Scope) (names : List String) : (s.declareAll names).place = s.place := by
  induction names generalizing s with
  | nil => rfl
  | cons name names ih =>
    refine (ih (s.declare name)).trans ?_
    unfold declare
    split <;> rfl

@[simp] theorem Scope.declareBound_place (s : Scope) (bound : Bound) : (s.declareBound bound).place = s.place :=
  declareAll_place _ _

namespace Compile

-- What compiling may do to its state. It resolves names, adds plans, and opens scopes that it leaves
-- again; `fits` tells which bodies routines have.
structure Law where
  rel : CompileState → CompileState → Prop
  fits : Body → Prop
  refl (st : CompileState) : rel st st
  trans {st middle left : CompileState} : rel st middle → rel middle left → rel st left
  captures {st : CompileState} {scopes : List Scope} :
    scopes.map bare = st.scopes.map bare → rel st { st with scopes }
  leaves {st left : CompileState} {inner : Scope} :
    rel { st with scopes := inner :: st.scopes } left → rel st { left with scopes := left.scopes.tail }
  plansRoutine {st : CompileState} {plan : RoutinePlan} : fits plan.body →
    rel st { st with plans := { st.plans with routines := st.plans.routines.push plan } }
  plansElement {st : CompileState} {plan : ElementPlan} :
    rel st { st with plans := { st.plans with elements := st.plans.elements.push plan } }
  value (code : Code) : fits (.value code)

def Law.Keeps (law : Law) (x : Compile α) : Prop := ∀ ⦃env st a left⦄, x env st = .ok (a,left) → law.rel st left

variable {law : Law} {f : α → Compile β}

variable (type : HostType)

theorem within_eq_ok {inner} (ran : within inner x env st = .ok (result,left)) :
    ∃ middle, x env { st with scopes := inner :: st.scopes } = .ok (result.1,middle) ∧
      result.2 = middle.scopes.head?.getD { kind := .module, qualname := "<module>" } ∧
      left = { middle with scopes := middle.scopes.tail } := by
  have opened : within inner x env st = (do
      let result ← x
      let last ← scope
      modify fun (s : CompileState) => { s with scopes := s.scopes.tail }
      return (result,last)) env { st with scopes := inner :: st.scopes } := rfl
  rw [opened] at ran
  obtain ⟨b,middle,started,ran⟩ := bind_eq_ok ran
  cases ran
  exact ⟨middle,started,rfl,rfl⟩

namespace Law

theorem Keeps.pure (a : α) : law.Keeps (Pure.pure a) := by
  intro env st b left ran
  cases ran
  exact law.refl st

theorem Keeps.bind (first : law.Keeps x) (rest : ∀ a, law.Keeps (f a)) : law.Keeps (x >>= f) := by
  intro env st b left ran
  obtain ⟨a,middle,started,ran⟩ := bind_eq_ok ran
  exact law.trans (first started) (rest a ran)

theorem Keeps.map {g : α → β} (first : law.Keeps x) : law.Keeps (do return g (← x)) := first.bind fun _ => .pure _

theorem Keeps.pair {γ} {g : α → β → γ} (first : law.Keeps x)
    (second : law.Keeps y) : law.Keeps (do return g (← x) (← y)) :=
  first.bind fun _ => second.map

variable (cause : CompileCause)

theorem Keeps.refuse : law.Keeps (refuse cause : Compile α) := by
  intro env st a left ran
  cases ran

theorem Keeps.scope : law.Keeps scope := by
  intro env st a left ran
  cases ran
  exact law.refl st

theorem Keeps.isTyped : law.Keeps isTyped := by
  intro env st a left ran
  cases ran
  exact law.refl st

theorem Keeps.read : law.Keeps (read) := by
  intro env st a left ran
  cases ran
  exact law.refl st

theorem Keeps.resolve (name : String) : law.Keeps (resolve name) := by
  intro env st a left ran
  cases ran
  exact law.captures (find_bare name true st.scopes)

theorem Keeps.addElement (plan : ElementPlan) : law.Keeps (addElement plan) := by
  intro env st a left ran
  cases ran
  exact law.plansElement

theorem Keeps.within (inner : Scope) (body : law.Keeps x) : law.Keeps (within inner x) := by
  intro env st a left ran
  obtain ⟨middle,inside,-,rfl⟩ := within_eq_ok ran
  exact law.leaves (body inside)

theorem Keeps.mapM (each : ∀ a, law.Keeps (f a)) (items : List α) : law.Keeps (items.mapM f) := by
  induction items with
  | nil =>
    exact .pure _
  | cons item items ih =>
    rw [List.mapM_cons]
    exact (each item).pair ih

theorem Keeps.foldlM {f} (each : ∀ b a, law.Keeps (f b a)) (items : List α) (b : β) :
    law.Keeps (items.foldlM f b) := by
  induction items generalizing b with
  | nil => exact .pure _
  | cons item items ih => exact (each b item).bind ih

theorem Keeps.option (each : ∀ a, law.Keeps (f a)) (value : Option α) : law.Keeps (value.mapM f) := by
  cases value with
  | none => exact .pure _
  | some a => exact (each a).map

theorem Keeps.guarded {_ : Decidable refused} (rest : law.Keeps x) : law.Keeps (do
      if refused then Compile.refuse cause
      x) := by
  by_cases outcome : refused
  · rw [if_pos outcome]
    exact .bind (.refuse _) fun _ => rest
  · rw [if_neg outcome]
    exact rest

theorem Keeps.forIn {f} (each : ∀ a b, law.Keeps (f a b))
    (items : List α) (b : β) : law.Keeps (ForIn.forIn items b f) := by
  induction items generalizing b with
  | nil =>
    exact .pure _
  | cons item items ih =>
    rw [List.forIn_cons]
    refine (each item b).bind fun step => ?_
    cases step with
    | done b => exact .pure _
    | yield b => exact ih b

theorem Keeps.collecting {source : Bool → Compile Typed} {inner : Scope → Scope}
    {element : Store → Option Code → Compile α}
    {plan : α × Scope → ElementPlan} {result : Typed → Nat → Typed}
    (outside : ∀ here, law.Keeps (source here)) (first : law.Keeps store) (second : law.Keeps condition)
    (last : ∀ s c, law.Keeps (element s c)) :
    law.Keeps (do
      let here ← Compile.isTyped
      let found ← source here
      let s ← Compile.scope
      let inside ← Compile.within (inner s) (do
        let s ← store
        let c ← condition
        element s c)
      let made ← Compile.addElement (plan inside)
      Pure.pure (result found made)) := by
  refine .bind .isTyped fun here => .bind (outside here) fun _ => .bind .scope fun s => ?_
  exact .bind (.within (inner s) (first.bind fun _ => second.bind fun _ => last _ _)) fun _ => .map (.addElement _)

end Law

-- The law of expressions: they leave the scopes as they are, but for what these capture.
def capturing : Law where
  rel st left := left.scopes.map bare = st.scopes.map bare
  fits _ := True
  refl _ := rfl
  trans first rest := rest.trans first
  captures kept := kept
  leaves kept := by rw [List.map_tail,kept,List.map_cons,List.tail_cons]
  plansRoutine _ := rfl
  plansElement := rfl
  value _ := trivial

abbrev Keeps (x : Compile α) : Prop := capturing.Keeps x

theorem readName_keeps (name : String) : law.Keeps (readName name) := by
  refine .bind .scope fun _ => .bind (.resolve name) fun place => ?_
  split <;> exact .pure _

theorem nameKind_keeps (name : String) : law.Keeps (nameKind name) := by
  refine .bind (.resolve name) fun place => ?_
  split
  · exact .bind .scope fun _ => .pure _
  · exact .pure _

theorem declaredKind_keeps (slot : Nat) : law.Keeps (declaredKind slot .dynamic) := by
  refine .bind .scope fun s => ?_
  split
  · exact .pure _
  · rw [if_neg (fun claimed => claimed.2 rfl)]
    exact .pure _

theorem storeName_keeps (name : String) : law.Keeps (storeName name .dynamic) := by
  refine .bind (.resolve name) fun place => ?_
  cases place with
  | none => exact .pure _
  | some place =>
    have last (declared : Kind) : law.Keeps (do
        if Kind.dynamic ≠ .dynamic ∧ ¬ Kind.dynamic.widensTo declared then
          refuse (.assignment .dynamic name declared)
        return Store.cell place name (if declared = .dynamic then .dynamic else declared)) := by
      exact .pure _
    cases place with
    | slot slot => exact (declaredKind_keeps slot).bind last
    | capture index => exact last .dynamic

theorem kindNamed_keeps (typeName : String) : law.Keeps (kindNamed typeName) := by
  unfold kindNamed
  split
  iterate 5 exact .pure _
  refine .bind .read fun env => ?_
  split <;> exact .pure _

theorem namedType_keeps (target : Expr) : law.Keeps (namedType target) := by
  unfold namedType
  extract_lets find
  have found (name : String) : law.Keeps (find name) := by
    refine .bind .read fun env => ?_
    split
    · exact .pure _
    · exact .refuse _
  cases target with
  | name n => exact found n
  | «attribute» object n => exact found n
  | _ => exact .refuse _

theorem bindable_keeps (kind : Kind) (name : String) : law.Keeps (bindable kind name) := by
  unfold bindable
  split
  · exact .pure _
  · exact .bind .read fun _ => .pure _

theorem bindMethod_keeps (name : String) (receiver : Typed) (arguments : List Typed) :
    law.Keeps (bindMethod type name receiver arguments) := by
  unfold bindMethod
  simp only
  split
  · exact .refuse _
  · exact .pure _

theorem convertTo_keeps (value : Typed) : law.Keeps (convertTo type value) := by
  unfold convertTo
  simp only
  split
  · exact .pure _
  split
  · exact .pure _
  split
  · exact .pure _
  · refine .bind .read fun env => ?_
    split
    · exact .pure _
    · exact .refuse _

theorem readSuper_keeps : law.Keeps readSuper := by
  refine .bind .scope fun s => ?_
  split
  · refine .bind (.resolve _) fun place => ?_
    split
    · exact .pure _
    · exact .refuse _
  · exact .refuse _

theorem paramKind_keeps (p : Param) : law.Keeps (paramKind p) := by
  unfold paramKind
  split
  · exact .pure _
  · exact .pure _
  · split
    · exact kindNamed_keeps _
    · exact .pure _

theorem routineScope_keeps (name : String) (params : List Param) (typed : Bool) (returns : Option String)
    (bound : Bound) : law.Keeps (routineScope name params typed returns bound) := by
  refine .bind .scope fun s => ?_
  simp only
  split
  · exact .pure _
  · refine .bind (.foldlM (fun s p => ?_) _ _) fun inner => ?_
    · exact (paramKind_keeps p).map
    · refine .bind ?_ fun _ => .pure _
      cases returns with
      | none => exact .pure _
      | some typeName => exact (kindNamed_keeps typeName).map

variable {typed : Bool} {returns : Option String}

theorem routineScope_place {inner} (ran : routineScope name params typed returns bound env st = .ok (inner,left)) :
    ∃ declared, inner.place = (.function,0,declared) ∧
      (typed = true → ∃ middle last, returns.mapM kindNamed env middle = .ok (declared,last)) := by
  obtain ⟨s,started,_,ran⟩ := bind_eq_ok ran
  simp only at ran
  have start (receiver : Option Nat) (qualname : String) : place
      { declareAll { kind := .function, qualname } (params.map (·.name)) with receiver, typed } = (.function,0,none) :=
    declareAll_place { kind := .function, qualname } _
  split at ran
  case isTrue untyped =>
    cases ran
    refine ⟨none,(declareBound_place _ _).trans (start _ _),fun tracked => ?_⟩
    rw [tracked] at untyped
    contradiction
  case isFalse =>
    obtain ⟨inner,middle,kinds,ran⟩ := bind_eq_ok ran
    obtain ⟨declared,last,named,ran⟩ := bind_eq_ok ran
    cases ran
    have known : inner.place = (.function,0,none) := by
      refine Yields.foldlM (P := fun inner => inner.place = (.function,0,none)) (fun s p known => ?_) _ _ (start _ _) kinds
      refine .behind fun kind => .pure ?_
      repeat' split
      all_goals exact known
    injection known with kind known
    injection known with loops
    refine ⟨declared,(declareBound_place _ _).trans ?_,fun _ => ⟨_,_,named⟩⟩
    simp only [place,kind,loops]

-- A routine is compiled in a scope of its own, and its plan comes last.
theorem routine_eq_ok {code} (ran : routine name params typed returns bound defaults body env st = .ok (code,left)) :
    ∃ inner started entered given middle made after plan,
      routineScope name params typed returns bound env st = .ok (inner,started) ∧
      (∀ {law : Law}, law.rel started entered) ∧
      defaults env { entered with scopes := inner :: entered.scopes } = .ok (given,middle) ∧
      body env middle = .ok (made,after) ∧ plan.body = made ∧
      code = .routine after.plans.routines.size ∧
      left = { after with
        scopes := after.scopes.tail
        plans := { after.plans with routines := after.plans.routines.push plan } } := by
  obtain ⟨inner,started,opened,ran⟩ := bind_eq_ok ran
  obtain ⟨declared,entered,kinds,ran⟩ := bind_eq_ok ran
  obtain ⟨⟨⟨given,code⟩,last⟩,inside,compiled,ran⟩ := bind_eq_ok ran
  have before {law : Law} : law.rel started entered := by
    refine Law.Keeps.mapM (fun p => ?_) _ kinds
    split
    · exact .pure _
    · exact (paramKind_keeps p).map
  obtain ⟨_,body,-,rfl⟩ := within_eq_ok compiled
  obtain ⟨_,middle,first,body⟩ := bind_eq_ok body
  obtain ⟨_,after,second,body⟩ := bind_eq_ok body
  cases body
  cases ran
  exact ⟨inner,_,entered,given,middle,code,_,_,opened,before,first,second,rfl,rfl,rfl⟩

theorem routine_keeps (name : String) (params : List Param) (typed : Bool) (returns : Option String) (bound : Bound)
    (first : law.Keeps defaults) (second : law.Keeps body)
    (fits : ∀ ⦃env st inner given middle code left⦄, (∃ declared, place inner = (.function,0,declared)) →
      defaults env { (st : CompileState) with scopes := inner :: st.scopes } = .ok (given,middle) →
      body env middle = .ok (code,left) → law.fits code) :
    law.Keeps (routine name params typed returns bound defaults body) := by
  intro env st code left ran
  obtain ⟨inner,started,entered,given,middle,made,after,plan,opened,before,ran₁,ran₂,rfl,_,rfl⟩ := routine_eq_ok ran
  obtain ⟨declared,place,_⟩ := routineScope_place opened
  have around := law.leaves (law.trans (first ran₁) (second ran₂))
  have planned := fits ⟨declared,place⟩ ran₁ ran₂
  exact law.trans (law.trans (routineScope_keeps _ _ _ _ _ opened) before) (law.trans around (law.plansRoutine planned))

end Compile

open Compile

variable {law : Law}

mutual

theorem Expr.compile_keeps (typed : Bool) : (e : Expr) → law.Keeps (e.compile typed)
  | .none | .nil | .bool _ | .int _ | .float _ | .str _ => .bind .isTyped fun _ => .pure _
  | .name n => by
    refine .bind .isTyped fun _ => .bind (readName_keeps n) fun _ => ?_
    split
    · exact .map (nameKind_keeps n)
    · exact .pure _
  | .format value => .bind .isTyped fun here => .map (value.compile_keeps here)
  | .tuple items | .list items | .set items =>
    .bind .isTyped fun _ => .map (Expr.compileItems_keeps items)
  | .dict entries => .bind .isTyped fun _ => .map (Expr.compileEntries_keeps entries)
  | .star _ | .doubleStar _ => .bind .isTyped fun _ => .refuse _
  | .binary op l r => by
    refine .bind .isTyped fun here => ?_
    split
    · exact .pair (l.compile_keeps true) (r.compile_keeps true)
    · exact .pair (l.compile_keeps here) (r.compile_keeps here)
  | .unary _ x | .not x => by
    refine .bind .isTyped fun here => ?_
    split
    · exact .map (x.compile_keeps true)
    · exact .map (x.compile_keeps here)
  | .and l r | .or l r => by
    refine .bind .isTyped fun here => .bind (l.compile_keeps _) fun a => .bind (r.compile_keeps _) fun b => ?_
    split
    · exact .pure _
    split
    · exact .pair (l.compile_keeps false) (r.compile_keeps false)
    · exact .pure _
  | .identity _ l r | .membership _ l r | .index l r =>
    .bind .isTyped fun here => .pair (l.compile_keeps here) (r.compile_keeps here)
  | .ternary c y n => by
    refine .bind .isTyped fun here => .bind (c.compile_keeps _) fun _ => .bind (y.compile_keeps _) fun _ =>
      .bind (n.compile_keeps _) fun _ => ?_
    split <;> exact .pure _
  | .attribute object n => by
    refine .bind .isTyped fun here => ?_
    split
    · exact .bind (object.compile_keeps true) fun _ => (bindable_keeps _ _).map
    · exact .map (object.compile_keeps here)
  | .slice object start stop step =>
    .bind .isTyped fun here => .bind (object.compile_keeps here) fun _ =>
      .bind (Expr.compileOption_keeps here start) fun _ =>
      .pair (Expr.compileOption_keeps here stop) (Expr.compileOption_keeps here step)
  | .call callee arguments => by
    have late (here : Bool) : law.Keeps (do
        let function ← callee.compile here
        let values ← Expr.compileArguments here arguments
        return Typed.dynamic (.call function.code (arguments.zipWith Argument.withCode values))) :=
      .pair (callee.compile_keeps here) (Expr.compileArguments_keeps here arguments)
    cases typed with
    | false => exact .bind .isTyped late
    | true =>
      cases callee with
      | «attribute» object n =>
        refine .bind .isTyped fun here => .bind (object.compile_keeps true) fun receiver =>
          .bind (bindable_keeps receiver.kind n) fun type => ?_
        split
        · split
          · refine .bind (Expr.compileTyped_keeps arguments) fun values => ?_
            split
            · exact late here
            · exact bindMethod_keeps _ _ _ _
          · exact late here
        · exact late here
      | _ => exact .bind .isTyped late
  | .lambda params body =>
    .bind .isTyped fun _ => .bind (routine_keeps _ _ _ _ _ (.pure _) (.map (body.compile_keeps false))
      fun _ _ _ _ _ _ _ _ _ ran => by
        obtain ⟨_,_,_,ran⟩ := bind_eq_ok ran
        cases ran
        exact law.value _) fun _ => .pure _
  | .comprehension kind element target iterable condition => by
    have plain : law.Keeps (element.compile false) := element.compile_keeps false
    cases kind with
    | dict =>
      cases element with
      | dict entries =>
        match entries with
        | [.pair key value] =>
          exact .collecting iterable.compile_keeps target.compileStore_keeps
            (Expr.compileOption_keeps false condition)
            fun _ _ => .pair (key.compile_keeps false) (value.compile_keeps false)
        | [] | .pair _ _ :: _ :: _ | .unpack _ :: _ =>
          exact .collecting iterable.compile_keeps target.compileStore_keeps
            (Expr.compileOption_keeps false condition) fun _ _ => .map (.refuse _)
      | _ =>
        exact .collecting iterable.compile_keeps target.compileStore_keeps
          (Expr.compileOption_keeps false condition) fun _ _ => plain.map
    | _ =>
      exact .collecting iterable.compile_keeps target.compileStore_keeps
        (Expr.compileOption_keeps false condition) fun _ _ => plain.map
  | .convert value kind => by
    refine .bind .isTyped fun here => ?_
    split
    · exact .bind (namedType_keeps kind) fun _ => .bind (value.compile_keeps true) fun _ => convertTo_keeps _ _
    · exact .pair (value.compile_keeps here) (kind.compile_keeps here)
  | .cast value kind => by
    refine .bind .isTyped fun here => ?_
    split
    · exact .pair (namedType_keeps kind) (value.compile_keeps true)
    · exact .pair (value.compile_keeps here) (kind.compile_keeps here)
  | .typed value => by
    refine .bind .isTyped fun _ => .bind (value.compile_keeps true) fun _ => ?_
    split <;> exact .pure _
  | .super => .bind .isTyped fun _ => .bind readSuper_keeps fun _ => .pure _

theorem Expr.compileItems_keeps : (items : List Expr) → law.Keeps (Expr.compileItems items)
  | [] => .pure _
  | item :: items => by
    have each (here : Bool) : law.Keeps (item.compile here) := item.compile_keeps here
    have rest : law.Keeps (Expr.compileItems items) := Expr.compileItems_keeps items
    cases item with
    | star value => exact .bind .isTyped fun here => .pair (value.compile_keeps here) rest
    | _ => exact .bind .isTyped fun here => (each here).pair rest

theorem Expr.compileEntries_keeps : (entries : List DictEntry) → law.Keeps (Expr.compileEntries entries)
  | [] => .pure _
  | .pair key value :: entries => .bind .isTyped fun here => .bind (key.compile_keeps here) fun _ => .bind .isTyped fun there =>
      .pair (value.compile_keeps there) (Expr.compileEntries_keeps entries)
  | .unpack value :: entries => .bind .isTyped fun here => .pair (value.compile_keeps here) (Expr.compileEntries_keeps entries)

theorem Expr.compileOption_keeps (typed : Bool) : (value : Option Expr) → law.Keeps (Expr.compileOption typed value)
  | .none => .pure _
  | some value => .map (value.compile_keeps typed)

theorem Expr.compileArguments_keeps (typed : Bool) :
    (arguments : List Argument) → law.Keeps (Expr.compileArguments typed arguments)
  | [] => .pure _
  | .positional value :: arguments | .keyword _ value :: arguments | .star value :: arguments
  | .doubleStar value :: arguments => .pair (value.compile_keeps typed) (Expr.compileArguments_keeps typed arguments)

theorem Expr.compileTyped_keeps : (arguments : List Argument) → law.Keeps (Expr.compileTyped arguments)
  | [] => .pure _
  | .positional value :: arguments => .pair (value.compile_keeps true) (Expr.compileTyped_keeps arguments)
  | .keyword .. :: arguments | .star _ :: arguments | .doubleStar _ :: arguments => Expr.compileTyped_keeps arguments

theorem Target.compileStore_keeps : (target : Target) → law.Keeps (target.compileStore .dynamic)
  | .name n => storeName_keeps n
  | .attribute object _ =>
    .bind .isTyped fun here => .map (object.compile_keeps here)
  | .index object place =>
    .bind .isTyped fun here => .bind (object.compile_keeps here) fun _ => .bind .isTyped fun there =>
      .map (place.compile_keeps there)
  | .tuple items => .map (Target.compileStores_keeps items)

theorem Target.compileStores_keeps : (items : List Target) → law.Keeps (Target.compileStores items)
  | [] => .pure _
  | item :: items => .pair item.compileStore_keeps (Target.compileStores_keeps items)

end

-- Parts of statements

theorem Expr.operand_keeps (e : Expr) : law.Keeps e.operand := .bind .isTyped fun here => .map (e.compile_keeps here)

theorem Expr.elementKind_keeps (e : Expr) : law.Keeps e.elementKind := by
  refine .bind .isTyped fun here => ?_
  split
  · exact .pure _
  split
  · exact .pure _
  · exact .pure _
  · exact (nameKind_keeps _).map
  · exact .pure _

namespace Compile

theorem dynamics_keeps (es : List Expr) : law.Keeps (dynamics es) := .mapM (fun e => (e.compile_keeps false).map) es

theorem defaults_keeps (params : List Param) : law.Keeps (params.mapM fun p =>
    p.default.mapM fun e => do return (← e.compile false).code) :=
  .mapM (fun _ => .option (fun e => (e.compile_keeps false).map) _) params

theorem declaredValue_keeps (declared : Kind) (what : String) (value : Typed) :
    law.Keeps (declaredValue declared what value) := by
  unfold declaredValue
  split
  · exact .pure _
  · exact .guarded _ (.pure _)

theorem returnValue_keeps (value : Option Expr) : law.Keeps (returnValue value) := by
  cases value with
  | none => exact .pure _
  | some value =>
    refine .bind .scope fun s => ?_
    split
    · exact (value.compile_keeps true).bind fun _ => declaredValue_keeps _ _ _
    · exact value.operand_keeps

end Compile

mutual

theorem Target.compileDelete_keeps : (target : Target) → law.Keeps target.compileDelete
  | .name n => by
    refine .bind (.resolve n) fun place => ?_
    split <;> exact .pure _
  | .attribute object _ => object.operand_keeps.map
  | .index object place => object.operand_keeps.pair place.operand_keeps
  | .tuple items => (Target.compileDeletes_keeps items).map

theorem Target.compileDeletes_keeps : (items : List Target) → law.Keeps (Target.compileDeletes items)
  | [] => .pure _
  | item :: items => item.compileDelete_keeps.pair (Target.compileDeletes_keeps items)

end

def CompileState.slotKind (st : CompileState) (slot : Nat) : Kind := (st.scopes.head?.map (·.slotKind slot)).getD .dynamic

namespace Compile

theorem declaredKind_cases
    (ran : declaredKind slot known env st = .ok (declared,left)) :
    (left = st ∧ (declared = .dynamic ∨ declared = st.slotKind slot)) ∨
      (declared = known ∧ st.slotKind slot = .dynamic ∧ ∃ s outer, st.scopes = s :: outer ∧
        left = { st with scopes := s.setKind slot known :: outer }) := by
  cases shape : st.scopes with
  | nil =>
    rw [declaredKind,bind_ok scope_apply,shape] at ran
    cases ran
    exact .inl ⟨rfl,.inl rfl⟩
  | cons s outer =>
    have found : st.slotKind slot = s.slotKind slot := by rw [CompileState.slotKind,shape]; rfl
    have scope : scope env st = .ok (s,st) := by rw [scope_apply,shape]; rfl
    rw [declaredKind,bind_ok scope] at ran
    split at ran
    · cases ran
      exact .inl ⟨rfl,.inl rfl⟩
    by_cases news : s.slotKind slot = .dynamic ∧ known ≠ .dynamic
    · rw [if_pos news] at ran
      cases ran
      refine .inr ⟨rfl,found.trans news.1,s,outer,rfl,?_⟩
      simp only [shape]
    · rw [if_neg news] at ran
      cases ran
      exact .inl ⟨rfl,.inr found.symm⟩

end Compile

end EmbedScript
