import EmbedScript.Proofs.Engine.Flow
import EmbedScript.Proofs.Typing.Steady

/-!
What calls give of routines that declare the kind of their result. A `return` without an expression,
and the end of the body, give `None` all the same.
-/

namespace EmbedScript

open Exec Compile

variable {declared : Kind}

theorem Kind.Returned.gives (returned : declared.Returned c) (checks : declared ≠ .dynamic)
    (ran : c.eval k f w = .done v left) :
    c = .literal .none ∨ v.kind = declared ∨
      declared.isScalar = false ∧ ∃ e env st left, Expr.compile true e env st = .ok (⟨declared,c⟩,left) := by
  cases returned with
  | dynamic _ any => contradiction
  | nothing => exact .inl rfl
  | checked c =>
    obtain ⟨u,middle,_,coerced⟩ := bind_eq_done ran
    exact .inr (.inl (Kind.coerce_gives checks coerced).1)
  | known compiled =>
    cases scalar : declared.isScalar with
    | true => exact .inr (.inl (Code.evident_sound (Expr.compile_evident _ compiled scalar) ran))
    | false => exact .inr (.inr ⟨rfl,_,_,_,_,compiled⟩)

variable {env : CompileEnv} {st left : CompileState} {head : FunctionHead} {body : List Stmt}
  {instr : InstrKind} {typeName : String}

theorem StmtKind.compile_function (compiled : (StmtKind.function head body).compile env st = .ok (instr,left))
    (annotated : head.returns = some typeName)
    (named : ∀ st, kindNamed typeName env st = .ok (declared,st)) :
    ∃ decorators place store plan code,instr = .assign (.decorated decorators (.routine place)) [store] ∧
      left.plans.routines[place]? = some plan ∧ plan.body = .block code ∧
      Instr.ConfinedAll ⟨false,declared.Returned⟩ code := by
  obtain ⟨decorators,_,_,compiled⟩ := bind_eq_ok compiled
  obtain ⟨definition,_,defined,compiled⟩ := bind_eq_ok compiled
  obtain ⟨store,last,stored,compiled⟩ := bind_eq_ok compiled
  cases compiled
  obtain ⟨inner,_,entered,given,middle,made,after,plan,opened,_,first,second,is,rfl,rfl⟩ := routine_eq_ok defined
  obtain ⟨code,_,block,blocked⟩ := bind_eq_ok second
  cases blocked
  refine ⟨decorators,_,store,plan,code,rfl,?_,is,?_⟩
  · have keeps : telling.Keeps (storeName head.name .dynamic) := storeName_keeps head.name
    obtain ⟨added,grows,_⟩ := (keeps stored).planned.routines
    rw [← Array.getElem?_toList,grows]
    simp
  · obtain ⟨returns,place,tracked⟩ := routineScope_place opened
    have typed : head.isTyped = true := by rw [FunctionHead.isTyped,annotated]; rfl
    obtain ⟨start,_,again⟩ := tracked typed
    have known : Option.mapM kindNamed (some typeName) env start = .ok (some declared,start) :=
      bind_ok (named start) fun kind => pure (some kind)
    rw [annotated,known] at again
    cases again
    injection place with function place
    injection place with loops returns
    have start : inner.Permits ⟨false,declared.Returned⟩ :=
      ⟨fun looped => absurd loops looped,fun _ _ returned => returned _ returns⟩
    have keeps : telling.Keeps _ := defaults_keeps head.params
    have permits := (CompileState.permits_cons start).congr (keeps first).places
    exact ((Stmt.compileBlock_forms body).holds block _ _ permits fun _ _ => rfl).1

-- A call that returns gives `None` at the end of the body, or the value of one of its `return`s; `returns`
-- is any property that the codes in these have. The value is of the declared kind if the `return` has an
-- expression, unless the kind is not one of scalars and compiling takes the expression to be of it.
theorem declared_returns (compiled : (StmtKind.function head body).compile env st = .ok (instr, left))
    (annotated : head.returns = some typeName)
    (named : ∀ st, kindNamed typeName env st = .ok (declared, st)) (checks : declared ≠ .dynamic) :
    ∃ decorators place store plan code,
      instr = .assign (.decorated decorators (.routine place)) [store] ∧
      left.plans.routines[place]? = some plan ∧ plan.body = .block code ∧
      Instr.ConfinedAll ⟨false, declared.Returned⟩ code ∧
      ∀ returns, Instr.ConfinedAll ⟨false, returns⟩ code → ∀ (k : Engine) captures home arguments w v after,
        k.runRoutine plan captures home arguments w = .done v after →
          ∃ f start, Instr.execBlock k f code start = .done .next after ∧ v = .none ∨
            Instr.execBlock k f code start = .done (.returns v) after ∧ ∃ c x y, returns c ∧
              c.eval k f x = .done v y ∧ (declared.Returned c →
                c = .literal .none ∨ v.kind = declared ∨ declared.isScalar = false ∧
                  ∃ e env st left, Expr.compile true e env st = .ok (⟨declared, c⟩, left)) := by
  obtain ⟨decorators, place, store, plan, code, rfl, planned, block, confined⟩ :=
    StmtKind.compile_function compiled annotated named
  refine ⟨decorators, place, store, plan, code, rfl, planned, block, confined, ?_⟩
  intro returns all k captures home arguments w v after ran
  obtain ⟨f, _, _, ran⟩ := bind_eq_done ran
  obtain ⟨_, start, _, ran⟩ := bind_eq_done ran
  rw [block] at ran
  obtain ⟨flow, _, ended, ran⟩ := bind_eq_done ran
  have allowed := Instr.execBlock_flow k f code all ended
  refine ⟨f, start, ?_⟩
  cases flow with
  | next =>
    cases ran
    exact .inl ⟨ended, rfl⟩
  | returns u =>
    cases ran
    obtain ⟨c, x, y, here, gives⟩ := allowed
    exact .inr ⟨ended, c, x, y, here, gives, fun returned => returned.gives checks gives⟩
  | breaks | continues => cases allowed

-- def pick(go, v) -> float:
--     if go: return v
def pickHead : FunctionHead := ⟨"pick",[{ name := "go" },{ name := "v" }],some "float",[]⟩

def pickBody : List Stmt := [.mk 2 (.cond [.mk (.name "go") [.mk 2 (.returns (some (.name "v")))]] [])]

def pickCode : List Instr := [.mk 2 (.cond [.mk (.slot 0 "go" false)
    [.mk 2 (.returns (.coerce .float "return value" (.slot 1 "v" false)))]] [])]

def pickPlan : RoutinePlan :=
  { name := "pick", qualname := "pick", slots := 2, captures := [], body := .block pickCode
    params := [{ name := "go", kind := .normal, slot := 0, default := none, declared := none },
      { name := "v", kind := .normal, slot := 1, default := none, declared := none }] }

def pickEnv : CompileEnv := ⟨⟨[{ name := "float", constructors := [] }]⟩,{}⟩

def pickState : CompileState := { scopes := [{ kind := .module, qualname := "<module>" }] }

theorem pick_named (st : CompileState) : kindNamed "float" pickEnv st = .ok (.float,st) := by
  have plain : "float".splitOn "." = ["float"] := by
    rw [String.splitOn]
    iterate 6 rw [String.splitOnAux]
    decide
  rw [kindNamed,importedName,plain]
  rfl

def pickLeft : CompileState := { pickState with line := 2, plans := { routines := #[pickPlan] } }

theorem pick_compile : (StmtKind.function pickHead pickBody).compile pickEnv pickState =
    .ok (.assign (.decorated [] (.routine 0)) [.global "pick"],pickLeft) := by
  let scope (returns : Option Kind) : Scope :=
    { kind := .function, qualname := "pick", locals := ["go","v"], typed := true, receiver := some 0, returns }
  have opened : routineScope "pick" pickHead.params true (some "float") (boundOf pickBody) pickEnv pickState =
      .ok (scope (some .float),pickState) :=
    bind_ok (bind_ok (pick_named _) fun kind => pure (some kind)) fun returns => pure (scope returns)
  have made : routine "pick" pickHead.params true (some "float") (boundOf pickBody)
      (pickHead.params.mapM fun p => p.default.mapM fun e => do return (← e.compile false).code)
      (do return .block (← Stmt.compileBlock pickBody)) pickEnv pickState = .ok (.routine 0,pickLeft) :=
    bind_ok opened _
  exact bind_ok made fun definition => do
    return InstrKind.assign (.decorated [] definition) [← storeName "pick" .dynamic]

def pickWorld (go : Bool) : World := { World.blank with heap := { cells := #[some (.bool go),some (.int 1)] }, line := 2 }

theorem pick_true : (engine 8).runRoutine pickPlan #[] ⟨0⟩ [.bool true,.int 1] .blank =
    .done (.float (Int64.toFloat 1)) (pickWorld true) := rfl

theorem declared_returns_pick : ∃ v,
    (engine 8).runRoutine pickPlan #[] ⟨0⟩ [.bool true, .int 1] .blank = .done v (pickWorld true) ∧
      v.kind = .float := by
  obtain ⟨_, _, _, plan, code, made, planned, block, -, all⟩ :=
    declared_returns pick_compile rfl pick_named Kind.noConfusion
  cases made
  cases planned
  cases block
  have explicit : Instr.ConfinedAll ⟨false, fun c => Kind.float.Returned c ∧ c ≠ .literal .none⟩ pickCode :=
    ⟨⟨⟨⟨⟨.checked _, Code.noConfusion⟩, trivial⟩, trivial⟩, trivial⟩, trivial⟩
  obtain ⟨f, start, ⟨_, none⟩ | ⟨_, c, x, y, ⟨returned, given⟩, _, gives⟩⟩ :=
    all _ explicit _ _ _ _ _ _ _ pick_true
  · cases none
  · obtain bare | known | ⟨compound, _⟩ := gives returned
    · exact absurd bare given
    · exact ⟨_, pick_true, known⟩
    · cases compound

theorem pick_runs_out : (StmtKind.function pickHead pickBody).compile pickEnv pickState =
      .ok (.assign (.decorated [] (.routine 0)) [.global "pick"], pickLeft) ∧
    pickLeft.plans.routines[0]? = some pickPlan ∧ kindNamed "float" pickEnv pickState = .ok (.float, pickState) ∧
    (engine 8).runRoutine pickPlan #[] ⟨0⟩ [.bool false, .int 1] .blank = .done .none (pickWorld false) ∧
    Kind.accepts .float .none = false :=
  ⟨pick_compile, rfl, pick_named _, rfl, rfl⟩

end EmbedScript
