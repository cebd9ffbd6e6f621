import EmbedScript.Proofs.Code.Scopes

/-!
How compiled statements may leave the block they stand in. Compiling decides it from the scope: a
`break` needs a loop of the same routine around it, a `return` a routine.
-/

namespace EmbedScript

open List

structure Exits where
  loop : Bool
  returns : Code → Prop

def Exits.closed : Exits := ⟨false,fun _ => False⟩

def Exits.ofRoutine : Exits := ⟨false,fun _ => True⟩

mutual

def Instr.Confined (exits : Exits) : Instr → Prop
  | .mk _ kind => kind.Confined exits

def InstrKind.Confined (exits : Exits) : InstrKind → Prop
  | .cond branches otherwise => Instr.ConfinedBranches exits branches ∧ Instr.ConfinedAll exits otherwise
  | .whileLoop _ body | .forLoop _ _ body => Instr.ConfinedAll { exits with loop := true } body
  | .classDef _ _ _ body _ => Instr.ConfinedAll .closed body
  | .returns c => exits.returns c
  | .breaks | .continues => exits.loop = true
  | _ => True

def Instr.ConfinedBranches (exits : Exits) : List BranchCode → Prop
  | [] => True
  | .mk _ body :: branches => Instr.ConfinedAll exits body ∧ Instr.ConfinedBranches exits branches

def Instr.ConfinedAll (exits : Exits) : List Instr → Prop
  | [] => True
  | instr :: instrs => instr.Confined exits ∧ Instr.ConfinedAll exits instrs

end

def Body.Confined : Body → Prop
  | .block body => Instr.ConfinedAll .ofRoutine body
  | .value _ => True

-- What a routine returns that declares a kind: nothing, what is checked, or what compiling knows to be of it.
inductive Kind.Returned (declared : Kind) : Code → Prop where
  | dynamic (c : Code) (any : declared = .dynamic) : Returned declared c
  | nothing : Returned declared (.literal .none)
  | checked (c : Code) : Returned declared (.coerce declared "return value" c)
  | known {e : Expr} {c : Code} {env : CompileEnv} {st left : CompileState}
      (compiled : e.compile true env st = .ok (⟨declared,c⟩,left)) : Returned declared c

-- The scope has loops around the current statement only if they may be left, and is a routine only if
-- that may be.
structure Scope.Permits (s : Scope) (exits : Exits) : Prop where
  loop : s.loops ≠ 0 → exits.loop = true
  routine : s.kind = .function → ∀ c, (∀ declared ∈ s.returns, declared.Returned c) → exits.returns c

theorem Scope.Permits.congr {s t : Scope} (permits : s.Permits exits) (same : s.place = t.place) :
    t.Permits exits := by
  injection same with kind same
  injection same with loops returns
  constructor
  · exact loops ▸ permits.loop
  · exact kind ▸ returns ▸ permits.routine

def CompileState.Permits (st : CompileState) (exits : Exits) : Prop := ∀ s ∈ st.scopes.head?, s.Permits exits

theorem CompileState.Permits.congr {st middle : CompileState} (permits : st.Permits exits)
    (same : middle.scopes.map Scope.place = st.scopes.map Scope.place) : middle.Permits exits := by
  intro s innermost
  have heads : middle.scopes.head?.map Scope.place = st.scopes.head?.map Scope.place := by rw [← head?_map,same,head?_map]
  rw [Option.mem_def.mp innermost] at heads
  obtain ⟨before,found,place⟩ := Option.map_eq_some_iff.mp heads.symm
  exact (permits before found).congr place

theorem CompileState.permits_cons {inner line plans} (permits : inner.Permits exits) :
    CompileState.Permits { scopes := inner :: outer, line, plans } exits := by
  intro s innermost
  cases innermost
  exact permits

namespace Compile

-- Plans come after those there are, and the routines among them have bodies that leave by `return` at
-- most.
structure Planned (plans grown : Plans) : Prop where
  elements : plans.elements.toList <+: grown.elements.toList
  routines : ∃ added : List RoutinePlan, grown.routines.toList = plans.routines.toList ++ added ∧
    ∀ plan ∈ added, plan.body.Confined

theorem Planned.refl (plans : Plans) : Planned plans plans where
  elements := prefix_rfl
  routines := ⟨[],(append_nil _).symm,forall_mem_nil _⟩

theorem Planned.trans (first : Planned plans middle)
    (rest : Planned middle grown) : Planned plans grown := by
  refine ⟨first.elements.trans rest.elements,?_⟩
  obtain ⟨added,grows,confined⟩ := first.routines
  obtain ⟨more,grows',confined'⟩ := rest.routines
  refine ⟨added ++ more,?_,forall_mem_append.mpr ⟨confined,confined'⟩⟩
  rw [grows',grows,append_assoc]

end Compile

end EmbedScript
