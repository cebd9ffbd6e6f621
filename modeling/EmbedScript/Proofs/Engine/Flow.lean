import EmbedScript.Eval.Call
import EmbedScript.Modules
import EmbedScript.Proofs.Code.Statements

/-!
How blocks end when they run. A loop turns `break` and `continue` of its body into its own end, and
the body of a class has no exits, so flows never reach what does not look at them.
-/

namespace EmbedScript

open Exec List Instr

def Exec.Gives (x : Exec α) (P : α → Prop) : Prop := ∀ ⦃w a left⦄, x w = .done a left → P a

namespace Exec.Gives

variable {f : α → Exec β}

theorem pure (holds : P a) : Gives (Pure.pure a) P := by
  intro w b left ran
  cases ran
  exact holds

theorem fail (e : Fault) : Gives (fail e) P := by
  intro w a left ran
  cases ran

theorem stop (h : Halt) : Gives (stop h) P := by
  intro w a left ran
  cases ran

theorem bind (first : Gives x P) (rest : ∀ a, P a → Gives (f a) Q) : Gives (x >>= f) Q := by
  intro w b left ran
  obtain ⟨a,middle,started,ran⟩ := bind_eq_done ran
  exact rest a (first started) ran

theorem behind (rest : ∀ a, Gives (f a) Q) : Gives (x >>= f) Q := by
  intro w b left ran
  obtain ⟨a,middle,_,ran⟩ := bind_eq_done ran
  exact rest a ran

end Exec.Gives

def Flow.Allowed (k : Engine) (f : Frame) (exits : Exits) : Flow → Prop
  | .next => True
  | .returns v => ∃ c w left, exits.returns c ∧ c.eval k f w = .done v left
  | .breaks | .continues => exits.loop = true

namespace Engine

variable {k : Engine} {f : Frame}

theorem repeatWhile_flow (test : Exec Bool)
    (inside : body.Gives (Flow.Allowed k f { exits with loop := true })) (fuel : Nat) :
    (repeatWhile test body fuel).Gives (Flow.Allowed k f exits) := by
  induction fuel with
  | zero => exact .stop _
  | succ fuel ih =>
    refine .behind fun again => ?_
    cases again with
    | false => exact .pure trivial
    | true =>
      refine inside.bind fun flow allowed => ?_
      cases flow with
      | next | continues => exact ih
      | breaks => exact .pure trivial
      | returns v => exact .pure allowed

theorem repeatFor_flow (next : Exec (Option Value))
    (inside : ∀ item, (body item).Gives (Flow.Allowed k f { exits with loop := true })) (fuel : Nat) :
    (repeatFor next body fuel).Gives (Flow.Allowed k f exits) := by
  induction fuel with
  | zero => exact .stop _
  | succ fuel ih =>
    refine .behind fun item => ?_
    cases item with
    | none => exact .pure trivial
    | some item =>
      refine (inside item).bind fun flow allowed => ?_
      cases flow with
      | next | continues => exact ih
      | breaks => exact .pure trivial
      | returns v => exact .pure allowed

theorem raise_flow (k : Engine) (v : Value) : (k.raise v).Gives (Flow.Allowed k f exits) := by
  unfold raise
  extract_lets last
  have fails (v : Value) : (last v).Gives (Flow.Allowed k f exits) := by
    refine .behind fun message => ?_
    cases v with
    | object _ _ => exact .behind fun _ => .behind fun _ => .fail _
    | _ => exact .fail _
  cases v <;> exact .behind fails

end Engine

section

variable (k : Engine)

mutual

theorem Instr.exec_flow (f : Frame) : (instr : Instr) → instr.Confined exits →
    (instr.exec k f).Gives (Flow.Allowed k f exits)
  | .mk _ kind, confined => .behind fun _ => kind.exec_flow f confined

theorem InstrKind.exec_flow (f : Frame) : (instr : InstrKind) → instr.Confined exits →
    (instr.exec k f).Gives (Flow.Allowed k f exits)
  | .eval _, _ | .deletes _, _ => .behind fun _ => .pure trivial
  | .assign .., _ | .importModule .., _ | .importNames .., _ => .behind fun _ => .behind fun _ => .pure trivial
  | .augment .., _ => .behind fun _ => .behind fun _ => .behind fun _ => .behind fun _ => .pure trivial
  | .augmentAttribute .., _ => .behind fun _ => .behind fun _ => .behind fun _ => .behind fun _ => .behind fun _ => .pure trivial
  | .augmentIndex .., _ => .behind fun _ => .behind fun _ => .behind fun _ => .behind fun _ => .behind fun _ =>
      .behind fun _ => .pure trivial
  | .cond branches otherwise, ⟨first,last⟩ => by
    refine (Instr.execBranches_flow f branches first).bind fun taken allowed => ?_
    cases taken with
    | some flow => exact .pure (allowed flow rfl)
    | none => exact Instr.execBlock_flow f otherwise last
  | .whileLoop _ body, confined => Engine.repeatWhile_flow _ (Instr.execBlock_flow f body confined) _
  | .forLoop _ _ body, confined => .behind fun _ => .behind fun _ =>
      Engine.repeatFor_flow _ (fun _ => .behind fun _ => Instr.execBlock_flow f body confined) _
  | .classDef .., _ => .behind fun _ => .behind fun _ => .behind fun _ => .behind fun _ => .behind fun _ => .behind fun _ =>
      .behind fun _ => .behind fun _ => .behind fun _ => .behind fun _ => .pure trivial
  | .returns c, allowed => by
    intro w flow left ran
    obtain ⟨v,middle,given,ran⟩ := bind_eq_done ran
    cases ran
    exact ⟨c,w,_,allowed,given⟩
  | .breaks, allowed | .continues, allowed => .pure allowed
  | .skip, _ => .pure trivial
  | .raises (some _), _ => .behind fun v => Engine.raise_flow k v
  | .raises none, _ => .fail _
  | .asserts test message, _ => by
    refine .behind fun _ => .behind fun holds => ?_
    split
    · exact .pure trivial
    cases message with
    | none => exact .fail _
    | some _ => exact .behind fun _ => .behind fun _ => .fail _
  | .importAll _, _ => .behind fun _ => .behind fun _ => .behind fun _ => .pure trivial

theorem Instr.execBranches_flow (f : Frame) : (branches : List BranchCode) →
    Instr.ConfinedBranches exits branches →
    (execBranches k f branches).Gives fun taken => ∀ flow ∈ taken, flow.Allowed k f exits
  | [], _ => .pure fun _ absurd => nomatch absurd
  | .mk _ body :: branches, ⟨first,others⟩ => by
    refine .behind fun _ => .behind fun holds => ?_
    split
    · refine (Instr.execBlock_flow f body first).bind fun flow allowed => .pure ?_
      exact fun _ same => Option.some.inj same ▸ allowed
    · exact Instr.execBranches_flow f branches others

theorem Instr.execBlock_flow (f : Frame) : (body : List Instr) →
    Instr.ConfinedAll exits body → (execBlock k f body).Gives (Flow.Allowed k f exits)
  | [], _ => .pure trivial
  | instr :: body, ⟨first,others⟩ => by
    refine (instr.exec_flow f first).bind fun flow allowed => ?_
    cases flow with
    | next => exact Instr.execBlock_flow f body others
    | returns v => exact .pure allowed
    | breaks | continues => exact .pure allowed

end

end

mutual

def Instr.classBodies : Instr → List (List Instr)
  | .mk _ kind => kind.classBodies

def InstrKind.classBodies : InstrKind → List (List Instr)
  | .cond branches otherwise => Instr.branchClassBodies branches ++ Instr.allClassBodies otherwise
  | .whileLoop _ body | .forLoop _ _ body => Instr.allClassBodies body
  | .classDef _ _ _ body _ => body :: Instr.allClassBodies body
  | _ => []

def Instr.branchClassBodies : List BranchCode → List (List Instr)
  | [] => []
  | .mk _ body :: branches => Instr.allClassBodies body ++ Instr.branchClassBodies branches

def Instr.allClassBodies : List Instr → List (List Instr)
  | [] => []
  | instr :: instrs => instr.classBodies ++ Instr.allClassBodies instrs

end

mutual

theorem Instr.classBodies_closed : (instr : Instr) → instr.Confined exits →
    ∀ body ∈ instr.classBodies, ConfinedAll .closed body
  | .mk _ kind, confined => kind.classBodies_closed confined

theorem InstrKind.classBodies_closed : (instr : InstrKind) → instr.Confined exits →
    ∀ body ∈ instr.classBodies, Instr.ConfinedAll .closed body
  | .cond branches otherwise, ⟨first,last⟩ => forall_mem_append.mpr
      ⟨Instr.branchClassBodies_closed branches first,Instr.allClassBodies_closed otherwise last⟩
  | .whileLoop _ body, confined | .forLoop _ _ body, confined => Instr.allClassBodies_closed body confined
  | .classDef _ _ _ body _, confined => forall_mem_cons.mpr ⟨confined,Instr.allClassBodies_closed body confined⟩
  | .eval _, _ | .assign .., _ | .augment .., _ | .augmentAttribute .., _ | .augmentIndex .., _
  | .returns _, _ | .breaks, _ | .continues, _ | .skip, _ | .deletes _, _ | .raises _, _ | .asserts .., _
  | .importModule .., _ | .importAll _, _ | .importNames .., _ => forall_mem_nil _

theorem Instr.branchClassBodies_closed : (branches : List BranchCode) → Instr.ConfinedBranches exits branches →
    ∀ body ∈ branchClassBodies branches, Instr.ConfinedAll .closed body
  | [], _ => forall_mem_nil _
  | .mk _ body :: branches, ⟨first,others⟩ => forall_mem_append.mpr
      ⟨Instr.allClassBodies_closed body first,Instr.branchClassBodies_closed branches others⟩

theorem Instr.allClassBodies_closed : (code : List Instr) → Instr.ConfinedAll exits code →
    ∀ body ∈ allClassBodies code, Instr.ConfinedAll .closed body
  | [], _ => forall_mem_nil _
  | instr :: instrs, ⟨first,others⟩ =>
    forall_mem_append.mpr ⟨instr.classBodies_closed first,Instr.allClassBodies_closed instrs others⟩

end

variable (k : Engine) (f : Frame) {body : List Instr} {plans grown : Plans}

theorem Instr.execBlock_closed (confined : ConfinedAll .closed body) : (execBlock k f body).Gives (· = .next) := by
  intro w flow left ran
  have allowed := execBlock_flow k f body confined ran
  cases flow with
  | next => rfl
  | returns _ =>
    obtain ⟨_,_,_,never,_⟩ := allowed
    exact never.elim
  | breaks | continues => cases allowed

theorem Instr.execBlock_routine (confined : ConfinedAll .ofRoutine body) :
    (execBlock k f body).Gives fun flow => flow = .next ∨ ∃ v, flow = .returns v := by
  intro w flow left ran
  have allowed := execBlock_flow k f body confined ran
  cases flow with
  | next => exact .inl rfl
  | returns v => exact .inr ⟨v,rfl⟩
  | breaks | continues => cases allowed

theorem compileProgram_confined
    (accepted : compileProgram env plans program false = .ok (code,grown)) :
    ConfinedAll .closed code ∧ Compile.Planned plans grown := by
  unfold compileProgram at accepted
  simp only [ReaderT.run,StateT.run,Bool.false_eq_true,if_false] at accepted
  cases ran : Stmt.compileBlock program env { scopes := [{ kind := .module, qualname := "<module>" }], plans } with
  | error e =>
    rw [ran] at accepted
    cases accepted
  | ok made =>
  rw [ran] at accepted
  cases accepted
  obtain ⟨tells,formed⟩ := Stmt.compileBlock_forms program
  refine ⟨(formed ran .closed _ ?_ fun _ _ => rfl).1,(tells ran).planned⟩
  exact CompileState.permits_cons ⟨fun looped => absurd rfl looped,fun routine => nomatch routine⟩

theorem Compile.Planned.confined (planned : Compile.Planned plans grown) :
    ∀ plan ∈ grown.routines.toList.drop plans.routines.size, plan.body.Confined := by
  obtain ⟨added,grows,confined⟩ := planned.routines
  rw [grows,← Array.length_toList,drop_left]
  exact confined

-- No flow reaches a place that does not expect it. Outside of loops blocks never break or continue; the
-- code of a module and the bodies of classes, wherever they stand, only run to their ends; and bodies of
-- routines end or return. So a module's code, and a routine that does not return, give `None` because
-- they ran to the end.
theorem compileProgram_flow {env : CompileEnv} {plans grown : Plans} {program : List Stmt}
    {code : List Instr} (accepted : compileProgram env plans program false = .ok (code, grown)) (k : Engine) :
    (∀ block env st part left, Stmt.compileBlock block env st = .ok (part, left) →
      (∀ s ∈ st.scopes.head?, s.loops = 0) →
        ∀ f, (Instr.execBlock k f part).Gives fun flow => flow ≠ .breaks ∧ flow ≠ .continues) ∧
    (∀ f, (Instr.execBlock k f code).Gives (· = .next)) ∧
    (∀ body ∈ Instr.allClassBodies code, ∀ f, (Instr.execBlock k f body).Gives (· = .next)) ∧
    (∀ plan ∈ grown.routines.toList.drop plans.routines.size, ∀ body, plan.body = .block body →
      (∀ f, (Instr.execBlock k f body).Gives fun flow => flow = .next ∨ ∃ v, flow = .returns v) ∧
      (∀ inner ∈ Instr.allClassBodies body, ∀ f, (Instr.execBlock k f inner).Gives (· = .next)) ∧
      ∀ f w v left, k.runBody f plan.body w = .done v left →
        Instr.execBlock k f body w = .done (.returns v) left ∨
          Instr.execBlock k f body w = .done .next left ∧ v = .none) ∧
    ∀ m w v left, k.runInstrs m code w = .done v left →
      Instr.execBlock k { base := 0, captures := #[], home := m } code w = .done .next left ∧ v = .none := by
  obtain ⟨closed, planned⟩ := compileProgram_confined accepted
  refine ⟨?_, fun f => Instr.execBlock_closed k f closed, ?_, ?_, ?_⟩
  · intro block env st part left compiled outside f w flow last ran
    have permits : st.Permits .ofRoutine := fun s innermost =>
      ⟨fun looped => absurd (outside s innermost) looped, fun _ _ _ => trivial⟩
    have formed := (Stmt.compileBlock_forms block).holds compiled _ _ permits fun _ _ => rfl
    obtain rfl | ⟨v, rfl⟩ := Instr.execBlock_routine k f formed.1 ran
    · exact ⟨nofun, nofun⟩
    · exact ⟨nofun, nofun⟩
  · exact fun body among f => Instr.execBlock_closed k f (Instr.allClassBodies_closed code closed body among)
  · intro plan added body block
    have confined := planned.confined plan added
    rw [block] at confined ⊢
    refine ⟨fun f => Instr.execBlock_routine k f confined, fun inner among f => ?_, fun f w v left ran => ?_⟩
    · exact Instr.execBlock_closed k f (Instr.allClassBodies_closed body confined inner among)
    · obtain ⟨flow, middle, ended, ran⟩ := bind_eq_done ran
      obtain rfl | ⟨v, rfl⟩ := Instr.execBlock_routine k f confined ended
      · cases ran
        exact .inr ⟨ended, rfl⟩
      · cases ran
        exact .inl ended
  · intro m w v left ran
    obtain ⟨flow, middle, ended, ran⟩ := bind_eq_done ran
    obtain rfl := Instr.execBlock_closed k _ closed ended
    cases ran
    exact ⟨ended, rfl⟩

-- A loop around a class with a loop, and around its method, which returns out of a loop:
--   for x in xs:
--       class Box:
--           while x: break
--           def first(self):
--               for y in x:
--                   if y: return y
--                   continue
--       continue
def nestedProgram : List Stmt := [.mk 1 (.forLoop (.name "x") (.name "xs") [.mk 2 (.classDef ⟨"Box",[],[]⟩
      [.mk 3 (.whileLoop (.name "x") [.mk 3 .breaks]),.mk 4 (.function ⟨"first",[{ name := "self" }],none,[]⟩
        [.mk 5 (.forLoop (.name "y") (.name "x")
          [.mk 6 (.cond [.mk (.name "y") [.mk 6 (.returns (some (.name "y")))]] []),.mk 7 .continues])])]),
     .mk 8 .continues])]

theorem nestedProgram_flow : ∃ code grown,
    compileProgram ⟨⟨[]⟩, {}⟩ {} nestedProgram false = .ok (code, grown) ∧
    (Instr.allClassBodies code).length = 1 ∧ grown.routines.size = 1 ∧
    (∀ k f, (Instr.execBlock k f code).Gives (· = .next)) ∧
    (∀ body ∈ Instr.allClassBodies code, ∀ k f, (Instr.execBlock k f body).Gives (· = .next)) ∧
    ∀ plan ∈ grown.routines.toList, ∀ body, plan.body = .block body →
      ∀ k f, (Instr.execBlock k f body).Gives fun flow => flow = .next ∨ ∃ v, flow = .returns v := by
  have compiles : (compileProgram ⟨⟨[]⟩, {}⟩ {} nestedProgram false).toOption.any (fun made =>
      (Instr.allClassBodies made.1).length == 1 && made.2.routines.size == 1) = true := by
    decide +kernel
  cases result : compileProgram ⟨⟨[]⟩, {}⟩ {} nestedProgram false with
  | error e =>
    rw [result] at compiles
    cases compiles
  | ok made =>
    obtain ⟨code, grown⟩ := made
    rw [result] at compiles
    obtain ⟨classes, routines⟩ := (Bool.and_eq_true _ _).mp compiles
    refine ⟨code, grown, rfl, eq_of_beq classes, eq_of_beq routines, ?_, ?_, ?_⟩
    · exact fun k => (compileProgram_flow result k).2.1
    · exact fun body among k => (compileProgram_flow result k).2.2.1 body among
    · exact fun plan among body block k => ((compileProgram_flow result k).2.2.2.1 plan among body block).1

end EmbedScript
