import EmbedScript.Modules
import EmbedScript.Proofs.Code.Compile
import EmbedScript.Proofs.Exec

/-!
Programs that only import modules and bind names to literals always compile.
-/

namespace EmbedScript

open Stmt Option

inductive PlainStmt where
  | imports (path : String)
  | assigns (names : List String) (value : Literal)

def Expr.literal? : Expr → Option Literal
  | .none => some .none
  | .nil => some .none
  | .bool b => some (.bool b)
  | .int n => some (.int n)
  | .float x => some (.float x)
  | .str text => some (.str text)
  | _ => Option.none

def Target.name? : Target → Option String
  | .name n => some n
  | _ => none

def StmtKind.plain? : StmtKind → Option PlainStmt
  | .importModule path => some (.imports path)
  | .assign targets value => do return .assigns (← targets.mapM Target.name?) (← value.literal?)
  | _ => none

def Stmt.plain? : Stmt → Option (Nat × PlainStmt)
  | .mk line kind => kind.plain?.map (line,·)

namespace PlainStmt

def instr : PlainStmt → InstrKind
  | imports path => .importModule path (.global (importedName path))
  | assigns names value => .assign (.literal value) (names.map .global)

def code (body : List (Nat × PlainStmt)) : List Instr := body.map fun s => .mk s.1 s.2.instr

end PlainStmt

variable {body : List (Nat × PlainStmt)} {program : List Stmt}

theorem Stmt.plain?_cons (plain : (first :: rest).mapM plain? = some body) :
    ∃ line kind s others, first = .mk line kind ∧ kind.plain? = some s ∧
      rest.mapM plain? = some others ∧ body = (line,s) :: others := by
  rw [List.mapM_cons] at plain
  obtain ⟨found,head,plain⟩ := bind_eq_some_iff.mp plain
  obtain ⟨others,tail,same⟩ := bind_eq_some_iff.mp plain
  cases same
  obtain ⟨line,kind⟩ := first
  obtain ⟨s,one,rfl⟩ := map_eq_some_iff.mp head
  exact ⟨line,kind,s,others,rfl,one,tail,rfl⟩

namespace Compile

variable {env : CompileEnv} {st : CompileState}

section

variable (top : AtModule st)

include top

theorem AtModule.storeName (name : String) : storeName name .dynamic env st = .ok (.global name,st) := by
  obtain ⟨s,only,module,_⟩ := top.scopes
  have found : Scope.find name true st.scopes = (none,st.scopes) := by simp [only,Scope.find,Scope.endsSearch,module]
  rw [Compile.storeName,bind_ok (resolve_apply name),found]
  rfl

theorem AtModule.compileStores {targets : List Target} {names} (named : targets.mapM Target.name? = some names) :
    (targets.mapM (Target.compileStore .dynamic)) env st = .ok (names.map .global,st) := by
  induction targets generalizing names with
  | nil =>
    cases named
    rfl
  | cons target targets ih =>
    rw [List.mapM_cons] at named
    obtain ⟨name,head,named⟩ := bind_eq_some_iff.mp named
    obtain ⟨others,tail,same⟩ := bind_eq_some_iff.mp named
    cases same
    cases target with
    | name n =>
      cases head
      have first : Target.compileStore .dynamic (.name name) env st = .ok (.global name,st) := top.storeName name
      rw [List.mapM_cons,bind_ok first,bind_ok (ih tail)]
      rfl
    | _ => contradiction

theorem AtModule.literal {e : Expr} {value} (found : e.literal? = some value) :
    ∃ typed, e.compile false env st = .ok (typed,st) ∧ typed.code = .literal value := by
  cases e with
  | none | nil | bool | int | float | str =>
    cases found
    exact ⟨_,bind_ok top.isTyped _,rfl⟩
  | _ => contradiction

theorem AtModule.plain {kind : StmtKind} {s} (found : kind.plain? = some s) :
    kind.compile env st = .ok (s.instr,st) := by
  cases kind with
  | importModule path =>
    cases found
    rw [StmtKind.compile,bind_ok (top.storeName _)]
    rfl
  | assign targets value =>
    obtain ⟨names,named,found⟩ := bind_eq_some_iff.mp found
    obtain ⟨literal,read,same⟩ := bind_eq_some_iff.mp found
    cases same
    obtain ⟨typed,compiled,code⟩ := @AtModule.literal env st top value literal read
    rw [StmtKind.compile,bind_ok top.isTyped,bind_ok compiled,assign,bind_ok top.isTyped,code]
    exact bind_ok (top.compileStores named) _
  | _ => contradiction

theorem AtModule.plainBlock (plain : program.mapM plain? = some body) :
    ∃ left, compileBlock program env st = .ok (PlainStmt.code body,left) ∧ left.plans = st.plans := by
  induction program generalizing st body with
  | nil =>
    cases plain
    exact ⟨st,rfl,rfl⟩
  | cons first program ih =>
    obtain ⟨line,kind,s,others,rfl,found,tail,rfl⟩ := plain?_cons plain
    have moved : AtModule { st with line } := ⟨top.alone,top.outermost⟩
    have compiled : compile (.mk line kind) env st = .ok (.mk line s.instr,{ st with line }) := by
      rw [compile,bind_ok (modify_apply _),bind_ok (moved.plain found)]
      rfl
    obtain ⟨left,rest,plans⟩ := ih moved tail
    refine ⟨left,?_,plans⟩
    rw [compileBlock,bind_ok compiled,bind_ok rest]
    rfl

end

end Compile

theorem compileProgram_plain (env : CompileEnv) (plans : Plans) (plain : program.mapM plain? = some body) :
    compileProgram env plans program false = .ok (PlainStmt.code body,plans) := by
  have top : Compile.AtModule { scopes := [{ kind := .module, qualname := "<module>" }], plans } := ⟨rfl,by simp⟩
  obtain ⟨left,compiled,same⟩ := @Compile.AtModule.plainBlock body program env _ top plain
  simp only [compileProgram,ReaderT.run,StateT.run,Bool.false_eq_true,if_false,compiled]
  exact congrArg (fun plans => Except.ok (PlainStmt.code body,plans)) same

theorem prepare_plain (parsed : parse text = .ok program) (plain : program.mapM plain? = some body) (w : World) :
    prepare text false w = .done (.ok (PlainStmt.code body)) w := by
  simp only [prepare,parsed,compileProgram_plain _ _ plain]

end EmbedScript
