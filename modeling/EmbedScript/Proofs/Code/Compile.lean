import EmbedScript.Code.Statement

/-!
Laws of compiling. `bind_ok` runs the first part of a compilation, `bind_eq_ok` takes one apart.
-/

namespace EmbedScript.Compile

open Scope

theorem bind_apply (x : Compile α) (f : α → Compile β) : (x >>= f) env st = match x env st with
      | .ok (a,left) => f a env left
      | .error e => .error e := by
  change (StateT.bind (x env) fun a => f a env) st = _
  unfold StateT.bind
  cases x env st <;> rfl

variable {a : α}

theorem bind_ok (ran : x env st = .ok (a,left)) (f : α → Compile β) : (x >>= f) env st = f a env left := by
  rw [bind_apply,ran]

theorem bind_eq_ok {f : α → Compile β} (ran : (x >>= f) env st = .ok (b,left)) :
    ∃ a middle, x env st = .ok (a,middle) ∧ f a env middle = .ok (b,left) := by
  rw [bind_apply] at ran
  split at ran
  case h_1 a middle first => exact ⟨a,middle,first,ran⟩
  case h_2 => contradiction

theorem scope_apply : scope env st = .ok (st.scopes.head?.getD { kind := .module, qualname := "<module>" },st) := rfl

theorem isTyped_apply : isTyped env st = .ok ((st.scopes.head?.getD { kind := .module, qualname := "<module>" }).typed,st) := rfl

theorem resolve_apply (name : String) : resolve name env st = .ok ((find name true st.scopes).1,
      { st with scopes := (find name true st.scopes).2 }) := rfl

@[simp] theorem modify_apply (f : CompileState → CompileState) : (modify f : Compile Unit) env st = .ok ((),f st) := rfl

def Yields (x : Compile α) (P : α → Prop) : Prop := ∀ ⦃env st a left⦄, x env st = .ok (a,left) → P a

theorem Yields.pure (holds : P a) : Yields (Pure.pure a) P := by
  intro env st b left ran
  cases ran
  exact holds

theorem Yields.bind (first : Yields x P) (rest : ∀ a, P a → Yields (f a) Q) : Yields (x >>= f) Q := by
  intro env st b left ran
  obtain ⟨a,middle,started,ran⟩ := bind_eq_ok ran
  exact rest a (first started) ran

theorem Yields.behind (rest : ∀ a, Yields (f a) Q) : Yields (x >>= f) Q :=
  Yields.bind (fun _ _ _ _ _ => trivial) fun a _ => rest a

theorem Yields.foldlM {P f} (each : ∀ b a, P b → Yields (f b a) P)
    (items : List α) (b : β) (start : P b) : Yields (items.foldlM f b) P := by
  induction items generalizing b with
  | nil => exact .pure start
  | cons item items ih => exact (each b item start).bind ih

theorem Yields.refuse (cause : CompileCause) : Yields (refuse cause) P := by
  intro env st a left ran
  cases ran

structure AtModule (st : CompileState) : Prop where
  alone : st.scopes.length = 1
  outermost : ∀ s ∈ st.scopes, s.kind = .module ∧ s.typed = false

namespace AtModule

theorem scopes (top : AtModule st) : ∃ s, st.scopes = [s] ∧ s.kind = .module ∧ s.typed = false := by
  obtain ⟨s,only⟩ := List.length_eq_one_iff.mp top.alone
  exact ⟨s,only,top.outermost s (by simp [only])⟩

theorem isTyped (top : AtModule st) : isTyped env st = .ok (false,st) := by
  obtain ⟨s,only,_,untyped⟩ := top.scopes
  rw [isTyped_apply,only,← untyped]
  rfl

theorem readName (top : AtModule st) (name : String) : readName name env st = .ok (.global name,st) := by
  obtain ⟨s,only,module,_⟩ := top.scopes
  have found : find name true st.scopes = (none,st.scopes) := by simp [only,find,endsSearch,module]
  rw [Compile.readName,bind_ok scope_apply,bind_ok (resolve_apply name),found]
  rfl

end AtModule

end EmbedScript.Compile

namespace EmbedScript.Expr

open Compile

theorem compile_name (name : String) : (Expr.name name).compile false = (do
    let _ ← isTyped
    return Typed.dynamic (← readName name)) := rfl

theorem compile_binary_untyped (op : BinaryOp) (l r : Expr) : (Expr.binary op l r).compile false = (do
    let here ← isTyped
    let left ← l.compile here
    let right ← r.compile here
    return Typed.dynamic (.binary op left.code right.code)) := rfl

theorem compile_binary_typed (op : BinaryOp) (l r : Expr) : (Expr.binary op l r).compile true = (do
    let _ ← isTyped
    let left ← l.compile true
    let right ← r.compile true
    return Typed.binary op left right) := rfl

theorem compileItems_cons (plain : ∀ inner, value ≠ .star inner)
    (items : List Expr) : Expr.compileItems (value :: items) = (do
      let value ← value.compile (← isTyped)
      return .one value.code :: (← Expr.compileItems items)) := by
  cases value with
  | star inner => exact absurd rfl (plain inner)
  | _ => rfl

end EmbedScript.Expr
