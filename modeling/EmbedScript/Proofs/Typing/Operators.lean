import EmbedScript.Code.Compile
import EmbedScript.Eval.Expression
import EmbedScript.Proofs.Exec

/-!
Operators on scalars. The rules of running agree with the operation chosen before running.
-/

namespace EmbedScript

open Exec Typed BinaryOp

def Extensions.Silent (x : Extensions) (key : String) : Prop :=
  (∀ op : BinaryOp, x.get? key op.hook = none) ∧ ∀ op : UnaryOp, x.get? key op.hook = none

def World.blank : World := { types := ⟨[]⟩, maxDepth := 0 }

theorem World.blank_silent : World.blank.extensions.Silent key := ⟨fun _ => rfl,fun _ => rfl⟩

def Value.isObject : Value → Bool
  | .object .. => true
  | _ => false

namespace Value

variable {v : Value}

theorem eq_int (kind : v.kind = .int) : ∃ n, v = .int n := by
  cases v with
  | int n => exact ⟨n,rfl⟩
  | _ => contradiction

theorem eq_str (kind : v.kind = .str) : ∃ text, v = .str text := by
  cases v with
  | str text => exact ⟨text,rfl⟩
  | _ => contradiction

theorem eq_bool (kind : v.kind = .bool) : ∃ b, v = .bool b := by
  cases v with
  | bool b => exact ⟨b,rfl⟩
  | _ => contradiction

end Value

namespace Engine

variable {k : Engine}

theorem scriptBinary_silent (op : BinaryOp) (left : a.isObject = false) (right : b.isObject = false)
    (silent : w.extensions.get? a.typeKey op.hook = none) :
    k.scriptBinary op a b w = .done none w := by
  have asked : extension? a.typeKey op.hook w = .done none w := by rw [extension?,look_apply,silent]
  unfold scriptBinary
  split
  · contradiction
  · split
    · contradiction
    · simp only [pure_bind,Option.isSome_none,Bool.false_eq_true,if_false]
      cases b with
      | object => contradiction
      | _ => exact bind_done asked _

def settled (k : Engine) (op : BinaryOp) (a b : Value) : Exec Value := do
  match op with
  | .eq => return .bool (← k.equals a b)
  | .ne => return .bool !(← k.equals a b)
  | .lt | .le | .gt | .ge =>
    match ← k.compares op a b with
    | some v => return v
    | none => unsupported op a b
  | _ =>
    match ← builtinBinary op a b with
    | some v => return v
    | none => unsupported op a b

theorem binary_silent (op : BinaryOp) (left : a.isObject = false) (right : b.isObject = false)
    (silent : w.extensions.get? a.typeKey op.hook = none) :
    k.binary op a b w = k.settled op a b w := by
  unfold binary
  rw [bind_done (scriptBinary_silent op left right silent)]
  cases op <;> rfl

theorem settled_order (ordered : op ∈ [lt,.le,.gt,.ge]) (order : k.order a b w = .done (some o) w) :
    k.settled op a b w = .done (.bool (op.holds o)) w := by
  have compared : k.compares op a b w = .done (some (.bool (op.holds o))) w := by
    rw [compares,bind_done order]
    rfl
  simp only [List.mem_cons,List.not_mem_nil,or_false] at ordered
  rcases ordered with rfl | rfl | rfl | rfl <;> exact bind_done compared _

theorem settled_computed (computed : op.isComparison = false)
    (builtin : builtinBinary op a b w = ofExcept (result.map some) w) :
    k.settled op a b w = ofExcept result w := by
  have rules : k.settled op a b = (do
      match ← builtinBinary op a b with
      | some v => return v
      | none => unsupported op a b) := by
    cases op <;> first | rfl | contradiction
  rw [rules,bind_apply,builtin]
  cases result <;> rfl

theorem settled_eq (equal : k.equals a b w = .done same w) :
    k.settled .eq a b w = .done (.bool same) w := bind_done equal _

theorem settled_ne (equal : k.equals a b w = .done same w) :
    k.settled .ne a b w = .done (.bool !same) w := bind_done equal _

theorem lifted {r : Except Fault α} {f : α → Value} {o}
    (ran : (do return some (f (← r))) = Except.ok o) : ∃ n, o = some (f n) := by
  cases r with
  | error e => contradiction
  | ok n => exact ⟨n,(Except.ok.inj ran).symm⟩

theorem intBinary_ne_none (computed : op.isComparison = false) (x y : Int64) : intBinary op x y ≠ .ok none := by
  intro ran
  cases op with
  | add | sub | mul | floorDiv | mod =>
    obtain ⟨n,shape⟩ := lifted ran
    contradiction
  | pow =>
    obtain ⟨n,shape⟩ := @lifted Value _ id _ ran
    contradiction
  | div | rshift =>
    simp only [intBinary] at ran
    split at ran <;> cases ran
  | lshift =>
    simp only [intBinary] at ran
    split at ran
    · contradiction
    · obtain ⟨n,shape⟩ := lifted ran
      contradiction
  | bitAnd | bitXor | bitOr => cases ran
  | _ => contradiction

theorem onScalars_int (computed : op.isComparison = false) (x y : Int64) :
    (op.onScalars (.int x) (.int y)).map some = intBinary op x y := by
  have answered := intBinary_ne_none computed x y
  have rules : op.onScalars (.int x) (.int y) = (do
      match ← intBinary op x y with
      | some v => return v
      | none => return .bool (op.holds (compare x.toInt y.toInt))) := rfl
  rw [rules]
  cases result : intBinary op x y with
  | error e => rfl
  | ok v =>
    cases v with
    | none => exact absurd result answered
    | some v => rfl

theorem binary_int (op : BinaryOp) (x y : Int64) (silent : w.extensions.Silent "int") :
    k.binary op (.int x) (.int y) w = ofExcept (op.onScalars (.int x) (.int y)) w := by
  rw [binary_silent op rfl rfl (silent.1 op)]
  have equal : k.equals (.int x) (.int y) w = .done (x == y) w := rfl
  have order : k.order (.int x) (.int y) w = .done (some (compare x.toInt y.toInt)) w := rfl
  have same : (compare x.toInt y.toInt == .eq) = (x == y) := by
    rw [Bool.eq_iff_iff]
    simp [Int64.toInt_inj]
  cases op with
  | eq =>
    rw [settled_eq equal,← same]
    rfl
  | ne =>
    rw [settled_ne equal,← same]
    rfl
  | lt | le | gt | ge =>
    rw [settled_order (by simp) order]
    rfl
  | _ =>
    refine settled_computed rfl ?_
    rw [onScalars_int rfl]
    rfl

theorem binary_str (bound : op = .add ∨ op.isComparison = true) (x y : String) (silent : w.extensions.Silent "str") :
    k.binary op (.str x) (.str y) w = ofExcept (op.onScalars (.str x) (.str y)) w := by
  rw [binary_silent op rfl rfl (silent.1 op)]
  have equal : k.equals (.str x) (.str y) w = .done (x == y) w := rfl
  have order : k.order (.str x) (.str y) w = .done (some (compare x y)) w := rfl
  have same : (compare x y == .eq) = (x == y) := by
    rw [Bool.eq_iff_iff]
    simp
  cases op with
  | eq =>
    rw [settled_eq equal,← same]
    rfl
  | ne =>
    rw [settled_ne equal,← same]
    rfl
  | lt | le | gt | ge =>
    rw [settled_order (by simp) order]
    rfl
  | add => rfl
  | _ => simp [isComparison] at bound

theorem binary_bool (bound : op = .eq ∨ op = .ne) (x y : Bool) (silent : w.extensions.Silent "bool") :
    k.binary op (.bool x) (.bool y) w = ofExcept (op.onScalars (.bool x) (.bool y)) w := by
  rw [binary_silent op rfl rfl (silent.1 op)]
  have equal : k.equals (.bool x) (.bool y) w = .done (x == y) w := by cases x <;> cases y <;> rfl
  rcases bound with rfl | rfl
  · rw [settled_eq equal]
    cases x <;> cases y <;> rfl
  · rw [settled_ne equal]
    cases x <;> cases y <;> rfl

theorem unary_int (op : UnaryOp) (x : Int64) (silent : w.extensions.Silent "int") :
    k.unary op (.int x) w = ofExcept (op.onScalar (.int x)) w := by
  have quiet := silent.2 op
  have asked : extension? "int" op.hook w = .done none w := by rw [extension?,look_apply,quiet]
  simp only [unary,bind_apply,pure_apply,Value.typeKey,asked]
  cases op <;> rfl

theorem onScalar_int {op : UnaryOp} {n} (computed : op.onScalar (.int n) = .ok v) : v.kind = .int := by
  cases op with
  | neg =>
    simp only [UnaryOp.onScalar,orTooLarge] at computed
    split at computed <;> cases computed
    rfl
  | pos | invert =>
    cases computed
    rfl

end Engine

variable {kind : Kind}

theorem Engine.binary_scalar {k : Engine} {w}
    (bound : scalarResult kind op = some result) (whole : kind ≠ .float) {b}
    (left : a.kind = kind) (right : b.kind = kind) (silent : w.extensions.Silent kind.name) :
    k.binary op a b w = ofExcept (op.onScalars a b) w := by
  cases kind with
  | int =>
    obtain ⟨x,rfl⟩ := Value.eq_int left
    obtain ⟨y,rfl⟩ := Value.eq_int right
    exact binary_int op _ _ silent
  | str =>
    obtain ⟨x,rfl⟩ := Value.eq_str left
    obtain ⟨y,rfl⟩ := Value.eq_str right
    refine binary_str ?_ _ _ silent
    cases op <;> simp [scalarResult,isComparison] at bound ⊢
  | bool =>
    obtain ⟨x,rfl⟩ := Value.eq_bool left
    obtain ⟨y,rfl⟩ := Value.eq_bool right
    refine binary_bool ?_ _ _ silent
    cases op <;> simp [scalarResult] at bound ⊢
  | float => contradiction
  | _ => simp [scalarResult] at bound

theorem Typed.isScalar_of_bound (bound : scalarResult kind op = some result) : kind.isScalar = true := by
  cases kind <;> first | rfl | simp [scalarResult] at bound

theorem Typed.onScalars_kind (bound : scalarResult kind op = some result) (whole : kind ≠ .float) {b v}
    (left : a.kind = kind) (right : b.kind = kind) (computed : op.onScalars a b = .ok v) :
    v.kind = result := by
  cases kind with
  | int =>
    obtain ⟨x,rfl⟩ := Value.eq_int left
    obtain ⟨y,rfl⟩ := Value.eq_int right
    cases op with
    | add | sub | mul | floorDiv | mod =>
      have ran := (Engine.onScalars_int rfl _ _).symm.trans (congrArg (Except.map some) computed)
      obtain ⟨n,shape⟩ := Engine.lifted ran
      cases shape
      cases bound
      rfl
    | bitAnd | bitXor | bitOr | eq | ne | lt | le | gt | ge =>
      cases computed
      cases bound
      rfl
    | div =>
      have ran := (Engine.onScalars_int rfl _ _).symm.trans (congrArg (Except.map some) computed)
      simp only [intBinary] at ran
      split at ran
      · cases ran
      · cases ran
        cases bound
        rfl
    | _ => contradiction
  | str =>
    obtain ⟨x,rfl⟩ := Value.eq_str left
    obtain ⟨y,rfl⟩ := Value.eq_str right
    cases op <;> simp [scalarResult,isComparison] at bound <;> cases bound <;> cases computed <;> rfl
  | bool =>
    obtain ⟨x,rfl⟩ := Value.eq_bool left
    obtain ⟨y,rfl⟩ := Value.eq_bool right
    cases computed
    cases op <;> simp [scalarResult] at bound <;> cases bound <;> rfl
  | float => contradiction
  | _ => simp [scalarResult] at bound

end EmbedScript
