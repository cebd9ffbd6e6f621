import EmbedScript.Proofs.Code.Compile
import EmbedScript.Proofs.Typing.Operators

/-!
Known kinds are right: what is not bound on scalars is checked when it is read.
-/

namespace EmbedScript

open Exec Typed

-- Arithmetic on floats

variable {v : Value} {kind : Kind}

theorem Value.eq_float (kind : v.kind = .float) : ∃ x, v = .float x := by
  cases v with
  | float x => exact ⟨x,rfl⟩
  | _ => contradiction

theorem Engine.binary_float {k : Engine}
    (bound : scalarResult .float op = some result) (computed : op.isComparison = false)
    (x y : Float) (silent : w.extensions.Silent "float") :
    k.binary op (.float x) (.float y) w = ofExcept (op.onScalars (.float x) (.float y)) w := by
  rw [binary_silent op rfl rfl (silent.1 op)]
  refine settled_computed computed ?_
  cases op with
  | add | sub | mul => rfl
  | div =>
    have rules : builtinBinary .div (.float x) (.float y) w =
        (do return (← ofExcept (floatBinary .div x y)).map Value.float) w := rfl
    have bounds : BinaryOp.onScalars .div (.float x) (.float y) = (do return (← floatBinary .div x y).elim .none .float) := rfl
    rw [rules,bounds,floatBinary]
    split <;> rfl
  | _ => simp [scalarResult,computed] at bound

theorem Typed.onScalars_float (bound : scalarResult .float op = some result)
    (computed : op.onScalars (.float x) (.float y) = .ok v) : v.kind = result := by
  cases op with
  | add | sub | mul =>
    cases bound
    cases computed
    rfl
  | div =>
    have bounds : BinaryOp.onScalars .div (.float x) (.float y) = (do return (← floatBinary .div x y).elim .none .float) := rfl
    rw [bounds,floatBinary] at computed
    cases bound
    split at computed <;> cases computed
    rfl
  | lt | le | gt | ge | eq | ne =>
    cases bound
    cases computed
    rfl
  | _ => simp [scalarResult,BinaryOp.isComparison] at bound

namespace Typed

theorem onScalars_known (bound : scalarResult kind op = some result) (left : a.kind = kind)
    (right : b.kind = kind) (computed : op.onScalars a b = .ok v) : v.kind = result := by
  by_cases float : kind = .float
  · subst float
    obtain ⟨x,rfl⟩ := Value.eq_float left
    obtain ⟨y,rfl⟩ := Value.eq_float right
    exact onScalars_float bound computed
  · exact onScalars_kind bound float left right computed

theorem expect_gives (ran : kind.expect v w = .done u left) : u.kind = kind ∧ left = w := by
  cases kind with
  | int | float | bool | str =>
    cases v with
    | int | float | bool | str =>
      first
      | contradiction
      | cases ran
        exact ⟨rfl,rfl⟩
    | _ => contradiction
  | _ => cases v <;> contradiction

theorem onScalar_known {op : UnaryOp} (number : kind = .int ∨ kind = .float ∧ op = .neg)
    (known : a.kind = kind) (computed : op.onScalar a = .ok v) : v.kind = kind := by
  rcases number with rfl | ⟨rfl,rfl⟩
  · obtain ⟨n,rfl⟩ := Value.eq_int known
    exact Engine.onScalar_int computed
  · obtain ⟨x,rfl⟩ := Value.eq_float known
    cases computed
    rfl

end Typed

-- Values of code of a known kind

def Code.evident? : Code → Option Kind
  | .literal l => some l.value.kind
  | .expect kind _ => some kind
  | .scalar kind op l r =>
    if l.evident? = some kind ∧ r.evident? = some kind then scalarResult kind op else none
  | .scalarUnary kind op c =>
    if c.evident? = some kind ∧ (kind = .int ∨ kind = .float ∧ op = .neg) then some kind else none
  | .not _ => some .bool
  | .and l r | .or l r =>
    if l.evident? = some .bool ∧ r.evident? = some .bool then some .bool else none
  | _ => none

theorem Code.evident_sound {c : Code} (evident : c.evident? = some kind)
    (ran : c.eval k f w = .done v left) :
    v.kind = kind := by
  fun_induction Code.evident? c generalizing kind w left v with
  | case1 l =>
    cases evident
    cases ran
    rfl
  | case2 checked c =>
    cases evident
    obtain ⟨u,middle,_,ran⟩ := bind_eq_done ran
    exact (expect_gives ran).1
  | case3 bound op l r known first second =>
    obtain ⟨a,w₁,ran₁,ran⟩ := bind_eq_done ran
    obtain ⟨b,w₂,ran₂,ran⟩ := bind_eq_done ran
    obtain ⟨computed,_⟩ := ofExcept_eq_done ran
    exact onScalars_known evident (first known.1 ran₁) (second known.2 ran₂) computed
  | case5 bound op c known operand =>
    cases evident
    obtain ⟨a,middle,first,ran⟩ := bind_eq_done ran
    obtain ⟨computed,_⟩ := ofExcept_eq_done ran
    exact onScalar_known known.2 (operand known.1 first) computed
  | case7 c =>
    cases evident
    obtain ⟨a,w₁,_,ran⟩ := bind_eq_done ran
    obtain ⟨test,w₂,_,ran⟩ := bind_eq_done ran
    cases ran
    rfl
  | case8 l r known first second =>
    cases evident
    obtain ⟨a,w₁,ran₁,ran⟩ := bind_eq_done ran
    obtain ⟨test,w₂,_,ran⟩ := bind_eq_done ran
    cases test with
    | true => exact second known.2 ran
    | false =>
      cases ran
      exact first known.1 ran₁
  | case10 l r known first second =>
    cases evident
    obtain ⟨a,w₁,ran₁,ran⟩ := bind_eq_done ran
    obtain ⟨test,w₂,_,ran⟩ := bind_eq_done ran
    cases test with
    | true =>
      cases ran
      exact first known.1 ran₁
    | false => exact second known.2 ran
  | case4 | case6 | case9 | case11 | case12 => contradiction

namespace Typed

def Sound (t : Typed) : Prop := ∀ ⦃k f w v left⦄, t.code.eval k f w = .done v left → t.kind.isScalar = true → v.kind = t.kind

def Evident (t : Typed) : Prop := t.kind.isScalar = true → t.code.evident? = some t.kind

variable {t : Typed}

theorem Evident.sound (evident : t.Evident) : t.Sound := fun _ _ _ _ _ ran scalar => Code.evident_sound (evident scalar) ran

theorem Evident.dynamic (c : Code) : (dynamic c).Evident := by
  intro scalar
  contradiction

theorem Evident.ofKind (kind : Kind) (c : Code) : (Typed.ofKind kind c).Evident := by
  intro scalar
  have checked : (Typed.ofKind kind c).code = .expect kind c := if_pos scalar
  rw [checked]
  rfl

theorem Evident.binary (op : BinaryOp) (left : t.Evident) (right : t'.Evident) : (binary op t t').Evident := by
  unfold Typed.binary
  simp only
  split
  case h_1 result found =>
    split at found
    case isFalse => contradiction
    case isTrue kinds =>
      intro _
      have scalar := isScalar_of_bound found
      have second : t'.code.evident? = some t.kind := by rw [right (kinds ▸ scalar),kinds]
      exact (if_pos ⟨left scalar,second⟩).trans found
  case h_2 => exact .dynamic _

theorem Evident.scalarUnary {op} (number : kind = .int ∨ kind = .float ∧ op = .neg)
    (operand : t.Evident) (known : t.kind = kind) : Evident ⟨kind,.scalarUnary kind op t.code⟩ := by
  intro scalar
  have before : t.code.evident? = some kind := by rw [operand (known ▸ scalar),known]
  exact if_pos ⟨before,number⟩

theorem Evident.unary (op : UnaryOp) (operand : t.Evident) : (unary op t).Evident := by
  unfold Typed.unary
  split
  case h_1 word => exact operand.scalarUnary (.inl rfl) word
  case h_2 word => exact operand.scalarUnary (.inl rfl) word
  case h_3 float => exact operand.scalarUnary (.inr ⟨rfl,rfl⟩) float
  case h_4 => exact operand
  case h_5 => exact operand
  case h_6 => exact .dynamic _

theorem Evident.not (c : Code) : Evident ⟨.bool,.not c⟩ := fun _ => rfl

theorem Evident.truth (evident : t.Evident) (known : t.kind = .bool) : t.code.evident? = some .bool := by
  rw [evident (by rw [known]; rfl),known]

theorem Evident.castTo (type : HostType) (value : t.Evident) : (Compile.castTo type t).Evident := by
  unfold Compile.castTo
  simp only
  split
  case isTrue => exact value
  case isFalse => exact .ofKind _ _

end Typed

namespace Compile

theorem readAttribute_evident (receiver : Typed) (name : String) : Yields (readAttribute receiver name) Evident := by
  refine .behind fun type => .pure ?_
  cases type.bind (·.property? name) with
  | some property => exact .ofKind _ _
  | none => exact .dynamic _

theorem bindMethod_evident (type : HostType) (name : String) (receiver : Typed) (arguments : List Typed) :
    Yields (bindMethod type name receiver arguments) Evident := by
  unfold bindMethod
  simp only
  split
  case h_1 => exact .refuse _
  case h_2 => exact .pure (.ofKind _ _)

theorem convertTo_evident (type : HostType) (evident : value.Evident) :
    Yields (convertTo type value) Evident := by
  unfold convertTo
  simp only
  split
  case isTrue => exact .pure evident
  split
  case isTrue => exact .pure (.ofKind _ _)
  split
  case h_1 => exact .pure (.ofKind _ _)
  refine .behind fun env => ?_
  split
  case isTrue => exact .pure (.ofKind _ _)
  case isFalse => exact .refuse _

end Compile

open Compile

theorem Expr.compile_call_evident (callee : Expr) (arguments : List Argument) :
    Yields ((Expr.call callee arguments).compile true) Evident := by
  have late (here : Bool) : Yields (do
      let function ← callee.compile here
      let values ← Expr.compileArguments here arguments
      return dynamic (.call function.code (arguments.zipWith Argument.withCode values)))
      Evident := .behind fun _ => .behind fun _ => .pure (.dynamic _)
  cases callee with
  | «attribute» object name =>
    refine .behind fun here => .behind fun receiver => .behind fun type => ?_
    split
    case h_1 =>
      split
      case isTrue =>
        refine .behind fun values => ?_
        split
        · exact late here
        · exact bindMethod_evident _ _ _ _
      case isFalse => exact late here
    case h_2 => exact late here
  | _ => exact .behind late

theorem Expr.compile_comprehension_evident (kind : Collection) (element : Expr) (target : Target)
    (iterable : Expr) (condition : Option Expr) :
    Yields ((Expr.comprehension kind element target iterable condition).compile true) Evident := by
  cases kind with
  | dict =>
    cases element with
    | dict entries =>
      match entries with
      | [] | [.pair _ _] | .pair _ _ :: _ :: _ | .unpack _ :: _ =>
        exact .behind fun _ => .behind fun _ => .behind fun _ => .behind fun _ => .behind fun _ => .pure (.dynamic _)
    | _ => exact .behind fun _ => .behind fun _ => .behind fun _ => .behind fun _ => .behind fun _ => .pure (.dynamic _)
  | _ => exact .behind fun _ => .behind fun _ => .behind fun _ => .behind fun _ => .behind fun _ => .pure (.dynamic _)

theorem Expr.compile_evident : (e : Expr) → Yields (e.compile true) Evident
  | .none | .bool _ | .int _ | .float _ | .str _ => .behind fun _ => .pure fun _ => rfl
  | .name _ => .behind fun _ => .behind fun _ => .behind fun _ => .pure (.ofKind _ _)
  | .binary op l r => .behind fun _ => l.compile_evident.bind fun _ left => r.compile_evident.bind fun _ right =>
      .pure (left.binary op right)
  | .unary op x => .behind fun _ => x.compile_evident.bind fun _ operand => .pure (operand.unary op)
  | .not _ => .behind fun _ => .behind fun _ => .pure (.not _)
  | .and l r | .or l r => by
    refine .behind fun here => l.compile_evident.bind fun a left => r.compile_evident.bind fun b right => ?_
    split
    case isTrue kinds =>
      simp only [Bool.true_and,Bool.and_eq_true,beq_iff_eq] at kinds
      exact .pure fun _ => if_pos ⟨left.truth kinds.1,right.truth kinds.2⟩
    case isFalse =>
      split
      · exact .behind fun _ => .behind fun _ => .pure (.dynamic _)
      · exact .pure (.dynamic _)
  | .ternary .. => .behind fun _ => .behind fun _ => .behind fun _ => .behind fun _ => .pure (.ofKind _ _)
  | .attribute .. => .behind fun _ => .behind fun _ => readAttribute_evident _ _
  | .call callee arguments => compile_call_evident callee arguments
  | .comprehension .. => compile_comprehension_evident ..
  | .convert value kind => .behind fun _ => .behind fun type => value.compile_evident.bind fun _ evident =>
      convertTo_evident type evident
  | .cast value kind => .behind fun _ => .behind fun type => value.compile_evident.bind fun _ evident =>
      .pure (evident.castTo type)
  | .typed value => .behind fun _ => value.compile_evident.bind fun _ evident => .pure evident
  -- Of what follows no kind is known.
  | .nil => .behind fun _ => .pure (.dynamic _)
  | .format _ | .tuple _ | .list _ | .set _ | .dict _ | .lambda .. | .super =>
    .behind fun _ => .behind fun _ => .pure (.dynamic _)
  | .identity .. | .membership .. | .index .. => .behind fun _ => .behind fun _ => .behind fun _ => .pure (.dynamic _)
  | .slice .. => .behind fun _ => .behind fun _ => .behind fun _ => .behind fun _ => .behind fun _ => .pure (.dynamic _)
  | .star _ | .doubleStar _ => .behind fun _ => .refuse _

theorem Expr.compile_sound (e : Expr) : Yields (e.compile true) Sound := fun _ _ _ _ ran => (e.compile_evident ran).sound

end EmbedScript
