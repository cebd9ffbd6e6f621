import EmbedScript.Proofs.Code.Compile
import EmbedScript.Proofs.Typing.Operators

/-!
What an evaluation passes through. Where all locals hold plain values nothing else runs.
-/

namespace EmbedScript

open Exec Engine Value

-- Numbers, truth values, texts, locals of the scope, and operators without the division that makes
-- floats.
def Expr.Elementary (s : Scope) : Expr → Prop
  | .int _ | .bool _ | .str _ => True
  | .name n => s.globals.contains n = false ∧ (s.slot? n).isSome = true
  | .binary op l r => op ≠ .div ∧ l.Elementary s ∧ r.Elementary s
  | .unary _ x | .not x => x.Elementary s
  | .and l r | .or l r => l.Elementary s ∧ r.Elementary s
  | .ternary condition yes no => condition.Elementary s ∧ yes.Elementary s ∧ no.Elementary s
  | _ => False

structure Intact (s : Scope) (f : Frame) (w : World) : Prop where
  slots : ∀ i v, w.heap.cell (f.cell (.slot i)) = some v → (s.slotKind i).accepts v = true
  silent : ∀ key ∈ ["int","bool","str"], w.extensions.Silent key

-- A state in which the evaluation of the code starts or ends, or that of code inside it.
inductive Code.Visits (k : Engine) (f : Frame) : Code → World → World → Prop where
  | start {c : Code} {w : World} : Visits k f c w w
  | ends {c : Code} {w left : World} {v : Value} (ran : c.eval k f w = .done v left) :
      Visits k f c w left
  | binaryLeft {op : BinaryOp} {l r : Code} {w x : World} (inside : Visits k f l w x) :
      Visits k f (.binary op l r) w x
  | binaryRight {op : BinaryOp} {l r : Code} {w left x : World} {a : Value}
      (ran : l.eval k f w = .done a left) (inside : Visits k f r left x) :
      Visits k f (.binary op l r) w x
  | unary {op : UnaryOp} {c : Code} {w x : World} (inside : Visits k f c w x) :
      Visits k f (.unary op c) w x
  | not {c : Code} {w x : World} (inside : Visits k f c w x) : Visits k f (.not c) w x
  | andLeft {l r : Code} {w x : World} (inside : Visits k f l w x) : Visits k f (.and l r) w x
  | andRight {l r : Code} {w left next x : World} {a : Value} (ran : l.eval k f w = .done a left)
      (test : k.truthy a left = .done true next) (inside : Visits k f r next x) :
      Visits k f (.and l r) w x
  | orLeft {l r : Code} {w x : World} (inside : Visits k f l w x) : Visits k f (.or l r) w x
  | orRight {l r : Code} {w left next x : World} {a : Value} (ran : l.eval k f w = .done a left)
      (test : k.truthy a left = .done false next) (inside : Visits k f r next x) :
      Visits k f (.or l r) w x
  | condition {c yes no : Code} {w x : World} (inside : Visits k f c w x) :
      Visits k f (.ternary c yes no) w x
  | yes {c yes no : Code} {w left next x : World} {a : Value} (ran : c.eval k f w = .done a left)
      (test : k.truthy a left = .done true next) (inside : Visits k f yes next x) :
      Visits k f (.ternary c yes no) w x
  | no {c yes no : Code} {w left next x : World} {a : Value} (ran : c.eval k f w = .done a left)
      (test : k.truthy a left = .done false next) (inside : Visits k f no next x) :
      Visits k f (.ternary c yes no) w x

def Code.Undisturbed (s : Scope) (k : Engine) (f : Frame) (c : Code) (w : World) : Prop := ∀ x, c.Visits k f w x → Intact s f x

-- Plain values

def Value.isPlain : Value → Bool
  | .none | .bool _ | .int _ | .float _ | .str _ => true
  | _ => false

structure PlainFrame (f : Frame) (w : World) : Prop where
  slots : ∀ i v, w.heap.cell (f.cell (.slot i)) = some v → v.isPlain = true
  silent : ∀ key ∈ ["NoneType","bool","int","float","str"], w.extensions.Silent key

namespace Engine

variable {k : Engine} {w : World} {a v : Value}

theorem isObject_of_plain (plain : v.isPlain = true) : v.isObject = false := by cases v <;> first | rfl | contradiction

theorem typeKey_of_plain (plain : v.isPlain = true) : v.typeKey ∈ ["NoneType","bool","int","float","str"] := by
  cases v <;> first | contradiction | simp [typeKey]

theorem truthy_plain (plain : v.isPlain = true) (ran : k.truthy v w = .done test left) : left = w := by
  cases v <;> first | contradiction | (cases ran; rfl)

theorem equals_plain (first : a.isPlain = true) (second : b.isPlain = true) : ∃ same, k.equals a b w = .done same w := by
  cases a <;> try contradiction
  all_goals cases b <;> first | contradiction | exact ⟨_,rfl⟩

theorem order_plain (first : a.isPlain = true) (second : b.isPlain = true) : ∃ o, k.order a b w = .done o w := by
  cases a <;> try contradiction
  all_goals cases b <;> first | contradiction | exact ⟨_,rfl⟩

theorem intPower_plain (ran : intPower x y = .ok v) : v.isPlain = true := by
  unfold intPower at ran
  split at ran
  · split at ran <;> cases ran
    rfl
  · cases power : orTooLarge (Word.pow? x y.toInt.toNat) with
    | error e =>
      rw [power] at ran
      contradiction
    | ok n =>
      rw [power] at ran
      cases ran
      rfl

theorem intBinary_plain (ran : intBinary op x y = .ok o) : ∀ v ∈ o, v.isPlain = true := by
  cases op with
  | add | sub | mul | floorDiv | mod =>
    obtain ⟨n,rfl⟩ := lifted ran
    simp [isPlain]
  | pow =>
    have power : (do return some (← intPower x y)) = Except.ok o := ran
    cases computed : intPower x y with
    | error e =>
      rw [computed] at power
      contradiction
    | ok v =>
      rw [computed] at power
      cases power
      have plain := intPower_plain computed
      simp [plain]
  | div | rshift =>
    simp only [intBinary] at ran
    split at ran
    · contradiction
    · cases ran
      simp [isPlain]
  | lshift =>
    simp only [intBinary] at ran
    split at ran
    · contradiction
    · obtain ⟨n,rfl⟩ := lifted ran
      simp [isPlain]
  | _ =>
    cases ran
    simp [isPlain]

theorem repeatText_plain (ran : repeatText text n = .ok v) : v.isPlain = true := by
  unfold repeatText at ran
  cases counted : Sequence.repeatCount text.utf8ByteSize n with
  | error e =>
    rw [counted] at ran
    contradiction
  | ok count =>
    rw [counted] at ran
    cases ran
    rfl

theorem containerBinary_plain (first : a.isPlain = true) (second : b.isPlain = true)
    (ran : containerBinary op a b w = .done o left) :
    left = w ∧ ∀ v ∈ o, v.isPlain = true := by
  unfold containerBinary at ran
  split at ran
  all_goals first | contradiction | skip
  case h_1 =>
    cases ran
    simp [isPlain]
  case h_2 | h_3 =>
    obtain ⟨v,_,lifted,done⟩ := bind_eq_done ran
    obtain ⟨made,rfl⟩ := ofExcept_eq_done lifted
    cases done
    have plain := repeatText_plain made
    simp [plain]
  all_goals
    cases ran
    simp

theorem builtinBinary_plain (first : a.isPlain = true) (second : b.isPlain = true) (ran : builtinBinary op a b w = .done o left) :
    left = w ∧ ∀ v ∈ o, v.isPlain = true := by
  have words {x y} (computed : ofExcept (intBinary op x y) w = .done o left) : left = w ∧ ∀ v ∈ o, v.isPlain = true := by
    obtain ⟨made,rfl⟩ := ofExcept_eq_done computed
    exact ⟨rfl,intBinary_plain made⟩
  have floats {x y} (computed : (do return (← (floatBinary op x y : Exec (Option Float))).map float) w =
        .done o left) : left = w ∧ ∀ v ∈ o, v.isPlain = true := by
    obtain ⟨r,_,lifted,done⟩ := bind_eq_done computed
    obtain ⟨_,rfl⟩ := ofExcept_eq_done lifted
    cases done
    simp [isPlain]
  cases a <;> try contradiction
  all_goals cases b <;> try contradiction
  case bool.bool x y =>
    cases op with
    | bitAnd | bitOr | bitXor | lt | le | gt | ge | eq | ne =>
      cases ran
      simp [isPlain]
    | _ => exact words ran
  all_goals first
    | exact words ran
    | exact floats ran
    | exact containerBinary_plain first second ran

theorem binary_plain (first : a.isPlain = true) (second : b.isPlain = true)
    (silent : ∀ key ∈ ["NoneType","bool","int","float","str"], w.extensions.Silent key)
    (ran : k.binary op a b w = .done v left) : left = w ∧ v.isPlain = true := by
  rw [binary_silent op (isObject_of_plain first) (isObject_of_plain second) ((silent _ (typeKey_of_plain first)).1 op)] at ran
  cases op with
  | eq | ne =>
    obtain ⟨same,equal⟩ := @equals_plain k w a b first second
    obtain ⟨_,_,compared,done⟩ := bind_eq_done ran
    cases equal.symm.trans compared
    cases done
    exact ⟨rfl,rfl⟩
  | lt | le | gt | ge =>
    obtain ⟨o,order⟩ := @order_plain k w a b first second
    obtain ⟨_,_,compared,done⟩ := bind_eq_done ran
    obtain ⟨_,_,ordered,mapped⟩ := bind_eq_done compared
    cases order.symm.trans ordered
    cases mapped
    cases o with
    | none => contradiction
    | some o =>
      cases done
      exact ⟨rfl,rfl⟩
  | _ =>
    obtain ⟨o,_,computed,done⟩ := bind_eq_done ran
    obtain ⟨rfl,plain⟩ := builtinBinary_plain first second computed
    cases o with
    | none => contradiction
    | some v =>
      cases done
      exact ⟨rfl,plain _ rfl⟩

theorem unary_plain {op} (plain : a.isPlain = true)
    (silent : ∀ key ∈ ["NoneType","bool","int","float","str"], w.extensions.Silent key)
    (ran : k.unary op a w = .done v left) : left = w ∧ v.isPlain = true := by
  have quiet := (silent _ (typeKey_of_plain plain)).2 op
  have words {n} (computed : ofExcept (op.onScalar (.int n)) w = .done v left) : left = w ∧ v.isPlain = true := by
    obtain ⟨made,rfl⟩ := ofExcept_eq_done computed
    obtain ⟨m,rfl⟩ := eq_int (onScalar_int made)
    exact ⟨rfl,rfl⟩
  cases a <;> try contradiction
  all_goals simp only [unary,bind_apply,pure_apply,extension?,look_apply,quiet] at ran
  case int n | bool b => cases op <;> exact words ran
  case float x =>
    cases op <;> cases ran
    all_goals exact ⟨rfl,rfl⟩
  all_goals cases op <;> cases ran

end Engine

theorem readSlot_done {f : Frame} (ran : f.readSlot i n false w = .done v left) :
    left = w ∧ w.heap.cell (f.cell (.slot i)) = some v := by
  simp only [Frame.readSlot,bind_apply,heap_apply] at ran
  cases held : w.heap.cell (f.cell (.slot i)) with
  | none =>
    rw [held] at ran
    contradiction
  | some u =>
    rw [held] at ran
    cases ran
    exact ⟨rfl,rfl⟩

namespace Code

-- Code of the same kind as elementary expressions, with nothing bound before it runs.
def Elementary : Code → Prop
  | .literal _ => True
  | .slot _ _ inClass => inClass = false
  | .binary _ l r | .and l r | .or l r => l.Elementary ∧ r.Elementary
  | .unary _ c | .not c => c.Elementary
  | .ternary condition yes no => condition.Elementary ∧ yes.Elementary ∧ no.Elementary
  | _ => False

variable {c : Code}

theorem Elementary.still (simple : c.Elementary) (plain : PlainFrame f w) {v}
    (ran : c.eval k f w = .done v left) : left = w ∧ v.isPlain = true := by
  fun_induction Code.Elementary c generalizing v left with
  | case1 l =>
    cases ran
    refine ⟨rfl,?_⟩
    cases l <;> rfl
  | case2 i n inClass =>
    subst simple
    obtain ⟨same,held⟩ := readSlot_done ran
    exact ⟨same,plain.slots i v held⟩
  | case3 op l r first second =>
    obtain ⟨a,_,ran₁,rest⟩ := bind_eq_done ran
    obtain ⟨rfl,leftPlain⟩ := first simple.1 ran₁
    obtain ⟨b,_,ran₂,last⟩ := bind_eq_done rest
    obtain ⟨rfl,rightPlain⟩ := second simple.2 ran₂
    exact binary_plain leftPlain rightPlain plain.silent last
  | case4 l r first second =>
    obtain ⟨a,_,ran₁,rest⟩ := bind_eq_done ran
    obtain ⟨rfl,leftPlain⟩ := first simple.1 ran₁
    obtain ⟨test,_,asked,last⟩ := bind_eq_done rest
    cases truthy_plain leftPlain asked
    cases test with
    | true => exact second simple.2 last
    | false =>
      cases last
      exact ⟨rfl,leftPlain⟩
  | case5 l r first second =>
    obtain ⟨a,_,ran₁,rest⟩ := bind_eq_done ran
    obtain ⟨rfl,leftPlain⟩ := first simple.1 ran₁
    obtain ⟨test,_,asked,last⟩ := bind_eq_done rest
    cases truthy_plain leftPlain asked
    cases test with
    | true =>
      cases last
      exact ⟨rfl,leftPlain⟩
    | false => exact second simple.2 last
  | case6 op c ih =>
    obtain ⟨a,_,ran₁,last⟩ := bind_eq_done ran
    obtain ⟨rfl,operand⟩ := ih simple ran₁
    exact unary_plain operand plain.silent last
  | case7 c ih =>
    obtain ⟨a,_,ran₁,rest⟩ := bind_eq_done ran
    obtain ⟨rfl,operand⟩ := ih simple ran₁
    obtain ⟨test,_,asked,last⟩ := bind_eq_done rest
    cases truthy_plain operand asked
    cases last
    exact ⟨rfl,rfl⟩
  | case8 c yes no first second third =>
    obtain ⟨a,_,ran₁,rest⟩ := bind_eq_done ran
    obtain ⟨rfl,tested⟩ := first simple.1 ran₁
    obtain ⟨test,_,asked,last⟩ := bind_eq_done rest
    cases truthy_plain tested asked
    cases test with
    | true => exact second simple.2.1 last
    | false => exact third simple.2.2 last
  | case9 => contradiction

theorem Elementary.visits (simple : c.Elementary) (plain : PlainFrame f w)
    (visits : c.Visits k f w x) : x = w := by
  induction visits with
  | start => rfl
  | ends ran => exact (simple.still plain ran).1
  | binaryLeft _ ih | andLeft _ ih | orLeft _ ih | condition _ ih => exact ih simple.1 plain
  | unary _ ih | not _ ih => exact ih simple plain
  | binaryRight ran _ ih =>
    obtain ⟨rfl,_⟩ := simple.1.still plain ran
    exact ih simple.2 plain
  | andRight ran test _ ih | orRight ran test _ ih =>
    obtain ⟨rfl,tested⟩ := simple.1.still plain ran
    cases truthy_plain tested test
    exact ih simple.2 plain
  | yes ran test _ ih =>
    obtain ⟨rfl,tested⟩ := simple.1.still plain ran
    cases truthy_plain tested test
    exact ih simple.2.1 plain
  | no ran test _ ih =>
    obtain ⟨rfl,tested⟩ := simple.1.still plain ran
    cases truthy_plain tested test
    exact ih simple.2.2 plain

theorem Elementary.undisturbed (simple : c.Elementary) (plain : PlainFrame f w)
    (intact : Intact s f w) : c.Undisturbed s k f w := by
  intro x visits
  cases simple.visits plain visits
  exact intact

end Code

end EmbedScript
