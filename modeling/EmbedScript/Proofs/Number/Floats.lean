import EmbedScript.Interpreter
import EmbedScript.Proofs.Typing.Operators

/-!
Comparing floats. Code that knows its operands to be floats asks the machine; all other code asks for
their order first, and a number that is none has no order.
-/

namespace EmbedScript

open Exec Float.Model

namespace BinaryOp

-- What the machine answers.
def machine (op : BinaryOp) (a b : Float) : Bool :=
  match op with
  | .lt => a < b
  | .le => a ≤ b
  | .gt => b < a
  | .ge => b ≤ a
  | .eq => a == b
  | .ne => a != b
  | _ => false

-- Only two floats of which one is at most the other have an order.
def ofFloats (op : BinaryOp) (a b : Float) : Exec Value :=
  if op ≠ .eq ∧ op ≠ .ne ∧ ¬ a ≤ b ∧ ¬ b ≤ a then
    fail (.type s!"'{op.symbol}' not supported between instances of 'float' and 'float'")
  else return .bool (op.machine a b)

end BinaryOp

namespace Double

theorem unpacked_swap (x y : UnpackedFloat) : y.compare x = (x.compare y).map Ordering.swap := by
  have digits (e e' : Int) (m m' : Nat) : (compare e' e).then (compare m' m) = ((compare e e').then (compare m m')).swap := by
    rw [Ordering.swap_then,Int.compare_swap,Nat.compare_swap]
  rcases x with (_ | _) | _ | _ | ⟨_ | _,m,e,_⟩ <;> rcases y with (_ | _) | _ | _ | ⟨_ | _,m',e',_⟩ <;> try rfl
  · exact congrArg (some ·.swap) (digits e e' m m')
  · exact congrArg some (digits e e' m m')

variable {a b : Float}

-- One comparison of the machine decides all six.
def order? (a b : Float) : Option Ordering := a.toModel.unpack.compare b.toModel.unpack

theorem order?_swap (a b : Float) : order? b a = (order? a b).map Ordering.swap := unpacked_swap _ _

theorem lt_iff : a < b ↔ order? a b = some .lt := by
  change decide (a.toModel.lt b.toModel = true) = true ↔ _
  rw [decide_eq_true_iff]
  exact beq_iff_eq

theorem le_iff : a ≤ b ↔ (order? a b).any (·.isLE) := by
  exact decide_eq_true_iff

theorem beq_eq (a b : Float) : (a == b) = (order? a b == some .eq) := rfl

theorem compare?_eq (a b : Float) : compare? a b = order? a b := by
  have less := @lt_iff a b
  have greater := @lt_iff b a
  have same := beq_eq a b
  rw [order?_swap a b] at greater
  unfold compare?
  cases found : order? a b with
  | none => simp [less,greater,same,found]
  | some o => cases o <;> simp [less,greater,same,found]

theorem unordered_iff : compare? a b = none ↔ ¬ a ≤ b ∧ ¬ b ≤ a := by
  rw [compare?_eq,le_iff,le_iff,order?_swap a b]
  cases order? a b with
  | none => simp
  | some o => cases o <;> simp

theorem floatCompares_eq (comparison : op.isComparison = true) (a b : Float) :
    floatCompares op a b = op.machine a b := by
  unfold floatCompares BinaryOp.machine
  rw [compare?_eq]
  have swapped := order?_swap a b
  cases op with
  | lt | le | gt | ge | eq | ne =>
    cases found : order? a b with
    | none => simp [lt_iff,le_iff,bne,beq_eq a b,swapped,found]
    | some o => cases o <;> simp [lt_iff,le_iff,bne,beq_eq a b,swapped,found,BinaryOp.holds]
  | _ => contradiction

end Double

theorem Engine.binary_floats (comparison : op.isComparison = true) {k : Engine}
    (silent : w.extensions.Silent "float") (a b : Float) :
    k.binary op (.float a) (.float b) w = op.ofFloats a b w := by
  have equal : k.equals (.float a) (.float b) w = .done (a == b) w := rfl
  have order : k.order (.float a) (.float b) w = .done (Double.compare? a b) w := rfl
  have answer := Double.floatCompares_eq comparison a b
  rw [binary_silent op rfl rfl (silent.1 op),BinaryOp.ofFloats]
  cases op with
  | eq =>
    rw [settled_eq equal,if_neg (by simp)]
    rfl
  | ne =>
    rw [settled_ne equal,if_neg (by simp)]
    rfl
  | lt | le | gt | ge =>
    cases found : Double.compare? a b with
    | none =>
      rw [found] at order
      rw [if_pos (by simp [Double.unordered_iff.mp found])]
      refine bind_done (a := none) ?_ _
      rw [compares,bind_done order]
      rfl
    | some o =>
      have ordered : ¬ (¬ a ≤ b ∧ ¬ b ≤ a) := by simp [← Double.unordered_iff,found]
      rw [found] at order
      rw [floatCompares,found] at answer
      rw [settled_order (by simp) order,if_neg (by simp_all),← answer]
      rfl
  | _ => contradiction

-- With kinds known a comparison of two floats gives what the machine answers. Without them it gives the
-- same, but for two floats that have no order.
theorem float_comparison {op : BinaryOp} (comparison : op.isComparison = true) {k : Engine} {f : Frame}
    {w middle left : World} {c d : Code} {a b : Float} (first : c.eval k f w = .done (.float a) middle)
    (second : d.eval k f middle = .done (.float b) left) (silent : left.extensions.Silent "float") :
    (Typed.binary op ⟨.float, c⟩ ⟨.float, d⟩).code.eval k f w = .done (.bool (op.machine a b)) left ∧
      (Code.binary op c d).eval k f w = op.ofFloats a b left := by
  have operands (act : Value → Value → Exec Value) : (do act (← c.eval k f) (← d.eval k f)) w =
      act (.float a) (.float b) left := by
    rw [bind_done first, bind_done second]
  constructor
  · have bound : Typed.binary op ⟨.float, c⟩ ⟨.float, d⟩ = ⟨.bool, .scalar .float op c d⟩ := by
      cases op <;> first | rfl | contradiction
    have computed : op.onScalars (.float a) (.float b) = .ok (.bool (floatCompares op a b)) := by
      cases op <;> first | rfl | contradiction
    rw [bound, ← Double.floatCompares_eq comparison]
    refine (operands fun a b => ofExcept (op.onScalars a b)).trans ?_
    rw [computed]
    rfl
  · exact (operands (k.binary op)).trans (Engine.binary_floats comparison silent a b)

def nanCode : Code := .literal (.float Double.nan)

def oneCode : Code := .literal (.float 1.0)

theorem nan_unordered : ¬ Double.nan ≤ 1.0 ∧ ¬ 1.0 ≤ Double.nan := by decide +kernel

theorem float_comparison_nan : World.blank.extensions.Silent "float" ∧
    (Typed.binary .ge ⟨.float, nanCode⟩ ⟨.float, oneCode⟩).code.eval (engine 1) ⟨0, #[], ⟨0⟩⟩ .blank =
      .done (.bool false) .blank ∧
    (Code.binary .ge nanCode oneCode).eval (engine 1) ⟨0, #[], ⟨0⟩⟩ .blank =
      fail (.type "'>=' not supported between instances of 'float' and 'float'") .blank := by
  obtain ⟨typed, dynamic⟩ := float_comparison (show BinaryOp.ge.isComparison = true from rfl)
    (k := engine 1) (f := ⟨0, #[], ⟨0⟩⟩) (w := .blank) (c := nanCode) (d := oneCode) rfl rfl World.blank_silent
  have answer : BinaryOp.ge.machine Double.nan 1.0 = false := by decide +kernel
  rw [answer] at typed
  rw [BinaryOp.ofFloats, if_pos (by simp [nan_unordered])] at dynamic
  exact ⟨World.blank_silent, typed, dynamic⟩

-- With kinds `nan < 1.0` is false, without them it is an error.
theorem nan_order_differs : ¬ ∀ (op : BinaryOp) (k : Engine) (f : Frame) (w : World) (a b : Float),
    op.isComparison = true → w.extensions.Silent "float" →
    (Typed.binary op ⟨.float, .literal (.float a)⟩ ⟨.float, .literal (.float b)⟩).code.eval k f w =
      (Code.binary op (.literal (.float a)) (.literal (.float b))).eval k f w := by
  intro claimed
  have same : _ = (engine 1).binary .lt (.float Double.nan) (.float 1.0) .blank :=
    claimed .lt (engine 1) ⟨0, #[], ⟨0⟩⟩ .blank Double.nan 1.0 rfl World.blank_silent
  rw [Engine.binary_floats rfl World.blank_silent, BinaryOp.ofFloats, if_pos (by simp [nan_unordered])] at same
  cases same

end EmbedScript
