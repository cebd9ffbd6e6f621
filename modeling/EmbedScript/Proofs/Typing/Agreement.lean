import EmbedScript.Interpreter
import EmbedScript.Proofs.Typing.Visits

/-!
Kinds tracked or not, an expression means the same, as long as the locals keep to their kinds and no
extension answers for an operator of a scalar.
-/

namespace EmbedScript

open Typed

def CompileState.untyped (st : CompileState) : CompileState :=
  { st with scopes := st.scopes.modifyHead fun s => { s with typed := false } }

-- Code of a known kind evaluates as `d` does, to values of that kind.
structure Typed.Agrees (s : Scope) (t : Typed) (d : Code) : Prop where
  whole : t.kind ≠ .float
  same : ∀ {k f w}, d.Undisturbed s k f w → t.code.eval k f w = d.eval k f w
  sound : ∀ {k f w v left}, d.Undisturbed s k f w → d.eval k f w = .done v left →
    t.kind.isScalar = true → v.kind = t.kind

open Exec

variable {kind : Kind} {i : Nat}

namespace Typed

variable {s : Scope} {t : Typed} {d : Code}

variable {k : Engine} {f : Frame}

theorem scalarResult_ne_float (other : op ≠ .div)
    (whole : kind ≠ .float) (bound : scalarResult kind op = some result) : result ≠ .float := by
  rintro rfl
  cases kind <;> cases op <;> simp_all [scalarResult,BinaryOp.isComparison]

theorem Agrees.dynamic (same : ∀ {k f w}, d.Undisturbed s k f w → c.eval k f w = d.eval k f w) :
    Agrees s (dynamic c) d where
  whole := by simp [Typed.dynamic]
  same := same
  sound := by
    intro k f w v left _ _ scalar
    contradiction

theorem name_mem (scalar : kind.isScalar = true) (whole : kind ≠ .float) : kind.name ∈ ["int","bool","str"] := by
  cases kind <;> first | contradiction | simp [Kind.name,Kind.key?]

theorem Agrees.bound (found : scalarResult t.kind op = some result)
    (kinds : t.kind = t'.kind) (left : Agrees s t d) (right : Agrees s t' d')
    (undisturbed : (Code.binary op d d').Undisturbed s k f w)
    (ran : d.eval k f w = .done a w₁) (ran' : d'.eval k f w₁ = .done b w₂) :
    a.kind = t.kind ∧ b.kind = t.kind ∧ k.binary op a b w₂ = ofExcept (op.onScalars a b) w₂ := by
  have scalar := isScalar_of_bound found
  have before : d.Undisturbed s k f w := fun x inside => undisturbed x (.binaryLeft inside)
  have after : d'.Undisturbed s k f w₁ := fun x inside => undisturbed x (.binaryRight ran inside)
  have first : a.kind = t.kind := left.sound before ran scalar
  have second : b.kind = t.kind := kinds ▸ right.sound after ran' (kinds ▸ scalar)
  have intact := after w₂ (.ends ran')
  have silent := intact.silent _ (name_mem scalar left.whole)
  exact ⟨first,second,Engine.binary_scalar found left.whole first second silent⟩

theorem Agrees.binary (other : op ≠ .div) (left : Agrees s t d)
    (right : Agrees s t' d') : Agrees s (binary op t t') (.binary op d d') := by
  unfold Typed.binary
  simp only
  split
  case h_1 result found =>
    split at found
    case isFalse => contradiction
    case isTrue kinds =>
      refine ⟨scalarResult_ne_float other left.whole found,?_,?_⟩
      · intro k f w undisturbed
        refine bind_eq (left.same fun x inside => undisturbed x (.binaryLeft inside)) ?_
        intro a w₁ ran
        refine bind_eq (right.same fun x inside => undisturbed x (.binaryRight ran inside)) ?_
        intro b w₂ ran'
        exact (left.bound found kinds right undisturbed ran ran').2.2.symm
      · intro k f w v w₃ undisturbed done _
        obtain ⟨a,w₁,ran,done⟩ := bind_eq_done done
        obtain ⟨b,w₂,ran',done⟩ := bind_eq_done done
        obtain ⟨first,second,rule⟩ := left.bound found kinds right undisturbed ran ran'
        obtain ⟨computed,_⟩ := ofExcept_eq_done (rule.symm.trans done)
        exact onScalars_kind found left.whole first second computed
  case h_2 =>
    refine Agrees.dynamic ?_
    intro k f w undisturbed
    refine bind_eq (left.same fun x inside => undisturbed x (.binaryLeft inside)) ?_
    intro a w₁ ran
    refine bind_eq (right.same fun x inside => undisturbed x (.binaryRight ran inside)) ?_
    intro b w₂ ran'
    rfl

theorem Agrees.word {op} (operand : Agrees s t d) (word : t.kind = .int) {w a} (undisturbed : (Code.unary op d).Undisturbed s k f w)
    (ran : d.eval k f w = .done a left) :
    ∃ n, a = .int n ∧ k.unary op a left = ofExcept (op.onScalar (.int n)) left := by
  have inside : d.Undisturbed s k f w := fun x inside => undisturbed x (.unary inside)
  have kind : a.kind = t.kind := operand.sound inside ran (by rw [word]; rfl)
  obtain ⟨n,rfl⟩ := Value.eq_int (kind.trans word)
  have silent := (inside left (.ends ran)).silent "int" (by simp)
  exact ⟨n,rfl,Engine.unary_int op n silent⟩

theorem Agrees.scalarUnary (op : UnaryOp) (operand : Agrees s t d) (word : t.kind = .int) :
    Agrees s ⟨.int,.scalarUnary .int op t.code⟩ (.unary op d) where
  whole := by simp
  same := by
    intro k f w undisturbed
    refine bind_eq (operand.same fun x inside => undisturbed x (.unary inside)) ?_
    intro a left ran
    obtain ⟨n,rfl,rule⟩ := operand.word word undisturbed ran
    exact rule.symm
  sound := by
    intro k f w v left undisturbed done _
    obtain ⟨a,middle,ran,done⟩ := bind_eq_done done
    obtain ⟨n,rfl,rule⟩ := operand.word word undisturbed ran
    obtain ⟨computed,_⟩ := ofExcept_eq_done (rule.symm.trans done)
    exact Engine.onScalar_int computed

theorem Agrees.plus (operand : Agrees s t d) (word : t.kind = .int) : Agrees s t (.unary .pos d) where
  whole := operand.whole
  same := by
    intro k f w undisturbed
    rw [← bind_pure (t.code.eval k f)]
    refine bind_eq (operand.same fun x inside => undisturbed x (.unary inside)) ?_
    intro a left ran
    obtain ⟨n,rfl,rule⟩ := operand.word word undisturbed ran
    exact rule.symm
  sound := by
    intro k f w v left undisturbed done _
    obtain ⟨a,middle,ran,done⟩ := bind_eq_done done
    obtain ⟨n,rfl,rule⟩ := operand.word word undisturbed ran
    obtain ⟨computed,_⟩ := ofExcept_eq_done (rule.symm.trans done)
    rw [word]
    exact Engine.onScalar_int computed

theorem Agrees.unary (op : UnaryOp) (operand : Agrees s t d) : Agrees s (unary op t) (.unary op d) := by
  unfold Typed.unary
  split
  case h_1 word => exact operand.scalarUnary .neg word
  case h_2 word => exact operand.scalarUnary .invert word
  case h_3 float => exact absurd float operand.whole
  case h_4 word => exact operand.plus word
  case h_5 float => exact absurd float operand.whole
  case h_6 =>
    refine Agrees.dynamic ?_
    intro k f w undisturbed
    refine bind_eq (operand.same fun x inside => undisturbed x (.unary inside)) ?_
    intro a left ran
    rfl

theorem Agrees.not (operand : Agrees s t d) : Agrees s ⟨.bool,.not t.code⟩ (.not d) where
  whole := by simp
  same := by
    intro k f w undisturbed
    refine bind_eq (operand.same fun x inside => undisturbed x (.not inside)) ?_
    intro a left ran
    rfl
  sound := by
    intro k f w v left _ done _
    obtain ⟨a,_,_,done⟩ := bind_eq_done done
    obtain ⟨b,_,_,done⟩ := bind_eq_done done
    cases done
    rfl

-- `and` and `or`: the second operand is evaluated if the first tests as `go`, else the first is
-- the result.
theorem Agrees.junction {join : Code → Code → Code} {go} (evaluates : ∀ c c' k f, (join c c').eval k f = (do
      let first ← c.eval k f
      let test ← k.truthy first
      if test = go then c'.eval k f else return first))
    (before : ∀ {k f w x}, d.Visits k f w x → (join d d').Visits k f w x)
    (behind : ∀ {k f w left next x a}, d.eval k f w = .done a left → k.truthy a left = .done go next →
      d'.Visits k f next x → (join d d').Visits k f w x)
    (left : Agrees s t d) (right : Agrees s t' d') :
    Agrees s (if t.kind == .bool && t'.kind == .bool then ⟨.bool,join t.code t'.code⟩
      else Typed.dynamic (join t.code t'.code)) (join d d') := by
  have same : ∀ {k f w}, (join d d').Undisturbed s k f w → (join t.code t'.code).eval k f w = (join d d').eval k f w := by
    intro k f w undisturbed
    rw [evaluates,evaluates]
    refine bind_eq (left.same fun x inside => undisturbed x (before inside)) ?_
    intro a w₁ ran
    refine bind_eq rfl ?_
    intro test w₂ asked
    split
    case isTrue taken =>
      subst taken
      exact right.same fun x inside => undisturbed x (behind ran asked inside)
    case isFalse => rfl
  split
  case isTrue kinds =>
    simp only [Bool.and_eq_true,beq_iff_eq] at kinds
    refine ⟨by simp,same,?_⟩
    intro k f w v w₃ undisturbed done _
    rw [evaluates] at done
    obtain ⟨a,w₁,ran,rest⟩ := bind_eq_done done
    obtain ⟨test,w₂,asked,last⟩ := bind_eq_done rest
    split at last
    case isTrue taken =>
      subst taken
      have after := fun x inside => undisturbed x (behind ran asked inside)
      rw [← kinds.2]
      exact right.sound after last (by rw [kinds.2]; rfl)
    case isFalse =>
      cases last
      rw [← kinds.1]
      exact left.sound (fun x inside => undisturbed x (before inside)) ran (by rw [kinds.1]; rfl)
  case isFalse => exact Agrees.dynamic same

theorem Agrees.or (left : Agrees s t d) (right : Agrees s t' d') :
    Agrees s (if t.kind == .bool && t'.kind == .bool then ⟨.bool,.or t.code t'.code⟩
      else Typed.dynamic (.or t.code t'.code)) (.or d d') := by
  refine left.junction ?_ .orLeft .orRight right
  intro c c' k f
  refine bind_congr fun first => bind_congr fun test => ?_
  cases test <;> rfl

theorem expect_kind (scalar : kind.isScalar = true) (known : v.kind = kind)
    (w : World) : kind.expect v w = .done v w := by
  subst known
  cases v <;> first | rfl | contradiction

theorem ofKind_eval (gives : kind.isScalar = true → ∀ v left, c.eval k f w = .done v left → v.kind = kind) :
    (ofKind kind c).code.eval k f w = c.eval k f w := by
  unfold ofKind
  split
  case isTrue scalar =>
    rw [← bind_pure (c.eval k f)]
    exact bind_eq rfl fun v left ran => expect_kind scalar (gives scalar v left ran) left
  case isFalse => rfl

theorem Agrees.ofKind (whole : kind ≠ .float) (same : ∀ {k f w}, d.Undisturbed s k f w → c.eval k f w = d.eval k f w)
    (sound : ∀ {k f w v left}, d.Undisturbed s k f w → d.eval k f w = .done v left →
      kind.isScalar = true → v.kind = kind) : Agrees s (ofKind kind c) d := by
  refine ⟨whole,?_,sound⟩
  intro k f w undisturbed
  refine (ofKind_eval fun scalar v left ran => ?_).trans (same undisturbed)
  exact sound undisturbed ((same undisturbed).symm.trans ran) scalar

theorem Agrees.literal (whole : kind ≠ .float) (known : l.value.kind = kind) :
    Agrees s (literal true kind l) (.literal l) where
  whole := whole
  same := fun _ => rfl
  sound := by
    intro k f w v left _ done _
    cases done
    exact known

theorem Agrees.slot (whole : s.slotKind i ≠ .float) (n : String) :
    Agrees s (Typed.ofKind (s.slotKind i) (.slot i n false)) (.slot i n false) := by
  refine Agrees.ofKind whole (fun _ => rfl) ?_
  intro k f w v left undisturbed done scalar
  have accepted := (undisturbed w .start).slots i v (readSlot_done done).2
  simp only [Kind.accepts,Bool.or_eq_true,beq_iff_eq] at accepted
  rcases accepted with unknown | known
  · rw [unknown] at scalar
    contradiction
  · exact known.symm

theorem Agrees.ternary {c y n dc} (condition : Agrees s c dc) (yes : Agrees s y dy) (no : Agrees s n dn) :
    Agrees s (Typed.ofKind (if y.kind = n.kind then y.kind else .dynamic)
      (.ternary c.code y.code n.code)) (.ternary dc dy dn) := by
  refine Agrees.ofKind ?_ ?_ ?_
  · split
    · exact yes.whole
    · simp
  · intro k f w undisturbed
    refine bind_eq (condition.same fun x inside => undisturbed x (.condition inside)) ?_
    intro a w₁ ran
    refine bind_eq rfl ?_
    intro test w₂ asked
    cases test with
    | true => exact yes.same fun x inside => undisturbed x (.yes ran asked inside)
    | false => exact no.same fun x inside => undisturbed x (.no ran asked inside)
  · intro k f w v left undisturbed done scalar
    obtain ⟨a,w₁,ran,done⟩ := bind_eq_done done
    obtain ⟨test,w₂,asked,done⟩ := bind_eq_done done
    split at scalar
    case isFalse => contradiction
    case isTrue kinds =>
      rw [if_pos kinds]
      cases test with
      | true => exact yes.sound (fun x inside => undisturbed x (.yes ran asked inside)) done scalar
      | false =>
        have after := fun x inside => undisturbed x (.no ran asked inside)
        exact (no.sound after done (kinds ▸ scalar)).trans kinds.symm

end Typed

-- Compiling with and without kinds

namespace Compile

variable {env : CompileEnv} {st : CompileState} {s : Scope}

structure InRoutine (st : CompileState) (s : Scope) : Prop where
  innermost : st.scopes.head? = some s
  routine : s.kind = .function

section

variable (inside : InRoutine st s)

include inside

theorem InRoutine.isTyped : isTyped env st = .ok (s.typed,st) := by
  rw [isTyped_apply,inside.innermost]
  rfl

theorem InRoutine.untyped : InRoutine st.untyped { s with typed := false } := by
  obtain ⟨outer,shape⟩ := List.head?_eq_some_iff.mp inside.innermost
  refine ⟨?_,inside.routine⟩
  rw [CompileState.untyped,shape]
  rfl

theorem InRoutine.scope : scope env st = .ok (s,st) := by
  rw [scope_apply,inside.innermost]
  rfl

variable (free : s.globals.contains n = false) (found : s.slot? n = some i)

include free found

theorem InRoutine.resolve : resolve n env st = .ok (some (.slot i),st) := by
  obtain ⟨outer,shape⟩ := List.head?_eq_some_iff.mp inside.innermost
  have here : Scope.find n true st.scopes = (some (.slot i),st.scopes) := by
    rw [shape,Scope.find]
    simp only [Scope.endsSearch,inside.routine,free,Scope.visible?,found]
    rfl
  rw [resolve_apply,here]

theorem InRoutine.readName : readName n env st = .ok (.slot i n false,st) := by
  rw [Compile.readName,bind_ok inside.scope,bind_ok (inside.resolve free found),inside.routine]
  rfl

theorem InRoutine.nameKind : nameKind n env st = .ok (s.slotKind i,st) := by
  rw [Compile.nameKind,bind_ok (inside.resolve free found)]
  simp only
  rw [bind_ok inside.scope]
  rfl

theorem InRoutine.compile_name : (Expr.name n).compile true env st = .ok (ofKind (s.slotKind i) (.slot i n false),st) := by
  change (do
    let _ ← Compile.isTyped
    let code ← Compile.readName n
    return ofKind (← Compile.nameKind n) code) env st = _
  rw [bind_ok inside.isTyped,bind_ok (inside.readName free found),bind_ok (inside.nameKind free found)]
  rfl

end

end Compile

namespace Expr

open Compile

structure Twin (env : CompileEnv) (st : CompileState) (s : Scope) (e : Expr) (t d : Typed) : Prop where
  typed : e.compile true env st = .ok (t,st)
  plain : e.compile false env st.untyped = .ok (d,st.untyped)
  agrees : t.Agrees s d.code
  elementary : d.code.Elementary

section

variable {env : CompileEnv} {st : CompileState} {s : Scope}

section

variable (inside : InRoutine st s)

include inside

theorem Twin.name (free : s.globals.contains n = false) (found : s.slot? n = some i) (whole : s.slotKind i ≠ .float) :
    Twin env st s (.name n) (ofKind (s.slotKind i) (.slot i n false)) (dynamic (.slot i n false)) where
  typed := inside.compile_name free found
  plain := by
    rw [compile_name,bind_ok inside.untyped.isTyped,bind_ok (inside.untyped.readName free found)]
    rfl
  agrees := Agrees.slot whole n
  elementary := rfl

theorem Twin.binary (other : op ≠ .div)
    (left : Twin env st s l t d) (right : Twin env st s r t' d') :
    Twin env st s (.binary op l r) (Typed.binary op t t') (Typed.dynamic (.binary op d.code d'.code)) where
  typed := by
    rw [compile_binary_typed,bind_ok inside.isTyped,bind_ok left.typed,bind_ok right.typed]
    rfl
  plain := by
    rw [compile_binary_untyped,bind_ok inside.untyped.isTyped,bind_ok left.plain,bind_ok right.plain]
    rfl
  agrees := left.agrees.binary other right.agrees
  elementary := ⟨left.elementary,right.elementary⟩

theorem Twin.unary (op : UnaryOp) (operand : Twin env st s x t d) :
    Twin env st s (.unary op x) (Typed.unary op t) (Typed.dynamic (.unary op d.code)) where
  typed := by
    change (do
      let _ ← isTyped
      return Typed.unary op (← x.compile true)) env st = _
    rw [bind_ok inside.isTyped,bind_ok operand.typed]
    rfl
  plain := by
    change (do
      let here ← isTyped
      return dynamic (.unary op (← x.compile here).code)) env st.untyped = _
    rw [bind_ok inside.untyped.isTyped,bind_ok operand.plain]
    rfl
  agrees := operand.agrees.unary op
  elementary := operand.elementary

theorem Twin.not (operand : Twin env st s x t d) :
    Twin env st s (.not x) ⟨.bool,.not t.code⟩ (dynamic (.not d.code)) where
  typed := by
    change (do
      let _ ← isTyped
      return (⟨.bool,.not (← x.compile true).code⟩ : Typed)) env st = _
    rw [bind_ok inside.isTyped,bind_ok operand.typed]
    rfl
  plain := by
    change (do
      let here ← isTyped
      return dynamic (.not (← x.compile here).code)) env st.untyped = _
    rw [bind_ok inside.untyped.isTyped,bind_ok operand.plain]
    rfl
  agrees := operand.agrees.not
  elementary := operand.elementary

theorem Twin.junction (tracks : s.typed = true) {r} {join : Code → Code → Code}
    (compiles : ∀ typed, whole.compile typed = (do
      let here ← isTyped
      let a ← l.compile (typed || here)
      let b ← r.compile (typed || here)
      if typed && a.kind == Kind.bool && b.kind == Kind.bool then
        return ⟨.bool,join a.code b.code⟩
      if typed && !here then
        let a ← l.compile false
        let b ← r.compile false
        return dynamic (join a.code b.code)
      return dynamic (join a.code b.code)))
    (left : Twin env st s l t d) (right : Twin env st s r t' d')
    (agrees : Agrees s (if t.kind == .bool && t'.kind == .bool then ⟨.bool,join t.code t'.code⟩
      else dynamic (join t.code t'.code)) (join d.code d'.code))
    (elementary : (join d.code d'.code).Elementary) :
    Twin env st s whole (if t.kind == .bool && t'.kind == .bool then ⟨.bool,join t.code t'.code⟩
        else dynamic (join t.code t'.code))
      (dynamic (join d.code d'.code)) where
  typed := by
    rw [compiles,bind_ok inside.isTyped,tracks]
    simp only [Bool.true_or,Bool.true_and,Bool.not_true]
    rw [bind_ok left.typed,bind_ok right.typed]
    split <;> rfl
  plain := by
    rw [compiles,bind_ok inside.untyped.isTyped]
    simp only [Bool.or_self,Bool.false_and]
    rw [bind_ok left.plain,bind_ok right.plain]
    rfl
  agrees := agrees
  elementary := elementary

theorem Twin.ternary {y n tc} (condition : Twin env st s c tc dc)
    (yes : Twin env st s y ty dy) (no : Twin env st s n tn dn) :
    Twin env st s (.ternary c y n) (ofKind (if ty.kind = tn.kind then ty.kind else .dynamic) (.ternary tc.code ty.code tn.code))
      (dynamic (.ternary dc.code dy.code dn.code)) where
  typed := by
    change (do
      let _ ← isTyped
      let condition ← c.compile true
      let yes ← y.compile true
      let no ← n.compile true
      return ofKind (if yes.kind = no.kind then yes.kind else .dynamic) (.ternary condition.code yes.code no.code)) env st = _
    rw [bind_ok inside.isTyped,bind_ok condition.typed,bind_ok yes.typed,bind_ok no.typed]
    rfl
  plain := by
    change (do
      let here ← isTyped
      let condition ← c.compile here
      let yes ← y.compile here
      let no ← n.compile here
      return dynamic (.ternary condition.code yes.code no.code)) env st.untyped = _
    rw [bind_ok inside.untyped.isTyped,bind_ok condition.plain,bind_ok yes.plain,bind_ok no.plain]
    rfl
  agrees := condition.agrees.ternary yes.agrees no.agrees
  elementary := ⟨condition.elementary,yes.elementary,no.elementary⟩

end

end

end Expr

open Compile

def sampleFrame : Frame := { base := 0, captures := #[], home := ⟨0⟩ }

def Outcome.gives (o : Outcome Value) (text : String) : Bool :=
  match o with
  | .done (.str found) _ => found == text
  | _ => false

end EmbedScript
