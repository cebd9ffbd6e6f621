import EmbedScript.Proofs.Code.Scopes
import EmbedScript.Proofs.Typing.Agreement
import EmbedScript.Proofs.Typing.Known

/-!
Augmented assignment, with kinds tracked and without. The two agree on values that do not change in
place.
-/

namespace EmbedScript

open Exec Compile Typed InstrKind Scope

-- What changes in place

def Value.changesInPlace (w : World) (op : BinaryOp) : Value → Bool
  | .object _ c => (w.heap.cls c).members.contains op.inPlace
  | .list _ => op == .add
  | _ => false

theorem Engine.augment_eq_binary {k : Engine}
    (fixed : a.changesInPlace w op = false) : k.augment op a b w = k.binary op a b w := by
  cases a with
  | object r c =>
    have absent : hasMember c op.inPlace w = .done false w := congrArg (Outcome.done · w) fixed
    have asked : k.objectHook (.object r c) c op.inPlace [b] w = .done none w := by
      rw [objectHook,bind_done absent]
      rfl
    rw [augment,bind_done asked]
    simp only
  | list r =>
    cases op with
    | add => cases fixed
    | _ => simp only [augment,pure_bind]
  | _ => simp only [augment,pure_bind]

-- The statement with kinds tracked

def Scope.kindAfter (s : Scope) (slot : Nat) (known : Kind) : Kind :=
  if s.slotKind slot = .dynamic then known else s.slotKind slot

def Scope.checkedAgainst (s : Scope) (slot : Nat) (known : Kind) : Kind :=
  if s.kindAfter slot known = known then .dynamic else s.kindAfter slot known

namespace Compile

variable {env : CompileEnv} {st left : CompileState} {s : Scope}

theorem InRoutine.kept (inside : InRoutine st s) (keeps : Keeps x)
    (ran : x env st = .ok (a,left)) : ∃ captures, InRoutine left { s with captures } := by
  have same : left.scopes.head?.map bare = some s.bare := by
    rw [← List.head?_map,keeps ran,List.head?_map,inside.innermost]
    rfl
  obtain ⟨t,innermost,bare⟩ := Option.map_eq_some_iff.mp same
  have shape : t = { s with captures := t.captures } := by
    cases s
    cases bare
    rfl
  refine ⟨t.captures,?_,inside.routine⟩
  rw [← shape]
  exact innermost

theorem InRoutine.declaredKind (inside : InRoutine st s) (tracks : s.typed = true) (slot : Nat)
    (known : Kind) : ∃ left s', InRoutine left s' ∧ s'.slotKind slot = s.kindAfter slot known ∧
      declaredKind slot known env st = .ok (s.kindAfter slot known,left) := by
  rw [Compile.declaredKind,bind_ok inside.scope,tracks]
  simp only [Bool.not_true,Bool.false_eq_true,if_false]
  by_cases news : s.slotKind slot = .dynamic ∧ known ≠ .dynamic
  · obtain ⟨outer,shape⟩ := List.head?_eq_some_iff.mp inside.innermost
    refine ⟨{ st with scopes := s.setKind slot known :: outer },s.setKind slot known,⟨rfl,inside.routine⟩,?_,?_⟩
    · rw [kindAfter,if_pos news.1]
      simp [slotKind,setKind]
    · rw [if_pos news,kindAfter,if_pos news.1]
      simp only [modifyScope,bind_apply,modify_apply,shape]
      rfl
  · have same : s.kindAfter slot known = s.slotKind slot := by
      unfold kindAfter
      split
      · simp_all
      · rfl
    refine ⟨st,s,inside,same.symm,?_⟩
    rw [if_neg news,same]
    rfl

variable {x : String} {i : Nat}

theorem InRoutine.storeName (inside : InRoutine st s) (tracks : s.typed = true)
    (free : s.globals.contains x = false) (found : s.slot? x = some i)
    (stored : storeName x known env st = .ok (store,left)) :
    store = .cell (.slot i) x (s.checkedAgainst i known) ∧ ∃ s', InRoutine left s' ∧ s'.slotKind i = s.kindAfter i known := by
  obtain ⟨middle,s',inside',after,declared⟩ := @InRoutine.declaredKind env _ _ inside tracks i known
  rw [Compile.storeName,bind_ok (inside.resolve free found)] at stored
  simp only at stored
  rw [bind_ok declared] at stored
  split at stored
  · cases stored
  · cases stored
    exact ⟨rfl,s',inside',after⟩

theorem InRoutine.augment (inside : InRoutine st s) (tracks : s.typed = true)
    (free : s.globals.contains x = false) (found : s.slot? x = some i)
    (compiled : e.compile true env st = .ok (t,middle))
    (admitted : augment (.name x) op e env st = .ok (instr,left)) :
    let whole := binary op (ofKind (s.slotKind i) (.slot i x false)) t
    instr = .assign whole.code [.cell (.slot i) x (s.checkedAgainst i whole.kind)] ∧
      ∃ s', InRoutine left s' ∧ s'.slotKind i = s.kindAfter i whole.kind := by
  intro whole
  obtain ⟨captures,inside₁⟩ := inside.kept (Expr.compile_keeps true e) compiled
  have operation : (Expr.binary op (.name x) e).compile true env st = .ok (whole,middle) := by
    rw [Expr.compile_binary_typed,bind_ok inside.isTyped,bind_ok (inside.compile_name free found),bind_ok compiled]
    rfl
  rw [Compile.augment,bind_ok inside.isTyped,tracks,if_pos rfl,bind_ok operation,Compile.assign,
    bind_ok inside₁.isTyped,tracks,List.mapM_cons] at admitted
  obtain ⟨stores,last,stored,admitted⟩ := bind_eq_ok admitted
  obtain ⟨store,next,stored,rest⟩ := bind_eq_ok stored
  cases rest
  cases admitted
  obtain ⟨rfl,s',inside',after⟩ := inside₁.storeName tracks free found stored
  exact ⟨rfl,s',inside',after⟩

theorem InRoutine.augment_untyped (inside : InRoutine st s) (blind : s.typed = false)
    (free : s.globals.contains x = false) (found : s.slot? x = some i)
    (compiled : e.compile false env st = .ok (d,left)) :
    Compile.augment (.name x) op e env st = .ok (.augment (.slot i x false) op d.code (.cell (.slot i) x .dynamic),left) := by
  obtain ⟨captures,inside₁⟩ := inside.kept (Expr.compile_keeps false e) compiled
  have operand : e.operand env st = .ok (d.code,left) := by
    rw [Expr.operand,bind_ok inside.isTyped,blind,bind_ok compiled]
    rfl
  have stored : Compile.storeName x .dynamic env left = .ok (.cell (.slot i) x .dynamic,left) := by
    have declared : Compile.declaredKind i .dynamic env left = .ok (.dynamic,left) := by
      rw [Compile.declaredKind,bind_ok inside₁.scope,if_pos]
      · rfl
      · exact congrArg (!·) blind
    rw [Compile.storeName,bind_ok (inside₁.resolve free found)]
    simp only
    rw [bind_ok declared]
    rfl
  rw [Compile.augment,bind_ok inside.isTyped,blind]
  simp only [Bool.false_eq_true,if_false]
  rw [bind_ok (inside.readName free found),bind_ok operand,bind_ok stored]
  rfl

end Compile

-- The two statements

variable {s : Scope} {k : Engine} {f : Frame} {w : World} {op : BinaryOp}

theorem Typed.binary_bound {t t' : Typed} (computes : op.isComparison = false)
    (left : t.kind.isScalar = true → a.kind = t.kind) (right : t'.kind.isScalar = true → b.kind = t'.kind)
    (silent : ∀ key ∈ ["int","float","str"], w.extensions.Silent key)
    (kinds : t.kind = t'.kind) (bound : scalarResult t.kind op = some result) :
    ofExcept (op.onScalars a b) w = k.binary op a b w := by
  have scalar := isScalar_of_bound bound
  have first : a.kind = t.kind := left scalar
  have second : b.kind = t.kind := (right (kinds ▸ scalar)).trans kinds.symm
  by_cases float : t.kind = .float
  · rw [float] at first second bound
    obtain ⟨x,rfl⟩ := Value.eq_float first
    obtain ⟨y,rfl⟩ := Value.eq_float second
    exact (Engine.binary_float bound computes x y (silent "float" (by simp))).symm
  · refine (Engine.binary_scalar bound float first second (silent _ ?_)).symm
    cases kind : t.kind with
    | int | str => simp [Kind.name,Kind.key?]
    | float => contradiction
    | bool =>
      rw [kind] at bound
      cases op <;> simp [scalarResult,BinaryOp.isComparison] at bound computes
    | _ =>
      rw [kind] at scalar
      contradiction

def World.Plain (w : World) : Prop := ∀ key ∈ ["int","float","str"], w.extensions.Silent key

theorem Typed.binary_eval (computes : op.isComparison = false)
    (first : t.code.eval k f w = c.eval k f w)
    (second : ∀ a w₁, c.eval k f w = .done a w₁ → t'.code.eval k f w₁ = c'.eval k f w₁)
    (known : ∀ a w₁ b w₂, c.eval k f w = .done a w₁ → c'.eval k f w₁ = .done b w₂ →
      (t.kind.isScalar = true → a.kind = t.kind) ∧ (t'.kind.isScalar = true → b.kind = t'.kind) ∧ w₂.Plain) :
    (binary op t t').code.eval k f w = (Code.binary op c c').eval k f w := by
  unfold binary
  simp only
  split
  case h_1 result found =>
    split at found
    case isFalse => contradiction
    case isTrue kinds =>
      refine bind_eq first ?_
      intro a w₁ ran
      refine bind_eq (second a w₁ ran) ?_
      intro b w₂ ran'
      obtain ⟨left,right,silent⟩ := known a w₁ b w₂ ran ran'
      exact binary_bound computes left right silent kinds found
  case h_2 =>
    refine bind_eq first ?_
    intro a w₁ ran
    refine bind_eq (second a w₁ ran) ?_
    intro b w₂ ran'
    rfl

variable {v : Value} {i : Nat} {x : String}

theorem Kind.isScalar_of_accepts {kind} (accepted : kind.accepts v = true)
    (scalar : kind.isScalar = true) : v.kind = kind := by
  simp only [Kind.accepts,Bool.or_eq_true,beq_iff_eq] at accepted
  rcases accepted with unknown | known
  · rw [unknown] at scalar
    contradiction
  · exact known.symm

theorem Typed.slot_eval {kind} (kept : ∀ a, w.heap.cell (f.cell (.slot i)) = some a → kind.accepts a = true) :
    (ofKind kind (.slot i x false)).code.eval k f w = (Code.slot i x false).eval k f w := by
  unfold ofKind
  split
  case isFalse => rfl
  case isTrue scalar =>
    rw [← bind_pure ((Code.slot i x false).eval k f)]
    refine bind_eq rfl ?_
    intro a left ran
    obtain ⟨rfl,held⟩ := readSlot_done ran
    exact expect_kind scalar (Kind.isScalar_of_accepts (kept a held) scalar) _

theorem Store.put_accepted {place} (accepted : check.accepts v = true) :
    (Store.cell place x check).put k f v w = (Store.cell place x .dynamic).put k f v w := by
  have coerced : check.coerce x v = pure v := by
    unfold Kind.coerce
    rw [if_pos accepted]
  unfold Store.put
  split
  · rfl
  · rw [coerced]
    rfl

theorem InstrKind.exec_assign_one (c : Code) (store : Store) : (assign c [store]).exec k f = (do
      store.put k f (← c.eval k f)
      return .next) := by
  simp [exec]

theorem Scope.checkedAgainst_accepts (accepted : (s.kindAfter i known).accepts v = true) :
    (s.checkedAgainst i known).accepts v = true := by
  unfold checkedAgainst
  split
  · rfl
  · exact accepted

-- An old value that does not change in place is replaced by the result of the operator.
theorem InstrKind.exec_augment_eq_assign
    (fixed : ∀ a b w₁, w.heap.cell (f.cell (.slot i)) = some a → c.eval k f w = .done b w₁ → a.changesInPlace w₁ op = false)
    :
    (augment (.slot i x false) op c store).exec k f w = (assign (.binary op (.slot i x false) c) [store]).exec k f w := by
  rw [exec_assign_one]
  simp only [Code.eval,bind_assoc]
  refine bind_eq rfl ?_
  intro a w₁ ran
  obtain ⟨rfl,held⟩ := readSlot_done ran
  refine bind_eq rfl ?_
  intro b w₂ ran'
  refine bind_eq (Engine.augment_eq_binary (fixed a b w₂ held ran')) ?_
  intro v last _
  rfl

section

variable {i : Nat} {x : String} {t : Typed}

theorem exec_typed_assign (computes : op.isComparison = false) (sound : t.Sound)
    (kept : ∀ a, w.heap.cell (f.cell (.slot i)) = some a → (s.slotKind i).accepts a = true)
    (same : t.code.eval k f w = c.eval k f w)
    (operation : whole = binary op (ofKind (s.slotKind i) (.slot i x false)) t)
    (answers : ∀ a b w₁, w.heap.cell (f.cell (.slot i)) = some a → c.eval k f w = .done b w₁ →
      w₁.Plain ∧ ∀ v last, k.binary op a b w₁ = .done v last → (s.kindAfter i whole.kind).accepts v = true) :
    (assign whole.code [.cell (.slot i) x (s.checkedAgainst i whole.kind)]).exec k f w =
      (assign (.binary op (.slot i x false) c) [.cell (.slot i) x .dynamic]).exec k f w := by
  have evaluates : whole.code.eval k f w = (Code.binary op (.slot i x false) c).eval k f w := by
    rw [operation]
    refine binary_eval computes (slot_eval kept) ?_ ?_
    · intro a w₁ ran
      obtain ⟨rfl,_⟩ := readSlot_done ran
      exact same
    · intro a w₁ b w₂ ran ran'
      obtain ⟨rfl,held⟩ := readSlot_done ran
      exact ⟨Kind.isScalar_of_accepts (kept a held),sound (same.trans ran'),(answers a b w₂ held ran').1⟩
  rw [exec_assign_one]
  refine bind_eq evaluates ?_
  intro v last ran
  obtain ⟨a,w₁,read,ran⟩ := bind_eq_done ran
  obtain ⟨b,w₂,operand,computed⟩ := bind_eq_done ran
  obtain ⟨rfl,held⟩ := readSlot_done read
  have accepted := (answers a b w₂ held operand).2 v last computed
  refine bind_eq (Store.put_accepted (checkedAgainst_accepts accepted)) ?_
  intro _ _ _
  rfl

end

-- Where kinds are tracked, `x op= e` is `x = x op e`, and this is also what it is elsewhere, unless
-- the value of `x` changes in place.
theorem augment_typed_agrees {env : CompileEnv} {st : CompileState} (inside : InRoutine st s)
    (tracks : s.typed = true) {x : String} {i : Nat} (free : s.globals.contains x = false)
    (found : s.slot? x = some i) (computes : op.isComparison = false) {e : Expr} {t d : Typed}
    {middle next left : CompileState} (typed : e.compile true env st = .ok (t, middle))
    (plain : e.compile false env st.untyped = .ok (d, next)) {instr : InstrKind}
    (admitted : Compile.augment (.name x) op e env st = .ok (instr, left)) :
    ∃ s' instr', InRoutine left s' ∧
      Compile.augment (.name x) op e env st.untyped = .ok (instr', next) ∧
      ∀ k f w,
        (∀ a, w.heap.cell (f.cell (.slot i)) = some a → (s.slotKind i).accepts a = true) →
        t.code.eval k f w = d.code.eval k f w →
        (∀ a b w₁, w.heap.cell (f.cell (.slot i)) = some a → d.code.eval k f w = .done b w₁ →
          w₁.Plain ∧ ∀ v last, k.binary op a b w₁ = .done v last →
            (s'.slotKind i).accepts v = true) →
        instr.exec k f w = (InstrKind.assign (.binary op (.slot i x false) d.code)
            [.cell (.slot i) x .dynamic]).exec k f w ∧
          ((∀ a b w₁, w.heap.cell (f.cell (.slot i)) = some a → d.code.eval k f w = .done b w₁ →
            a.changesInPlace w₁ op = false) → instr.exec k f w = instr'.exec k f w) := by
  obtain ⟨rfl, s', inside', after⟩ := inside.augment tracks free found typed admitted
  refine ⟨s', _, inside', inside.untyped.augment_untyped rfl free found plain, ?_⟩
  intro k f w kept same answers
  rw [after] at answers
  have assigned := exec_typed_assign computes (Expr.compile_sound e typed) kept same rfl answers
  refine ⟨assigned, ?_⟩
  intro fixed
  rw [assigned, InstrKind.exec_augment_eq_assign fixed]

-- A list that another variable shares

def aliasedScope : Scope := { kind := .function, qualname := "f", locals := ["x","y"], typed := true, kinds := [(0,.list)] }

def aliasedState : CompileState := { scopes := [aliasedScope] }

def aliasedWorld : World :=
  { heap := { lists := #[#[.int 0]], cells := #[some (.list ⟨0⟩),some (.list ⟨0⟩)] }
    types := ⟨[]⟩, maxDepth := 8 }

theorem aliasedState_inRoutine : InRoutine aliasedState aliasedScope := ⟨rfl,rfl⟩

-- `x *= 2` makes a new list either way.
theorem augment_typed_agrees_repeating : ∃ instr instr' st st',
    Compile.augment (.name "x") .mul (.int 2) ⟨⟨[]⟩, {}⟩ aliasedState = .ok (instr, st) ∧
    Compile.augment (.name "x") .mul (.int 2) ⟨⟨[]⟩, {}⟩ aliasedState.untyped = .ok (instr', st') ∧
    instr.exec (engine 1) sampleFrame aliasedWorld = instr'.exec (engine 1) sampleFrame aliasedWorld ∧
    ∃ last, instr.exec (engine 1) sampleFrame aliasedWorld = .done .next last ∧
      last.heap.cells = #[some (.list ⟨1⟩), some (.list ⟨0⟩)] ∧
      last.heap.lists = #[#[.int 0], #[.int 0, .int 0]] := by
  obtain ⟨s', instr', inside', plain, agree⟩ :=
    @augment_typed_agrees aliasedScope .mul ⟨⟨[]⟩, {}⟩ aliasedState aliasedState_inRoutine rfl "x" 0 rfl rfl
      rfl (.int 2) _ _ _ _ _ rfl rfl _ rfl
  refine ⟨_, instr', _, _, rfl, plain, ?_, _, rfl, rfl, rfl⟩
  obtain rfl : aliasedScope = s' := Option.some.inj inside'.innermost
  refine (agree (engine 1) sampleFrame aliasedWorld ?_ rfl ?_).2 ?_
  · intro a held
    cases held
    rfl
  · intro a b w₁ held ran
    cases held
    cases ran
    refine ⟨fun key _ => ⟨fun _ => rfl, fun _ => rfl⟩, ?_⟩
    intro v last computed
    cases computed
    rfl
  · intro a b w₁ held ran
    cases held
    rfl

-- `x += y` leaves the list alone where kinds are tracked, and elsewhere makes it longer for `y` too.
theorem growing_list_differs : ∃ instr instr' st st' last last',
    Compile.augment (.name "x") .add (.name "y") ⟨⟨[]⟩, {}⟩ aliasedState = .ok (instr, st) ∧
    Compile.augment (.name "x") .add (.name "y") ⟨⟨[]⟩, {}⟩ aliasedState.untyped = .ok (instr', st') ∧
    instr.exec (engine 1) sampleFrame aliasedWorld = .done .next last ∧
    last.heap.lists = #[#[.int 0], #[.int 0, .int 0]] ∧
    last.heap.cells = #[some (.list ⟨1⟩), some (.list ⟨0⟩)] ∧
    instr'.exec (engine 1) sampleFrame aliasedWorld = .done .next last' ∧
    last'.heap.lists = #[#[.int 0, .int 0]] ∧
    last'.heap.cells = #[some (.list ⟨0⟩), some (.list ⟨0⟩)] :=
  ⟨_, _, _, _, _, _, rfl, rfl, rfl, rfl, rfl, rfl, rfl, rfl⟩

end EmbedScript
