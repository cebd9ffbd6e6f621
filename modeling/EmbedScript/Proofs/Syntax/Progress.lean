import EmbedScript.Proofs.Syntax.Grouping
import Mathlib.Logic.Relation

/-!
Folding makes progress. Operands and operators alternate in every run that is cut from tokens, and
folding one operator keeps it so. Hence an operator can be folded as long as there is one.
-/

namespace EmbedScript

open List Relation

namespace Item

-- Where an operand is `due`, prefix operators may stand before it.
inductive Alternates : (due : Bool) → List Item → Prop
  | done : Alternates false []
  | unary {o : Op} {rest : List Item} (known : o.unaryPrecedence?.isSome) (more : Alternates true rest) :
      Alternates true (.op o true :: rest)
  | operand {x : Operand} {rest : List Item} (more : Alternates false rest) : Alternates true (.operand x :: rest)
  | binary {o : Op} {rest : List Item} (more : Alternates true rest) : Alternates false (.op o false :: rest)

variable {run next : List Item}

theorem Alternates.replace {before after : List Item}
    (same : ∀ due, Alternates due (mid ++ after) → due = true ∧ Alternates false after)
    (alternates : Alternates due (before ++ mid ++ after)) : Alternates due (before ++ .operand v :: after) := by
  induction before generalizing due with
  | nil =>
    obtain ⟨rfl,rest⟩ := same due alternates
    exact .operand rest
  | cons first before ih =>
    cases alternates with
    | unary known more => exact .unary known (ih more)
    | operand more => exact .operand (ih more)
    | binary more => exact .binary (ih more)

theorem Alternates.reduces (alternates : Alternates due run) (reduces : Tree.Reduces line run i next) :
    Alternates due next := by
  obtain ⟨shorter,reduced,rfl⟩ := reduces
  obtain ⟨sub,k,v,before,after,folds,rfl,-,same⟩ := Tree.reduce_folds reduced
  rw [same]
  refine Alternates.replace (fun due rest => ?_) alternates
  cases folds with
  | unary => cases rest with | unary _ rest => cases rest with | operand rest => exact ⟨rfl,rest⟩
  | binary =>
    cases rest with | operand rest => cases rest with | binary rest => cases rest with | operand rest => exact ⟨rfl,rest⟩

theorem selectFrom_isSome (found : best.isSome) (left : Option Item) : (selectFrom i left best run).isSome := by
  induction run generalizing i left best with
  | nil => exact found
  | cons item rest ih =>
    refine ih ?_ _
    split
    · rfl
    · exact found

theorem Alternates.selects (alternates : Alternates due run) (beside : due = false → left.any isOperand)
    (best : Option Candidate) : run = [] ∨ (∃ x, run = [.operand x]) ∨ (selectFrom i left best run).isSome := by
  induction alternates generalizing i left best with
  | done => exact .inl rfl
  | @operand x _ more ih =>
    rcases @ih (i + 1) (some (.operand x)) (fun _ => rfl) best with rfl | ⟨_,rfl⟩ | found
    · exact .inr (.inl ⟨x,rfl⟩)
    · cases more
    · exact .inr (.inr found)
  | unary known more ih =>
    right; right
    cases more with
    | unary => exact ((ih (by simp) best).resolve_left (by simp)).resolve_left (by simp)
    | operand =>
      rw [selectFrom]
      exact selectFrom_isSome rfl _
  | @binary o _ more ih =>
    right; right
    cases more with
    | unary => exact ((ih (by simp) best).resolve_left (by simp)).resolve_left (by simp)
    | @operand x rest =>
      have offered : candidate? i left (.op o false :: .operand x :: rest) = some ⟨i,o.precedence,o.rightAssoc⟩ := by
        simp [candidate?,isOperand,beside]
      rw [selectFrom,offered]
      exact selectFrom_isSome rfl _

theorem Offers.candidate (offers : Offers c i left run) : ∃ before rest, run = before ++ rest ∧
    c.index = i + before.length ∧ candidate? c.index (before.getLast?.or left) rest = some c := by
  induction run generalizing i left with
  | nil => contradiction
  | cons item rest ih =>
    rcases offers with here | later
    · have place := (candidate?_fair here).1
      exact ⟨[],item :: rest,rfl,place,place ▸ here⟩
    · obtain ⟨before,rest,rfl,place,offered⟩ := ih later
      refine ⟨item :: before,rest,rfl,by rw [length_cons]; omega,?_⟩
      cases before <;> simpa [getLast?_cons] using offered

-- The errors of folding that tell of operators which do not fit their operands.
def Mismatch (e : ParseError) : Prop := e.cause = .elseWithoutIf ∨ e.cause = .ifWithoutElse ∨ ∃ symbol, e.cause = .near symbol

theorem mismatch_expr? {x : Operand} (failed : x.expr? line = .error e) : Mismatch e := by
  cases x with
  | expr => contradiction
  | arms =>
    cases failed
    exact .inl rfl

theorem mismatch_combine (failed : Operand.combine o a b line = .error e) : Mismatch e := by
  have read {x : Operand} {f : Expr → Parse Operand} (failed : x.expr? line >>= f = .error e)
      (rest : ∀ v, f v = .error e → Mismatch e) : Mismatch e := by
    cases value : x.expr? line with
    | error => exact mismatch_expr? (value.trans (by simpa [value,bind,Except.bind] using failed))
    | ok v => exact rest v (by simpa [value,bind,Except.bind] using failed)
  unfold Operand.combine at failed
  split at failed
  · exact read failed fun v failed => read failed fun v failed => by contradiction
  · split at failed
    · exact read failed fun v failed => by contradiction
    · cases failed
      exact .inr (.inl rfl)
  · refine read failed fun v failed => read failed fun v failed => ?_
    repeat' split at failed
    all_goals cases failed
    exact .inr (.inr ⟨_,rfl⟩)

theorem candidate?_ready (ready : candidate? i left run = some c) : ∃ o x after,
    run = .op o true :: .operand x :: after ∨ run = .op o false :: .operand x :: after ∧ ∃ a, left = some (.operand a) := by
  unfold candidate? at ready
  split at ready
  case h_1 o unary next after =>
    cases next with
    | op => contradiction
    | operand x =>
      refine ⟨o,x,after,?_⟩
      cases unary with
      | true => exact .inl rfl
      | false =>
        rcases left with _ | _ | a
        · contradiction
        · exact .inr ⟨rfl,_,rfl⟩
        · contradiction
  case h_2 => contradiction

theorem mismatch_reduce (ready : candidate? i before.getLast? rest = some c)
    (failed : reduce (before ++ rest) before.length line = .error e) : Mismatch e := by
  have behind : (before ++ rest).drop before.length = rest := drop_left
  have ahead : (before ++ rest).take before.length = before := take_left
  obtain ⟨o,x,after,ready⟩ := candidate?_ready ready
  unfold reduce at failed
  split at failed
  · split at failed
    · contradiction
    · cases failed
      exact mismatch_expr? ‹_›
  case h_2 found =>
    split at failed
    · split at failed
      · contradiction
      · cases failed
        exact mismatch_combine ‹_›
    case h_2 other =>
      rw [ahead] at other
      rcases ready with rfl | ⟨rfl,a,beside⟩
      · cases behind.symm.trans found
      · exact (other a beside).elim
  case h_3 unary binary =>
    rcases ready with rfl | ⟨rfl,_⟩
    · exact (unary _ _ _ behind).elim
    · exact (binary _ _ _ behind).elim

theorem Alternates.step (line : Nat) (alternates : Alternates true run) : (∃ x, run = [.operand x]) ∨ ∃ i, select run = some i ∧
    ((∃ next, Tree.Reduces line run i next) ∨ ∃ e, reduce run i line = .error e ∧ Mismatch e) := by
  rcases @alternates.selects _ _ 0 none (by simp) none with rfl | alone | found
  · cases alternates
  · exact .inl alone
  · obtain ⟨c,found⟩ := Option.isSome_iff_exists.mp found
    obtain ⟨before,rest,rfl,place,ready⟩ := ((selectFrom_beats (by simp) found).1.resolve_left (by simp)).candidate
    rw [Nat.zero_add] at place
    rw [Option.or_none] at ready
    refine .inr ⟨c.index,by rw [select,found]; rfl,?_⟩
    cases reduced : reduce (before ++ rest) c.index line with
    | ok shorter => exact .inl ⟨_,shorter,reduced,rfl⟩
    | error e => exact .inr ⟨e,rfl,mismatch_reduce ready (place ▸ reduced)⟩

def Folding (line : Nat) : List Item → List Item → Prop := ReflTransGen fun run next => ∃ i, Tree.Reduces line run i next

theorem Alternates.folding (alternates : Alternates true run) (folding : Folding line run next) : Alternates true next := by
  induction folding with
  | refl => exact alternates
  | tail _ reduces ih =>
    obtain ⟨i,reduces⟩ := reduces
    exact ih.reduces reduces

theorem Alternates.fold_ends (alternates : Alternates true run) :
    (∃ x, Folding line run [.operand x] ∧ fold run line = x.expr? line) ∨
    ∃ rest i e, Folding line run rest ∧ reduce rest i line = .error e ∧ Mismatch e ∧ fold run line = .error e := by
  fun_induction fold run line with
  | case1 x => exact .inl ⟨x,.refl,rfl⟩
  | case2 => cases alternates
  | case3 => cases alternates with | unary known more => cases more
  | case4 first second rest stuck =>
    rcases alternates.step line with ⟨x,alone⟩ | ⟨i,chosen,_⟩
    · cases alone
    · cases stuck.symm.trans chosen
  | case5 first second rest i chosen shorter less reduced ih =>
    have reduces : Tree.Reduces line (first :: second :: rest) i shorter := ⟨_,reduced,rfl⟩
    rcases ih (alternates.reduces reduces) with ⟨x,folding,ends⟩ | ⟨rest,j,e,folding,failed,mismatch,ends⟩
    · exact .inl ⟨x,.head ⟨i,reduces⟩ folding,ends⟩
    · exact .inr ⟨rest,j,e,.head ⟨i,reduces⟩ folding,failed,mismatch,ends⟩
  | case6 first second rest i chosen e failed =>
    rcases alternates.step line with ⟨x,alone⟩ | ⟨j,chosen',⟨_,_,reduced,_⟩ | ⟨e',failed',mismatch⟩⟩
    · cases alone
    · cases chosen.symm.trans chosen'
      cases reduced.symm.trans failed
    · cases chosen.symm.trans chosen'
      cases failed'.symm.trans failed
      exact .inr ⟨_,i,e,.refl,failed,mismatch,rfl⟩

end Item

namespace Run

open Item

variable {inner : Reader} {items : List Item} {span ts : List Token}

theorem closeSpan_cases (closed : closeSpan inner line items span = .ok left) :
    span = [] ∧ left = items ∨ span ≠ [] ∧ ∃ x, left = .operand x :: items := by
  unfold closeSpan at closed
  split at closed
  case isTrue empty => exact .inl ⟨isEmpty_iff.mp empty,(Except.ok.inj closed).symm⟩
  case isFalse filled =>
    obtain ⟨e,_,⟨⟩⟩ := Except.bind_eq_ok closed
    exact .inr ⟨by simpa using filled,_,rfl⟩

-- `items` wait for an operand, whose tokens are gathered in `span`.
theorem segment_alternates (waits : ∀ rest, Alternates true rest → Alternates true (items.reverse ++ rest))
    (last : items.head?.any isOperand = false) (written : items ≠ [] ∨ span ≠ [] ∨ ts ≠ [])
    (segmented : segment inner line items span ts = .ok out) : Alternates true out := by
  induction ts generalizing items span with
  | nil =>
    obtain ⟨left,closed,segmented⟩ := Except.bind_eq_ok segmented
    rcases closeSpan_cases closed with ⟨rfl,rfl⟩ | ⟨_,x,rfl⟩
    · rcases left with _ | _ | _
      all_goals contradiction
    · cases segmented
      simpa using waits _ (.operand .done)
  | cons t ts ih =>
    cases t with
    | op o augmented spot =>
      obtain ⟨left,closed,segmented⟩ := Except.bind_eq_ok segmented
      extract_lets unary at segmented
      split at segmented
      case isTrue => contradiction
      case isFalse known =>
        refine ih (fun rest more => ?_) rfl (.inl (by simp)) segmented
        rcases closeSpan_cases closed with ⟨rfl,rfl⟩ | ⟨_,x,rfl⟩
        · have prefixed : unary = true := by simp [unary,last]
          have known : o.unaryPrecedence?.isSome := by
            grind
          simpa [prefixed] using waits _ (.unary known more)
        · simpa [unary,isOperand] using waits _ (.operand (.binary more))
    | _ => exact ih waits last (.inr (.inl (by simp))) segmented

theorem folding_progress {inner : Reader} {line : Nat} {items : List Item} {ts : List Token} (written : ts ≠ [])
    (cut : segment inner line [] [] ts = .ok items) :
    (∀ run, Folding line items run → Alternates true run ∧ (∀ i next, Tree.Reduces line run i next → next.length < run.length) ∧
      ((∃ x, run = [.operand x]) ∨ ∃ i, select run = some i ∧
        ((∃ next, Tree.Reduces line run i next) ∨ ∃ e, reduce run i line = .error e ∧ Mismatch e))) ∧
    ((∃ x, Folding line items [.operand x] ∧ fold items line = x.expr? line) ∨
      ∃ run i e, Folding line items run ∧ reduce run i line = .error e ∧ Mismatch e ∧ fold items line = .error e) := by
  have alternates := segment_alternates (fun _ => id) rfl (.inr (.inr written)) cut
  refine ⟨fun run folding => ?_,alternates.fold_ends⟩
  have shaped := alternates.folding folding
  exact ⟨shaped,fun i next => Tree.Reduces.length_lt,shaped.step line⟩

def minusMinus : List Token := [.op .sub false ⟨1,false⟩,.op .sub false ⟨1,false⟩,.name "a" ⟨1,false⟩]

theorem folding_progress_minus : minusMinus ≠ [] ∧ ∃ items, segment (within 0) 1 [] [] minusMinus = .ok items ∧
    Alternates true items ∧ items.length = 3 :=
  ⟨nofun,_,rfl,((@folding_progress (within 0) 1 _ minusMinus nofun rfl).1 _ .refl).1,rfl⟩

end Run

end EmbedScript
