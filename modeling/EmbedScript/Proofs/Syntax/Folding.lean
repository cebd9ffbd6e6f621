import EmbedScript.Proofs.Except
import EmbedScript.Syntax.Fold

/-!
Folding inverts flattening: if every operator of a tree is folded after the operators below it,
folding the run of the tree gives its value.
-/

namespace EmbedScript

open List

namespace Precedence

theorem rank_inj {p : Precedence} : p.rank = q.rank ↔ p = q := by
  constructor
  · intro same
    rw [← ofNat_ctorIdx p,← ofNat_ctorIdx q]
    exact congrArg ofNat same
  · exact congrArg rank

def fromRight : Precedence → Bool
  | cast | exponentiation | unary | logicalNot | key | iteration | assignment => true
  | _ => false

-- An operator of strength `p` is folded before one of strength `q` that stands behind it.
def leads (p q : Precedence) : Prop := p.rank < q.rank ∨ p = q ∧ p.fromRight = false

variable {p q : Precedence}

theorem leads.rank_le (first : p.leads q) : p.rank ≤ q.rank := by rcases first with less | ⟨rfl,_⟩ <;> omega

theorem rank_le_of_not_leads (last : ¬ p.leads q) : q.rank ≤ p.rank := by
  simp only [leads] at last
  omega

theorem leads.of_rank_le (below : p.rank ≤ q.rank) (first : q.leads r) : p.leads r := by
  rcases Nat.lt_or_eq_of_le below with less | same
  · exact .inl (Nat.lt_of_lt_of_le less first.rank_le)
  · exact rank_inj.mp same ▸ first

theorem leads.trans (first : p.leads q) (second : q.leads r) : p.leads r := second.of_rank_le first.rank_le

theorem leads.of_not_leads (first : p.leads q) (last : ¬ r.leads q) : p.leads r := by
  have below := rank_le_of_not_leads last
  rcases Nat.lt_or_eq_of_le below with less | same
  · exact .inl (Nat.lt_of_le_of_lt first.rank_le less)
  · cases rank_inj.mp same
    rcases first with less | ⟨rfl,left⟩
    · exact .inl less
    · exact absurd (.inr ⟨rfl,left⟩) last

end Precedence

theorem Op.rightAssoc_eq (o : Op) : o.rightAssoc = o.precedence.fromRight := by cases o <;> rfl

def Op.unaryPrecedence (o : Op) : Precedence := o.unaryPrecedence?.getD .unary

theorem Op.fromRight_unaryPrecedence (o : Op) : o.unaryPrecedence.fromRight = true := by cases o <;> rfl

namespace Item

def Candidate.Fair (c : Candidate) : Prop := c.rightAssoc = c.precedence.fromRight

theorem Candidate.better_of_leads {next b} (fair : b.Fair)
    (first : b.precedence.leads next.precedence) : Candidate.better (some b) next = b := by
  have below := first.rank_le
  have stays : ¬ (b.rightAssoc = true ∧ next.precedence = b.precedence) := by
    rintro ⟨right,same⟩
    rcases first with less | ⟨_,left⟩
    · rw [same] at less
      omega
    · rw [fair,left] at right
      contradiction
  refine if_neg ?_
  simp only [Bool.or_eq_true,Bool.and_eq_true,decide_eq_true_eq,beq_iff_eq]
  rintro (less | equal)
  · omega
  · exact stays equal

theorem Candidate.better_of_not_leads {next b} (fair : b.Fair)
    (last : ¬ b.precedence.leads next.precedence) : Candidate.better (some b) next = next := by
  refine if_pos ?_
  simp only [Bool.or_eq_true,Bool.and_eq_true,decide_eq_true_eq,beq_iff_eq]
  rcases Nat.lt_or_eq_of_le (Precedence.rank_le_of_not_leads last) with less | same
  · exact .inl less
  · have equal := Precedence.rank_inj.mp same
    refine .inr ⟨?_,equal⟩
    cases right : b.rightAssoc with
    | true => rfl
    | false => exact absurd (.inr ⟨equal.symm,by rw [← fair,right]⟩) last

end Item

inductive Tree where
  | leaf (value : Operand)
  | unary (op : Op) (operand : Tree)
  | binary (op : Op) (left right : Tree)

variable {t : Tree} {v : Operand} {best : Option Candidate}

namespace Tree

def items : Tree → List Item
  | leaf x => [.operand x]
  | unary o t => .op o true :: t.items
  | binary o l r => l.items ++ .op o false :: r.items

def value (line : Nat) : Tree → Parse Operand
  | leaf x => .ok x
  | unary o t => do
    let x ← t.value line
    return .expr (o.applyUnary (← x.expr? line))
  | binary o l r => do
    let a ← l.value line
    let b ← r.value line
    a.combine o b line

def binding : Tree → Option Precedence
  | leaf _ => none
  | unary o _ => some o.unaryPrecedence
  | binary o _ _ => some o.precedence

-- Each operator is folded after those below it: the ones on its left lead it, and it does not
-- lead the ones on its right.
def Ordered : Tree → Prop
  | leaf _ => True
  | unary o t => t.Ordered ∧ ∀ q ∈ t.binding, ¬ o.unaryPrecedence.leads q
  | binary o l r => l.Ordered ∧ r.Ordered ∧ (∀ q ∈ l.binding, q.leads o.precedence) ∧ ∀ q ∈ r.binding, ¬ o.precedence.leads q

def starts : Tree → Bool
  | leaf _ => true
  | unary .. => false
  | binary _ l _ => l.starts

theorem items_head (t : Tree) : ∃ first rest, t.items = first :: rest ∧ first.isOperand = t.starts := by
  induction t with
  | leaf x => exact ⟨_,_,rfl,rfl⟩
  | unary o t => exact ⟨_,_,rfl,rfl⟩
  | binary o l r left =>
    obtain ⟨first,rest,shape,kind⟩ := left
    exact ⟨first,rest ++ .op o false :: r.items,by rw [items,shape]; rfl,kind⟩

theorem items_last (t : Tree) : ∃ before last, t.items = before ++ [.operand last] := by
  induction t with
  | leaf x => exact ⟨[],x,rfl⟩
  | unary o t ih =>
    obtain ⟨before,last,shape⟩ := ih
    exact ⟨.op o true :: before,last,by rw [items,shape]; rfl⟩
  | binary o l r _ right =>
    obtain ⟨before,last,shape⟩ := right
    exact ⟨l.items ++ .op o false :: before,last,by rw [items,shape]; simp⟩

open Item

-- An operator in front of the tree's run is a candidate if the run starts with an operand.
def offer (t : Tree) (best : Option Candidate) (own : Candidate) : Option Candidate :=
  if t.starts then some (.better best own) else best

def scan : Tree → Nat → Option Candidate → Option Candidate
  | leaf _, _, best => best
  | unary o t, i, best => t.scan (i + 1) (t.offer best ⟨i,o.unaryPrecedence,true⟩)
  | binary o l r, i, best => r.scan (i + (l.items.length + 1))
      (r.offer (l.scan i best) ⟨i + l.items.length,o.precedence,o.rightAssoc⟩)

theorem selectFrom_unary (o : Op) (t : Tree) (i : Nat) (left : Option Item) (best : Option Candidate) (rest : List Item) :
    selectFrom i left best (.op o true :: (t.items ++ rest)) = selectFrom (i + 1) (some (.op o true))
        (t.offer best ⟨i,o.unaryPrecedence,true⟩) (t.items ++ rest) := by
  obtain ⟨first,more,shape,kind⟩ := t.items_head
  cases open' : t.starts <;> simp [selectFrom,candidate?,shape,kind,open',offer,Op.unaryPrecedence]

theorem selectFrom_binary (o : Op) (t : Tree) (i : Nat) (x : Operand) (best : Option Candidate) (rest : List Item) :
    selectFrom i (some (.operand x)) best (.op o false :: (t.items ++ rest)) = selectFrom (i + 1) (some (.op o false))
        (t.offer best ⟨i,o.precedence,o.rightAssoc⟩) (t.items ++ rest) := by
  obtain ⟨first,more,shape,kind⟩ := t.items_head
  have ready : (operand x).isOperand = true := rfl
  cases open' : t.starts <;> simp [selectFrom,candidate?,shape,kind,open',offer,ready]

theorem selectFrom_items (t : Tree) : ∃ last, ∀ i left best rest,selectFrom i left best (t.items ++ rest) =
      selectFrom (i + t.items.length) (some (.operand last)) (t.scan i best) rest := by
  induction t with
  | leaf x => exact ⟨x,fun i left best rest => by simp [items,scan,selectFrom,candidate?]⟩
  | unary o t ih =>
    obtain ⟨last,below⟩ := ih
    refine ⟨last,fun i left best rest => ?_⟩
    rw [items,cons_append,selectFrom_unary,below,Nat.add_right_comm]
    rfl
  | binary o l r left right =>
    obtain ⟨inner,before⟩ := left
    obtain ⟨last,behind⟩ := right
    refine ⟨last,fun i left best rest => ?_⟩
    rw [items,append_assoc,before,cons_append,selectFrom_binary,behind,length_append,length_cons]
    simp only [scan,Nat.add_assoc,Nat.add_comm 1]

theorem select_items (t : Tree) : select t.items = (t.scan 0 none).map (·.index) := by
  obtain ⟨last,scanned⟩ := t.selectFrom_items
  have whole := scanned 0 none none []
  rw [append_nil] at whole
  rw [select,whole,selectFrom]

-- Folding one operator

inductive Folds (line : Nat) : Tree → Nat → Tree → Prop where
  | unary {o : Op} {x : Operand} {e : Expr} (read : x.expr? line = .ok e) :
      Folds line (.unary o (.leaf x)) 0 (.leaf (.expr (o.applyUnary e)))
  | binary {o : Op} {a b v : Operand} (made : a.combine o b line = .ok v) :
      Folds line (.binary o (.leaf a) (.leaf b)) 1 (.leaf v)
  | under {o : Op} {t t' : Tree} {i : Nat} (below : Folds line t i t') :
      Folds line (.unary o t) (i + 1) (.unary o t')
  | left {o : Op} {l l' r : Tree} {i : Nat} (below : Folds line l i l') :
      Folds line (.binary o l r) i (.binary o l' r)
  | right {o : Op} {l r r' : Tree} {i : Nat} (below : Folds line r i r') :
      Folds line (.binary o l r) (l.items.length + 1 + i) (.binary o l r')

theorem Folds.value (folds : Folds line t i t') : t'.value line = t.value line := by
  induction folds with
  | unary read => simp [Tree.value,read,bind,Except.bind,pure,Except.pure]
  | binary made => simp [Tree.value,made,bind,Except.bind]
  | under _ ih | left _ ih | right _ ih => simp [Tree.value,ih]

theorem Folds.binding (folds : Folds line t i t') : t'.binding = none ∨ t'.binding = t.binding := by
  cases folds with
  | unary | binary => exact .inl rfl
  | under | left | right => exact .inr rfl

theorem Folds.ordered (folds : Folds line t i t') (ordered : t.Ordered) : t'.Ordered := by
  induction folds with
  | unary | binary => trivial
  | under below ih =>
    obtain ⟨inner,last⟩ := ordered
    refine ⟨ih inner,?_⟩
    rcases below.binding with gone | same
    · simp [gone]
    · rwa [same]
  | left below ih =>
    obtain ⟨inner,other,first,last⟩ := ordered
    refine ⟨ih inner,other,?_,last⟩
    rcases below.binding with gone | same
    · simp [gone]
    · rwa [same]
  | right below ih =>
    obtain ⟨other,inner,first,last⟩ := ordered
    refine ⟨other,ih inner,first,?_⟩
    rcases below.binding with gone | same
    · simp [gone]
    · rwa [same]

def Reduces (line : Nat) (run : List Item) (i : Nat) (next : List Item) : Prop :=
  ∃ shorter, reduce run i line = .ok shorter ∧ shorter.val = next

theorem Reduces.length_lt {next} (reduces : Reduces line run i next) : next.length < run.length := by
  obtain ⟨shorter,_,rfl⟩ := reduces
  exact shorter.property

theorem reduces_unary {x} (read : x.expr? line = .ok e) (before after : List Item) :
    Reduces line (before ++ .op o true :: .operand x :: after) before.length
      (before ++ .operand (.expr (o.applyUnary e)) :: after) := by
  have behind : (before ++ .op o true :: .operand x :: after).drop before.length = .op o true :: .operand x :: after := drop_left
  have ahead : (before ++ .op o true :: .operand x :: after).take before.length = before := take_left
  unfold Reduces reduce
  split
  case h_1 found =>
    cases behind.symm.trans found
    split
    case h_1 done =>
      cases read.symm.trans done
      exact ⟨_,rfl,by simp only [ahead]⟩
    case h_2 failed => cases read.symm.trans failed
  case h_2 found => cases behind.symm.trans found
  case h_3 other _ => exact absurd behind (other _ _ _)

theorem reduces_binary {a} (made : a.combine o b line = .ok v) (before after : List Item) :
    Reduces line (before ++ [.operand a] ++ .op o false :: .operand b :: after)
      (before ++ [operand a]).length (before ++ .operand v :: after) := by
  have behind : (before ++ [operand a] ++ op o false :: .operand b :: after).drop
      (before ++ [operand a]).length = .op o false :: .operand b :: after := drop_left
  have ahead : (before ++ [operand a] ++ op o false :: .operand b :: after).take
      (before ++ [operand a]).length = before ++ [.operand a] := take_left
  unfold Reduces reduce
  split
  case h_1 found => cases behind.symm.trans found
  case h_2 found =>
    cases behind.symm.trans found
    split
    case h_1 left beside =>
      rw [ahead,getLast?_concat] at beside
      cases beside
      split
      case h_1 done =>
        cases made.symm.trans done
        exact ⟨_,rfl,by simp only [ahead,dropLast_concat]⟩
      case h_2 failed => cases made.symm.trans failed
    case h_2 other =>
      rw [ahead,getLast?_concat] at other
      exact absurd rfl (other a)
  case h_3 other => exact absurd behind (other _ _ _)

theorem Folds.reduces (folds : Folds line t i t') (before after : List Item) :
    Reduces line (before ++ t.items ++ after) (before.length + i) (before ++ t'.items ++ after) := by
  induction folds generalizing before after with
  | unary read => simpa [items] using reduces_unary read before after
  | binary made => simpa [items] using reduces_binary made before after
  | @under o t t' i _ ih =>
    have next := ih (before ++ [.op o true]) after
    simpa [items,Nat.add_assoc,Nat.add_comm 1] using next
  | @left o l l' r i _ ih => simpa [items] using ih before (.op o false :: r.items ++ after)
  | @right o l r r' i _ ih =>
    have next := ih (before ++ l.items ++ [.op o false]) after
    simpa [items,Nat.add_assoc] using next

-- The selected operator has operands

-- After scanning a tree of strength `p` from position `i`, the best candidate is the one from
-- before, folded ahead of the whole tree, or an operator of the tree between operands.
def Next (line : Nat) (t : Tree) (p : Precedence) (i : Nat) (best out : Option Candidate) : Prop :=
  (out = best ∧ ∃ b, best = some b ∧ b.precedence.leads p) ∨
    ∃ c k t', out = some c ∧ c.Fair ∧ c.precedence.rank ≤ p.rank ∧ c.index = i + k ∧ Folds line t k t'

theorem value_unary (valued : (unary o t).value line = .ok v) : ∃ x e, t.value line = .ok x ∧ x.expr? line = .ok e := by
  obtain ⟨x,below,valued⟩ := Except.bind_eq_ok valued
  obtain ⟨e,read,_⟩ := Except.bind_eq_ok valued
  exact ⟨x,e,below,read⟩

theorem value_binary {l} (valued : (binary o l r).value line = .ok v) :
    ∃ a b, l.value line = .ok a ∧ r.value line = .ok b ∧ a.combine o b line = .ok v := by
  obtain ⟨a,left,valued⟩ := Except.bind_eq_ok valued
  obtain ⟨b,right,made⟩ := Except.bind_eq_ok valued
  exact ⟨a,b,left,right,made⟩

theorem better_cases (fair : ∀ b ∈ best, b.Fair) (own : Candidate) :
    (some (Candidate.better best own) = best ∧ ∃ b, best = some b ∧ b.precedence.leads own.precedence) ∨
      Candidate.better best own = own := by
  cases best with
  | none => exact .inr rfl
  | some b =>
    by_cases first : b.precedence.leads own.precedence
    · exact .inl ⟨by rw [Candidate.better_of_leads (fair b rfl) first],b,rfl,first⟩
    · exact .inr (Candidate.better_of_not_leads (fair b rfl) first)

theorem Next.own {k} (fair : ∀ b ∈ best, b.Fair)
    {own} (groups : own.Fair) (place : own.index = i + k) (folds : Folds line t k t') :
    Next line t own.precedence i best (some (.better best own)) := by
  rcases better_cases fair own with stays | wins
  · exact .inl stays
  · exact .inr ⟨own,k,t',by rw [wins],groups,Nat.le_refl _,place,folds⟩

-- A subtree behind its operator: the operator's own candidate does not survive it.
theorem Next.behind {sub} (inner : Next line sub q (i + d) middle out) (last : ¬ p.leads q)
    (own : middle = best ∨ ∃ c, middle = some c ∧ c.precedence = p)
    (lift : ∀ {k sub'}, Folds line sub k sub' → ∃ t', Folds line t (d + k) t') :
    Next line t p i best out := by
  rcases inner with ⟨kept,b,stored,first⟩ | ⟨c,k,sub',chosen,fair,below,place,folds⟩
  · rcases own with same | ⟨c,stored',strength⟩
    · exact .inl ⟨kept.trans same,b,same ▸ stored,first.of_not_leads last⟩
    · cases stored.symm.trans stored'
      exact absurd (strength ▸ first) last
  · obtain ⟨t',folds⟩ := lift folds
    have bound := Precedence.rank_le_of_not_leads last
    exact .inr ⟨c,d + k,t',chosen,fair,Nat.le_trans below bound,by omega,folds⟩

theorem eq_leaf (free : t.binding = none) : ∃ x, t = leaf x := by
  cases t with
  | leaf x => exact ⟨x,rfl⟩
  | unary | binary => contradiction

theorem offer_cases (fair : ∀ b ∈ best, b.Fair) (t : Tree) (own : Candidate) :
    t.offer best own = best ∨ t.offer best own = some own := by
  unfold offer
  split
  · rcases better_cases fair own with ⟨same,_⟩ | wins
    · exact .inl same
    · exact .inr (by rw [wins])
  · exact .inl rfl

theorem offer_fair (fair : ∀ b ∈ best, b.Fair) (t : Tree) {own}
    (groups : own.Fair) : ∀ b ∈ t.offer best own, b.Fair := by
  rcases offer_cases fair t own with same | same <;> rw [same]
  · exact fair
  · rintro b ⟨⟩
    exact groups

theorem offer_of_leads {b} (fair : b.Fair) (t : Tree) (own : Candidate)
    (first : b.precedence.leads own.precedence) : t.offer (some b) own = some b := by
  unfold offer
  rw [Candidate.better_of_leads fair first,ite_self]

theorem unary_fair (o : Op) (i : Nat) : Candidate.Fair ⟨i,o.unaryPrecedence,true⟩ := o.fromRight_unaryPrecedence.symm

theorem binary_fair (o : Op) (i : Nat) : Candidate.Fair ⟨i,o.precedence,o.rightAssoc⟩ := o.rightAssoc_eq

theorem Next.left {l}
    (fair : ∀ b ∈ best, b.Fair) (inner : Next line l q i best out) (first : q.leads o.precedence) :
    Next line (binary o l r) o.precedence i best out ∧ ∃ b, out = some b ∧ b.Fair ∧ b.precedence.leads o.precedence := by
  rcases inner with ⟨kept,b,stored,ahead⟩ | ⟨c,k,l',chosen,groups,below,place,folds⟩
  · have whole := ahead.trans first
    exact ⟨.inl ⟨kept,b,stored,whole⟩,b,kept.trans stored,fair b stored,whole⟩
  · have whole := first.of_rank_le below
    exact ⟨.inr ⟨c,k,_,chosen,groups,whole.rank_le,place,.left folds⟩,c,chosen,groups,whole⟩

theorem scan_next (ordered : t.Ordered) (valued : t.value line = .ok v) {p} (bound : t.binding = some p) (i : Nat)
    (fair : ∀ b ∈ best, b.Fair) : Next line t p i best (t.scan i best) := by
  induction t generalizing v p i best with
  | leaf x => contradiction
  | unary o t ih =>
    cases bound
    obtain ⟨inner,last⟩ := ordered
    obtain ⟨x,e,below,read⟩ := value_unary valued
    cases free : t.binding with
    | none =>
      obtain ⟨y,rfl⟩ := eq_leaf free
      cases below
      exact Next.own fair (unary_fair o i) rfl (.unary read)
    | some q =>
      have middle := offer_cases fair t ⟨i,o.unaryPrecedence,true⟩
      have next := ih inner below free (i + 1) (offer_fair fair t (unary_fair o i))
      refine next.behind (last q free) (middle.imp_right fun own => ⟨_,own,rfl⟩) ?_
      intro k sub' folds
      exact ⟨_,Nat.add_comm 1 k ▸ Folds.under folds⟩
  | binary o l r left right =>
    cases bound
    obtain ⟨innerLeft,innerRight,first,last⟩ := ordered
    obtain ⟨a,b,before,behind,made⟩ := value_binary valued
    cases freeLeft : l.binding with
    | none =>
      obtain ⟨y,rfl⟩ := eq_leaf freeLeft
      cases before
      cases freeRight : r.binding with
      | none =>
        obtain ⟨z,rfl⟩ := eq_leaf freeRight
        cases behind
        exact Next.own fair (binary_fair o _) rfl (.binary made)
      | some q =>
        have middle := offer_cases fair r ⟨i + 1,o.precedence,o.rightAssoc⟩
        have next := right innerRight behind freeRight (i + 2) (offer_fair fair r (binary_fair o (i + 1)))
        refine next.behind (last q freeRight) (middle.imp_right fun own => ⟨_,own,rfl⟩) ?_
        intro k sub' folds
        exact ⟨_,.right folds⟩
    | some q =>
      obtain ⟨kept,c,stored,groups,whole⟩ :=
        (left innerLeft before freeLeft i fair).left fair (first q freeLeft) (r := r)
      have same := offer_of_leads groups r ⟨i + l.items.length,o.precedence,o.rightAssoc⟩ whole
      rw [scan,stored,same]
      rw [stored] at kept
      cases freeRight : r.binding with
      | none =>
        obtain ⟨z,rfl⟩ := eq_leaf freeRight
        exact kept
      | some q =>
        have ahead : ∀ b ∈ some c, b.Fair := by
          rintro b ⟨⟩
          exact groups
        have next := right innerRight behind freeRight (i + (l.items.length + 1)) ahead
        rcases next with ⟨out,_⟩ | ⟨d,k,r',chosen,groups,below,place,folds⟩
        · rw [out]
          exact kept
        · have under := Nat.le_trans below (Precedence.rank_le_of_not_leads (last q freeRight))
          exact .inr ⟨d,_,_,chosen,groups,under,by omega,.right folds⟩

-- Folding a run

theorem fold_reduces {next} (several : 2 ≤ run.length) (chosen : select run = some i) (reduces : Reduces line run i next) :
    fold run line = fold next line := by
  obtain ⟨shorter,done,same⟩ := reduces
  match run with
  | first :: second :: rest =>
    rw [fold]
    simp only [chosen,done]
    rw [same]

theorem fold_items (ordered : t.Ordered) (valued : t.value line = .ok v) : fold t.items line = v.expr? line := by
  induction size : t.items.length using Nat.strongRecOn generalizing t with
  | ind n ih =>
    cases free : t.binding with
    | none =>
      obtain ⟨x,rfl⟩ := eq_leaf free
      cases valued
      rw [items,fold]
    | some p =>
      have next := @scan_next t v none line ordered valued p free 0 (by simp)
      rcases next with ⟨_,b,stored,_⟩ | ⟨c,k,t',chosen,_,_,place,folds⟩
      · contradiction
      · have selected : select t.items = some k := by rw [select_items,chosen,Option.map_some,place,Nat.zero_add]
        have reduces : Reduces line t.items k t'.items := by simpa using folds.reduces [] []
        have less := reduces.length_lt
        obtain ⟨first,rest,shape,_⟩ := t'.items_head
        have several : 2 ≤ t.items.length := by
          rw [shape,length_cons] at less
          omega
        rw [fold_reduces several selected reduces]
        exact ih _ (size ▸ less) (folds.ordered ordered) (folds.value.trans valued) rfl

end Tree

end EmbedScript
