import EmbedScript.Proofs.Syntax.Folding
import EmbedScript.Proofs.Syntax.Run

/-!
Accepted runs respect the table of strengths. An operator takes a looser one on its left only if it
had to wait for a looser one behind it.
-/

namespace EmbedScript

open List

variable {pre : List Item} {t : Tree} {ts : List Token}

namespace Item

-- The selected candidate

def Candidate.Beats (c d : Candidate) : Prop := c.precedence.rank < d.precedence.rank ∨ c.precedence = d.precedence ∧
      if c.precedence.fromRight then d.index ≤ c.index else c.index ≤ d.index

variable {b c : Candidate}

theorem Candidate.Beats.refl (c : Candidate) : c.Beats c := by
  refine .inr ⟨rfl,?_⟩
  split <;> exact Nat.le_refl _

theorem Candidate.Beats.rank_le (beats : c.Beats d) : c.precedence.rank ≤ d.precedence.rank := by
  rcases beats with less | ⟨same,_⟩
  · exact Nat.le_of_lt less
  · exact Nat.le_of_eq (congrArg Precedence.rank same)

theorem Candidate.Beats.trans (first : b.Beats c) (second : c.Beats d) : b.Beats d := by
  rcases first with less | ⟨same,before⟩
  · exact .inl (Nat.lt_of_lt_of_le less second.rank_le)
  · rcases second with less | ⟨same',before'⟩
    · exact .inl (same ▸ less)
    · refine .inr ⟨same.trans same',?_⟩
      split at before <;> simp_all <;> omega

theorem Candidate.Beats.rank_lt (beats : c.Beats d) (before : c.index < d.index)
    (right : d.precedence.fromRight = true) : c.precedence.rank < d.precedence.rank := by
  rcases beats with less | ⟨same,order⟩
  · exact less
  · rw [same,if_pos right] at order
    omega

theorem Candidate.better_beats {next} (fair : ∀ b ∈ best, b.Fair ∧ b.index < next.index) :
    (some (Candidate.better best next) = best ∨ Candidate.better best next = next) ∧
      (∀ b ∈ best, (Candidate.better best next).Beats b) ∧
      (Candidate.better best next).Beats next := by
  cases best with
  | none => exact ⟨.inr rfl,by simp,.refl next⟩
  | some b =>
    obtain ⟨groups,behind⟩ := fair b rfl
    by_cases first : b.precedence.leads next.precedence
    · rw [Candidate.better_of_leads groups first]
      refine ⟨.inl rfl,by simp [Beats.refl],?_⟩
      rcases first with less | ⟨same,left⟩
      · exact .inl less
      · exact .inr ⟨same,by rw [left]; exact Nat.le_of_lt behind⟩
    · rw [Candidate.better_of_not_leads groups first]
      refine ⟨.inr rfl,?_,.refl next⟩
      rintro _ ⟨⟩
      simp only [Precedence.leads,not_or,not_and,Bool.not_eq_false] at first
      rcases Nat.lt_or_eq_of_le (Nat.le_of_not_lt first.1) with less | same
      · exact .inl less
      · have same := Precedence.rank_inj.mp same
        exact .inr ⟨same,by rw [same,first.2 same.symm]; exact Nat.le_of_lt behind⟩

def Offers (c : Candidate) : Nat → Option Item → List Item → Prop
  | _, _, [] => False
  | index, left, item :: rest => candidate? index left (item :: rest) = some c ∨ Offers c (index + 1) (some item) rest

theorem candidate?_fair (offered : candidate? index left run = some c) : c.index = index ∧ c.Fair := by
  unfold candidate? at offered
  repeat' split at offered
  all_goals cases offered
  · exact ⟨rfl,(Op.fromRight_unaryPrecedence _).symm⟩
  · exact ⟨rfl,Op.rightAssoc_eq _⟩

theorem Offers.index_le (offers : Offers c index left run) : index ≤ c.index := by
  induction run generalizing index left with
  | nil => contradiction
  | cons item rest ih =>
    rcases offers with here | later
    · exact Nat.le_of_eq (candidate?_fair here).1.symm
    · exact Nat.le_of_succ_le (ih later)

theorem Offers.unique (first : Offers c index left run) (second : Offers d index left run)
    (same : c.index = d.index) : c = d := by
  induction run generalizing index left with
  | nil => contradiction
  | cons item rest ih =>
    rcases first with here | later <;> rcases second with here' | later'
    · exact Option.some.inj (here.symm.trans here')
    · have place := (candidate?_fair here).1
      have behind := later'.index_le
      omega
    · have place := (candidate?_fair here').1
      have behind := later.index_le
      omega
    · exact ih later later'

theorem Offers.append (offers : Offers c (index + before.length) (before.getLast?.or left) rest) :
    Offers c index left (before ++ rest) := by
  induction before generalizing index left with
  | nil => simpa using offers
  | cons item before ih =>
    refine .inr (ih ?_)
    have last : (item :: before).getLast?.or left = before.getLast?.or (some item) := by
      cases before with
      | nil => rfl
      | cons other before => simp [getLast?_cons]
    rw [last,length_cons,Nat.add_comm before.length,← Nat.add_assoc] at offers
    exact offers

theorem offers_unary (before : List Item) (o : Op) (x : Operand) (after : List Item) :
    Offers ⟨before.length,o.unaryPrecedence,true⟩ 0 none (before ++ .op o true :: .operand x :: after) := by
  refine Offers.append (.inl ?_)
  rw [Nat.zero_add]
  rfl

theorem offers_binary (before : List Item) (a : Operand) (o : Op) (b : Operand) (after : List Item) :
    Offers ⟨(before ++ [Item.operand a]).length,o.precedence,o.rightAssoc⟩ 0 none
      (before ++ [.operand a] ++ .op o false :: .operand b :: after) := by
  refine Offers.append (.inl ?_)
  rw [Nat.zero_add,getLast?_concat]
  rfl

theorem selectFrom_beats (fair : ∀ b ∈ best, b.Fair ∧ b.index < index) (selected : selectFrom index left best run = some c) :
    (best = some c ∨ Offers c index left run) ∧ (∀ b ∈ best, c.Beats b) ∧ ∀ d, Offers d index left run → c.Beats d := by
  induction run generalizing index left best with
  | nil =>
    refine ⟨.inl selected,?_,fun d offers => offers.elim⟩
    intro b stored
    cases stored.symm.trans selected
    exact .refl c
  | cons item rest ih =>
    unfold selectFrom at selected
    cases offered : candidate? index left (item :: rest) with
    | none =>
      rw [offered] at selected
      have later (b : Candidate) (stored : b ∈ best) : b.Fair ∧ b.index < index + 1 :=
        ⟨(fair b stored).1,Nat.lt_succ_of_lt (fair b stored).2⟩
      obtain ⟨origin,beats,others⟩ := ih later selected
      refine ⟨origin.imp_right .inr,beats,?_⟩
      rintro d (here | behind)
      · cases offered.symm.trans here
      · exact others d behind
    | some next =>
      rw [offered] at selected
      obtain ⟨place,groups⟩ := candidate?_fair offered
      obtain ⟨stays,first,second⟩ := Candidate.better_beats (place ▸ fair)
      have later (e : Candidate) (stored : e ∈ some (Candidate.better best next)) : e.Fair ∧ e.index < index + 1 := by
        cases stored
        rcases stays with same | same
        · exact ⟨(fair _ same.symm).1,Nat.lt_succ_of_lt (fair _ same.symm).2⟩
        · rw [same]
          exact ⟨groups,by omega⟩
      obtain ⟨origin,beats,others⟩ := ih later selected
      have whole := beats _ rfl
      refine ⟨?_,fun b stored => whole.trans (first b stored),?_⟩
      · rcases origin with own | behind
        · rcases stays with same | same
          · exact .inl (same.symm.trans own)
          · exact .inr (.inl (by rw [offered,← own,same]))
        · exact .inr (.inr behind)
      · rintro d (here | behind)
        · cases offered.symm.trans here
          exact whole.trans second
        · exact others d behind

theorem select_beats (chosen : select run = some c.index) (own : Offers c 0 none run)
    (other : Offers d 0 none run) : c.Beats d := by
  obtain ⟨best,selected,place⟩ := Option.map_eq_some_iff.mp chosen
  obtain ⟨origin,_,beats⟩ := selectFrom_beats (by simp) selected
  rcases origin with none' | offered
  · contradiction
  · cases own.unique offered place.symm
    exact beats d other

def leading : List Item → List Precedence
  | .op o true :: rest => o.unaryPrecedence :: leading rest
  | _ => []

end Item

namespace Tree

open Item

variable {line : Nat}

-- Trees that respect the table

def joint : Tree → Option Precedence
  | binary o _ _ => some o.precedence
  | _ => none

-- No operator has a looser one on its left, unless that is spared by what is on its right, and none
-- between operands on its right.
def Respects (spared : Precedence → Tree → Prop) : Tree → Prop
  | leaf _ => True
  | unary _ t => t.Respects spared
  | binary o l r => l.Respects spared ∧ r.Respects spared ∧ (∀ q ∈ l.binding, q.rank ≤ o.precedence.rank ∨ spared q r) ∧
      ∀ q ∈ r.joint, q.rank ≤ o.precedence.rank

def Delays (q : Precedence) (t : Tree) : Prop := ∃ p ∈ leading t.items, q.rank < p.rank

theorem leading_append (t : Tree) (rest : List Item) : leading (t.items ++ rest) = leading t.items := by
  induction t generalizing rest with
  | leaf x => rfl
  | unary o t ih => simp [items,leading,ih]
  | binary o l r left => simp only [items,append_assoc,left]

theorem items_waiting (waits : t.starts = false) : ∃ before o x after,
    t.items = before ++ .op o true :: .operand x :: after ∧ o.unaryPrecedence ∈ leading t.items := by
  induction t with
  | leaf x => contradiction
  | unary o t ih =>
    cases open' : t.starts with
    | true =>
      obtain ⟨first,rest,shape,kind⟩ := t.items_head
      rw [open'] at kind
      cases first with
      | op => contradiction
      | operand x => exact ⟨[],o,x,rest,by rw [items,shape]; rfl,by simp [items,leading]⟩
    | false =>
      obtain ⟨before,p,x,after,shape,mem⟩ := ih open'
      refine ⟨.op o true :: before,p,x,after,by rw [items,shape]; rfl,?_⟩
      simp [items,leading,mem]
  | binary o l r left =>
    obtain ⟨before,p,x,after,shape,mem⟩ := left waits
    refine ⟨before,p,x,after ++ .op o false :: r.items,by simp [items,shape],?_⟩
    rwa [items,leading_append]

-- Undoing a fold

variable {run : List Item}

theorem Folds.leading (folds : Folds line t i t') (mem : p ∈ leading t'.items) : p ∈ leading t.items := by
  induction folds with
  | unary | binary => simp [items,Item.leading] at mem
  | under _ ih =>
    simp only [items,Item.leading,mem_cons] at mem ⊢
    exact mem.imp_right ih
  | left _ ih =>
    rw [items,leading_append] at mem ⊢
    exact ih mem
  | right => rwa [items,leading_append] at mem ⊢

theorem exists_folds {v k} (made : Folds line sub k (leaf v))
    {after} (shape : t'.items = before ++ .operand v :: after) :
    ∃ t, Folds line t (before.length + k) t' ∧ t.items = before ++ sub.items ++ after := by
  induction t' generalizing before after with
  | leaf x =>
    cases before with
    | nil =>
      cases shape
      exact ⟨sub,by simpa using made,by simp⟩
    | cons first before => simp [items] at shape
  | unary o t ih =>
    cases before with
    | nil => simp [items] at shape
    | cons first before =>
      rw [items,cons_append,List.cons.injEq] at shape
      obtain ⟨rfl,inner⟩ := shape
      obtain ⟨s,folds,same⟩ := ih inner
      refine ⟨.unary o s,?_,by simp [items,same]⟩
      have under := Folds.under (o := o) folds
      rwa [length_cons,Nat.add_right_comm]
  | binary o l r left right =>
    rw [items,append_eq_append_iff] at shape
    rcases shape with ⟨middle,rfl,inner⟩ | ⟨middle,inner,rest⟩
    · cases middle with
      | nil => simp at inner
      | cons first middle =>
        rw [cons_append,List.cons.injEq] at inner
        obtain ⟨rfl,inner⟩ := inner
        obtain ⟨s,folds,same⟩ := right inner
        refine ⟨.binary o l s,?_,by simp [items,same]⟩
        have behind := Folds.right (o := o) (l := l) folds
        simpa [Nat.add_assoc,Nat.add_comm 1] using behind
    · cases middle with
      | nil => simp at rest
      | cons first middle =>
        obtain ⟨rfl,rfl⟩ := rest
        obtain ⟨s,folds,same⟩ := left inner
        exact ⟨.binary o s r,.left folds,by simp [items,same]⟩

theorem length_take_of_drop {rest} (found : run.drop i = first :: rest) : (run.take i).length = i := by
  have bound := congrArg length found
  rw [length_drop,length_cons] at bound
  rw [length_take]
  omega

theorem reduce_folds (reduced : reduce run i line = .ok shorter) :
    ∃ sub k v before after, Folds line sub k (leaf v) ∧ run = before ++ sub.items ++ after ∧
      i = before.length + k ∧ shorter.val = before ++ .operand v :: after := by
  have whole := (take_append_drop i run).symm
  unfold reduce at reduced
  split at reduced
  case h_1 o x after found =>
    split at reduced
    case h_1 e read =>
      cases reduced
      rw [found] at whole
      refine ⟨.unary o (leaf x),0,_,run.take i,after,.unary read,?_,?_,rfl⟩
      · simpa [items] using whole
      · exact (length_take_of_drop found).symm
    case h_2 => contradiction
  case h_2 o b after found =>
    split at reduced
    case h_1 a beside =>
      split at reduced
      case h_1 v made =>
        cases reduced
        obtain ⟨before,ahead⟩ := getLast?_eq_some_iff.mp beside
        have place := length_take_of_drop found
        rw [found,ahead] at whole
        rw [ahead,length_append] at place
        refine ⟨.binary o (leaf a) (leaf b),1,v,before,after,.binary made,?_,place.symm,?_⟩
        · simpa [items] using whole
        · simp [ahead]
      case h_2 => contradiction
    case h_2 => contradiction
  case h_3 => contradiction

-- The folded operator keeps to the table

-- What is folded in front of an operator is not looser, unless the operator waits for looser ones.
theorem select_ahead {o r c}
    (chosen : select (pre ++ [.operand x] ++ .op o false :: (r.items ++ post)) = some c.index)
    (own : Offers c 0 none (pre ++ [.operand x] ++ .op o false :: (r.items ++ post)))
    (before : c.index < (pre ++ [operand x]).length) :
    c.precedence.rank ≤ o.precedence.rank ∨ Delays c.precedence r := by
  cases open' : r.starts with
  | true =>
    obtain ⟨first,rest,shape,kind⟩ := r.items_head
    rw [open'] at kind
    cases first with
    | op => contradiction
    | operand b =>
      rw [shape] at chosen own
      exact .inl (select_beats chosen own (offers_binary pre x o b (rest ++ post))).rank_le
  | false =>
    obtain ⟨ahead,p,b,after,shape,mem⟩ := items_waiting open'
    have other := offers_unary (pre ++ [.operand x] ++ .op o false :: ahead) p b (after ++ post)
    have same : pre ++ [.operand x] ++ .op o false :: (r.items ++ post) =
        (pre ++ [.operand x] ++ .op o false :: ahead) ++ .op p true :: .operand b :: (after ++ post) := by
      simp [shape]
    rw [← same] at other
    refine .inr ⟨_,mem,(select_beats chosen own other).rank_lt ?_ p.fromRight_unaryPrecedence⟩
    simp only [length_append,length_cons] at before ⊢
    omega

-- What is folded behind an operator, between two operands, is not looser.
theorem select_behind {a b o o'} (chosen : select (pre ++ [.operand x] ++ .op o false ::
      .operand a :: .op o' false :: .operand b :: post) = some (pre.length + 3)) :
    o'.precedence.rank ≤ o.precedence.rank := by
  have own := offers_binary (pre ++ [.operand x,.op o false]) a o' b post
  have other := offers_binary pre x o a (.op o' false :: .operand b :: post)
  simp only [append_assoc,cons_append,nil_append] at chosen own other
  have place : (pre ++ [operand x,.op o false,.operand a]).length = pre.length + 3 := by simp
  rw [← place] at chosen
  exact (select_beats chosen own other).rank_le

theorem Folds.respects (folds : Folds line t i t')
    (chosen : select (pre ++ t.items ++ post) = some (pre.length + i)) (kept : t'.Respects Delays) :
    t.Respects Delays := by
  induction folds generalizing pre post with
  | unary => trivial
  | binary => exact ⟨trivial,trivial,by simp [Tree.binding],by simp [joint]⟩
  | @under o t t' i _ ih =>
    refine @ih (pre ++ [.op o true]) post ?_ kept
    simpa [items,Nat.add_assoc,Nat.add_comm 1] using chosen
  | @left o l l' r i below ih =>
    obtain ⟨left,right,ahead,behind⟩ := kept
    refine ⟨@ih pre (.op o false :: r.items ++ post) ?_ left,right,?_,behind⟩
    · simpa [items] using chosen
    · intro q bound
      -- Only a subtree that becomes an operand binds differently from before.
      cases below with
      | @unary o' x e read =>
        cases bound
        have own := offers_unary pre o' x (.op o false :: (r.items ++ post))
        refine @select_ahead (pre ++ [.op o' true]) post x o r ⟨pre.length,o'.unaryPrecedence,true⟩ ?_ ?_ ?_
        · simpa [items] using chosen
        · simpa using own
        · simp
      | @binary o' a b v made =>
        cases bound
        have own := offers_binary pre a o' b (.op o false :: (r.items ++ post))
        refine @select_ahead (pre ++ [.operand a,.op o' false]) post b o r
          ⟨(pre ++ [operand a]).length,o'.precedence,o'.rightAssoc⟩ ?_ ?_ ?_
        · simpa [items] using chosen
        · simpa using own
        · simp
      | under | left | right => exact ahead q bound
  | @right o l r r' i below ih =>
    obtain ⟨left,right,ahead,behind⟩ := kept
    refine ⟨left,@ih (pre ++ l.items ++ [.op o false]) post ?_ right,?_,?_⟩
    · simpa [items,Nat.add_assoc] using chosen
    · intro q bound
      rcases ahead q bound with tight | ⟨p,mem,less⟩
      · exact .inl tight
      · exact .inr ⟨p,below.leading mem,less⟩
    · intro q bound
      cases below with
      | unary | under => contradiction
      | @binary o' a b v made =>
        cases bound
        obtain ⟨before,x,shape⟩ := l.items_last
        refine @select_behind (pre ++ before) post x a b o o' ?_
        rw [items,shape] at chosen
        simpa [items,Nat.add_assoc] using chosen
      | left | right => exact behind q bound

theorem fold_respects (folded : fold run line = .ok e) :
    ∃ t : Tree, t.items = run ∧ t.value line = .ok (.expr e) ∧ t.Respects Delays := by
  fun_induction fold run line with
  | case1 v =>
    cases v with
    | arms => contradiction
    | expr e' =>
      cases folded
      exact ⟨leaf (.expr e),rfl,rfl,trivial⟩
  | case2 | case3 | case4 | case6 => contradiction
  | case5 first second rest i chosen shorter less reduced ih =>
    obtain ⟨t',shape,valued,kept⟩ := ih folded
    obtain ⟨sub,k,v,before,after,made,whole,rfl,next⟩ := reduce_folds reduced
    obtain ⟨t,folds,same⟩ := exists_folds made (shape.trans next)
    rw [← whole] at same
    have alone : select ([] ++ t.items ++ []) = some (([] : List Item).length + (before.length + k)) := by
      simpa [same] using chosen
    exact ⟨t,same,folds.value.symm.trans valued,folds.respects alone kept⟩

end Tree

-- Runs of tokens

namespace Run

variable {line : Nat}

inductive Cut (inner : Reader) (line : Nat) : List Item → List Token → Prop where
  | nil : Cut inner line [] []
  | op {items : List Item} {ts : List Token} (o : Op) (unary : Bool) (spot : Spot)
      (rest : Cut inner line items ts) :
      Cut inner line (.op o unary :: items) (.op o false spot :: ts)
  | operand {items : List Item} {span ts : List Token} {e : Expr} (written : span ≠ [])
      (plain : ∀ t ∈ span, t.isOperator = false) (read : operand inner span line = .ok e)
      (rest : Cut inner line items ts) :
      Cut inner line (.operand (.expr e) :: items) (span ++ ts)

theorem closeSpan_cut {inner left span}
    (plain : ∀ t ∈ span, t.isOperator = false) (closed : closeSpan inner line items span = .ok left) :
    ∃ front, left = front.reverse ++ items ∧
      ∀ {more ts}, Cut inner line more ts → Cut inner line (front ++ more) (span.reverse ++ ts) := by
  unfold closeSpan at closed
  split at closed
  case isTrue empty =>
    cases closed
    cases isEmpty_iff.mp empty
    exact ⟨[],rfl,id⟩
  case isFalse filled =>
    obtain ⟨e,read,⟨⟩⟩ := Except.bind_eq_ok closed
    refine ⟨[.operand (.expr e)],rfl,fun rest => .operand ?_ ?_ read rest⟩
    · simpa using filled
    · simpa using plain

theorem segment_cut {inner out span} (plain : ∀ t ∈ span, t.isOperator = false)
    (segmented : segment inner line items span ts = .ok out) :
    ∃ more, out = items.reverse ++ more ∧ Cut inner line more (span.reverse ++ ts) := by
  induction ts generalizing items span with
  | nil =>
    obtain ⟨left,closed,segmented⟩ := Except.bind_eq_ok segmented
    obtain ⟨front,rfl,cut⟩ := closeSpan_cut plain closed
    split at segmented <;> cases segmented
    exact ⟨front,by simp,by simpa using cut .nil⟩
  | cons t ts ih =>
    cases t with
    | op o augmented spot =>
      obtain ⟨left,closed,further⟩ := Except.bind_eq_ok segmented
      obtain ⟨front,rfl,cut⟩ := closeSpan_cut plain closed
      extract_lets unary at further
      split at further
      case isTrue => contradiction
      case isFalse known =>
        obtain rfl : augmented = false := by
          cases augmented with
          | false => rfl
          | true => exact absurd rfl known
        obtain ⟨more,rfl,rest⟩ := ih (by simp) further
        exact ⟨front ++ .op o unary :: more,by simp,cut (.op o unary spot rest)⟩
    | _ =>
      obtain ⟨more,rfl,rest⟩ := ih (by simpa [Token.isOperator] using plain) segmented
      exact ⟨more,rfl,by simpa using rest⟩

theorem Cut.split {inner after o unary} (cut : Cut inner line (before ++ .op o unary :: after) ts) :
    ∃ ls spot rs, ts = ls ++ .op o false spot :: rs ∧ Cut inner line before ls ∧
      Cut inner line after rs := by
  induction before generalizing ts with
  | nil =>
    cases cut with
    | op _ _ spot rest => exact ⟨[],spot,_,rfl,.nil,rest⟩
  | cons item before ih =>
    cases cut with
    | op p u spot rest =>
      obtain ⟨ls,spot',rs,rfl,left,right⟩ := ih rest
      exact ⟨_,spot',rs,rfl,.op p u spot left,right⟩
    | operand written plain read rest =>
      obtain ⟨ls,spot',rs,rfl,left,right⟩ := ih rest
      exact ⟨_,spot',rs,by rw [← append_assoc],.operand written plain read left,right⟩

end Run

namespace Tree

variable {line : Nat}

-- The operands and operators of the tree, from left to right, are the tokens of the run. An operand
-- is a span without operators, so what stands in brackets is part of one.
inductive Spells (inner : Run.Reader) (line : Nat) : Tree → List Token → Prop where
  | leaf {span : List Token} {e : Expr} (plain : ∀ t ∈ span, t.isOperator = false)
      (read : Run.operand inner span line = .ok e) : Spells inner line (.leaf (.expr e)) span
  | unary {t : Tree} {ts : List Token} (o : Op) (spot : Spot) (operand : Spells inner line t ts) :
      Spells inner line (.unary o t) (.op o false spot :: ts)
  | binary {l r : Tree} {ls rs : List Token} (o : Op) (spot : Spot) (left : Spells inner line l ls)
      (right : Spells inner line r rs) :
      Spells inner line (.binary o l r) (ls ++ .op o false spot :: rs)

theorem spells_of_cut {inner} (cut : Run.Cut inner line t.items ts) : Spells inner line t ts := by
  induction t generalizing ts with
  | leaf x =>
    cases cut with
    | operand written plain read rest =>
      cases rest
      rw [append_nil]
      exact .leaf plain read
  | unary o t ih =>
    cases cut with
    | op _ _ spot rest => exact .unary o spot (ih rest)
  | binary o l r left right =>
    obtain ⟨ls,spot,rs,rfl,first,second⟩ := cut.split
    exact .binary o spot (left first) (right second)

end Tree

-- An expression that is read from a run stands for a tree of its operands and operators that
-- respects the table, where a looser left operand may only go ahead of an operator that waits.
theorem expression_respects {ts : List Token} {line : Nat} {e : Expr}
    (read : Run.expression ts line = .ok e) :
    ∃ t : Tree, t.Spells (Run.within (Token.depths ts)) (Token.firstLine ts line) ts ∧
      t.value (Token.firstLine ts line) = .ok (.expr e) ∧ t.Respects Tree.Delays := by
  have level : Run.level (Run.within (Token.depths ts)) ts line = .ok e := read
  unfold Run.level at level
  cases segmented : Run.segment (Run.within (Token.depths ts)) (Token.firstLine ts line) [] [] ts with
  | error => simp [segmented, bind, Except.bind] at level
  | ok items =>
    simp only [segmented, bind, Except.bind] at level
    obtain ⟨more, rfl, cut⟩ := Run.segment_cut (by simp) segmented
    obtain ⟨t, rfl, valued, respects⟩ := Tree.fold_respects level
    exact ⟨t, Tree.spells_of_cut cut, valued, respects⟩

-- `a + b * not c`: the product waits for its right operand, and the sum goes ahead of it.
def delayedRun : List Token := [.name "a" ⟨1,false⟩,.op .add false ⟨1,false⟩,.name "b" ⟨1,false⟩,.op .mul false ⟨1,false⟩,
    .op .not false ⟨1,false⟩,.name "c" ⟨1,false⟩]

def delayedProduct : Expr := .binary .mul (.binary .add (.name "a") (.name "b")) (.not (.name "c"))

theorem delayedRun_read : Run.expression delayedRun 1 = .ok delayedProduct := by with_unfolding_all rfl

theorem expression_respects_delayed : Run.expression delayedRun 1 = .ok delayedProduct ∧
    ∃ t : Tree, t.Spells (Run.within 0) 1 delayedRun ∧ t.value 1 = .ok (.expr delayedProduct) ∧
      t.Respects Tree.Delays :=
  ⟨delayedRun_read, expression_respects delayedRun_read⟩

theorem Tree.Spells.cases_binary {inner line first rest} (spells : t.Spells inner line (first :: rest))
    (operand : first.isOperator = false) (operators : ∃ u ∈ rest, u.isOperator = true) :
    ∃ o l r ls spot rs, t = .binary o l r ∧ rest = ls ++ .op o false spot :: rs ∧
      l.Spells inner line (first :: ls) ∧ r.Spells inner line rs := by
  generalize whole : first :: rest = ts at spells
  cases spells with
  | leaf plain read =>
    subst whole
    obtain ⟨u,mem,operator⟩ := operators
    rw [plain u (.tail _ mem)] at operator
    contradiction
  | unary o spot below =>
    cases whole
    contradiction
  | @binary l r ls rs o spot left right =>
    cases ls with
    | nil =>
      cases whole
      contradiction
    | cons head ls =>
      obtain ⟨rfl,rfl⟩ := whole
      exact ⟨o,l,r,ls,spot,rs,rfl,rfl,left,right⟩

theorem delayedRun_not_respects : Run.expression delayedRun 1 = .ok delayedProduct ∧
    ¬ ∃ t : Tree, t.Spells (Run.within 0) 1 delayedRun ∧ t.value 1 = .ok (.expr delayedProduct) ∧
      t.Respects fun _ _ => False := by
  refine ⟨delayedRun_read, ?_⟩
  rintro ⟨t, spells, valued, respects⟩
  obtain ⟨o, l, r, ls, spot, rs, rfl, shape, left, right⟩ :=
    spells.cases_binary rfl ⟨.op .add false ⟨1, false⟩, by simp, rfl⟩
  obtain ⟨x, y, _, _, made⟩ := Tree.value_binary valued
  -- The outermost operator is the sum, the product or the negation; the value is a product.
  rcases ls with _ | ⟨_, _ | ⟨_, _ | ⟨_, _ | ⟨_, ls⟩⟩⟩⟩
  case nil =>
    cases shape
    cases x <;> cases y <;> cases made
  case cons.cons.nil =>
    cases shape
    obtain ⟨o, a, b, ls, _, _, rfl, shape, _, _⟩ :=
      left.cases_binary rfl ⟨.op .add false ⟨1, false⟩, by simp, rfl⟩
    rcases ls with _ | ⟨_, ls⟩
    case nil =>
      cases shape
      obtain ⟨_, _, ahead, _⟩ := respects
      rcases ahead .additive rfl with tight | never
      · exact absurd tight (by decide)
      · exact never
    case cons => cases ls <;> simp at shape
  case cons.cons.cons.nil =>
    cases shape
    cases x <;> cases y <;> cases made
  case cons.nil => cases shape
  case cons.cons.cons.cons => cases ls <;> simp at shape

end EmbedScript
