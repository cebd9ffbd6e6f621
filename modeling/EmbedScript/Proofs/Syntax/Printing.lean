import EmbedScript.Proofs.Number.Word
import EmbedScript.Proofs.Syntax.Folding
import EmbedScript.Proofs.Syntax.Run

/-!
Parsing inverts printing, with brackets where the table of strengths asks for them.
-/

namespace EmbedScript

open List Expr Run

protected def BinaryOp.op : BinaryOp → Op
  | add => .add
  | sub => .sub
  | mul => .mul
  | div => .div
  | floorDiv => .floorDiv
  | mod => .mod
  | pow => .pow
  | lshift => .lshift
  | rshift => .rshift
  | bitAnd => .bitAnd
  | bitXor => .bitXor
  | bitOr => .bitOr
  | lt => .lt
  | le => .le
  | gt => .gt
  | ge => .ge
  | eq => .eq
  | ne => .ne

variable {e : Expr} {ts : List Token} {o : Op}

namespace Expr

def reserved : List String := ["None","True","False","nil"]

-- Expressions over names, texts, numbers and operators. A minus in front of a number is not
-- among them: it is read as part of the number.
def Plain : Expr → Prop
  | .name n => n ∉ reserved
  | .str _ => True
  | .int n => 0 ≤ n.toInt
  | .binary _ l r | .identity _ l r | .membership _ l r | .and l r | .or l r => l.Plain ∧ r.Plain
  | .unary op x => x.Plain ∧ ¬ (op = .neg ∧ x matches .int _)
  | .not x => x.Plain
  | .ternary condition yes no => condition.Plain ∧ yes.Plain ∧ no.Plain
  | _ => False

def binding : Expr → Option Precedence
  | .binary op _ _ => some op.op.precedence
  | .identity .. | .membership .. => some .relational
  | .and .. => some .logicalAnd
  | .or .. => some .logicalOr
  | .unary .. => some .unary
  | .not _ => some .logicalNot
  | .ternary .. => some .key
  | _ => Option.none

-- An operand of an operator of strength `p` is written in brackets; `grouped` on the side from
-- which the operator groups.
def bracketed (operand : Expr) (p : Precedence) (grouped : Bool) : Bool := operand matches .ternary .. ||
    operand.binding.any fun q => decide (p.rank < q.rank) || (q == p && !grouped)

inductive Between : Op → Expr → Expr → Expr → Prop where
  | binary (op : BinaryOp) {l r : Expr} : Between op.op l r (.binary op l r)
  | same {l r : Expr} : Between .same l r (.identity false l r)
  | notSame {l r : Expr} : Between .notSame l r (.identity true l r)
  | within {l r : Expr} : Between .within l r (.membership false l r)
  | notWithin {l r : Expr} : Between .notWithin l r (.membership true l r)
  | and {l r : Expr} : Between .and l r (.and l r)
  | or {l r : Expr} : Between .or l r (.or l r)

inductive InFront : Op → Precedence → Expr → Expr → Prop where
  | neg {x : Expr} (apart : ¬ x matches .int _ | .float _) : InFront .sub .unary x (.unary .neg x)
  | pos {x : Expr} : InFront .add .unary x (.unary .pos x)
  | invert {x : Expr} : InFront .invert .unary x (.unary .invert x)
  | not {x : Expr} : InFront .not .logicalNot x (.not x)

mutual

-- `ts` writes the expression. With `spare` there may be brackets that are not needed. The tokens
-- stand on any lines, with no comma between them.
inductive Written (spare : Bool) : Expr → List Token → Prop where
  | name {n : String} (ordinary : n ∉ reserved) (line : Nat) :
      Written spare (.name n) [.name n { line }]
  | str (s : String) (line : Nat) : Written spare (.str s) [.str s { line }]
  | int {n : Int64} (sign : 0 ≤ n.toInt) (line : Nat) :
      Written spare (.int n) [.number n.toInt.natAbs.repr { line }]
  | between {o : Op} {l r whole : Expr} {ls rs : List Token} (shape : Between o l r whole)
      (left : Part spare (l.bracketed o.precedence (!o.rightAssoc)) l ls) (line : Nat)
      (right : Part spare (r.bracketed o.precedence o.rightAssoc) r rs) :
      Written spare whole (ls ++ .op o false { line } :: rs)
  | inFront {o : Op} {p : Precedence} {x whole : Expr} {ts : List Token}
      (shape : InFront o p x whole) (line : Nat) (operand : Part spare (x.bracketed p true) x ts) :
      Written spare whole (.op o false { line } :: ts)
  | ternary {condition yes no : Expr} {cs ys ns : List Token}
      (before : Part spare (yes.bracketed .key false) yes ys) (line : Nat)
      (middle : Part spare (condition.bracketed .key false) condition cs) (line' : Nat)
      (behind : Part spare (no.bracketed .key true) no ns) :
      Written spare (.ternary condition yes no)
        (ys ++ .op .when false { line } :: (cs ++ .op .otherwise false { line := line' } :: ns))

inductive Part (spare : Bool) : Bool → Expr → List Token → Prop where
  | bare {e : Expr} {ts : List Token} (written : Written spare e ts) : Part spare false e ts
  | group {needed : Bool} (asked : needed || spare) {e : Expr} {ts : List Token}
      (written : Written spare e ts) (line : Nat) :
      Part spare needed e [.group .paren ts { line }]

end

theorem Part.exists (written : Written false e ts) (needed : Bool) : ∃ us, Part false needed e us := by
  cases needed with
  | false => exact ⟨ts,.bare written⟩
  | true => exact ⟨_,.group rfl written 0⟩

theorem Between.written (shape : Between o l r whole) (left : ∃ ts, Written false l ts) (right : ∃ ts, Written false r ts) :
    ∃ ts, Written false whole ts := by
  obtain ⟨_,left⟩ := left
  obtain ⟨_,right⟩ := right
  obtain ⟨_,left⟩ := Part.exists left (l.bracketed o.precedence (!o.rightAssoc))
  obtain ⟨_,right⟩ := Part.exists right (r.bracketed o.precedence o.rightAssoc)
  exact ⟨_,.between shape left 0 right⟩

theorem InFront.written {x} (shape : InFront o p x whole)
    (operand : ∃ ts, Written false x ts) : ∃ ts, Written false whole ts := by
  obtain ⟨_,operand⟩ := operand
  obtain ⟨_,operand⟩ := Part.exists operand (x.bracketed p true)
  exact ⟨_,.inFront shape 0 operand⟩

theorem Plain.written (plain : e.Plain) : ∃ ts, Written false e ts := by
  fun_induction Plain e with
  | case1 n => exact ⟨_,.name plain 0⟩
  | case2 s => exact ⟨_,.str s 0⟩
  | case3 n => exact ⟨_,.int plain 0⟩
  | case4 op l r left right => exact (Between.binary op).written (left plain.1) (right plain.2)
  | case5 negated l r left right =>
    cases negated with
    | false => exact Between.same.written (left plain.1) (right plain.2)
    | true => exact Between.notSame.written (left plain.1) (right plain.2)
  | case6 negated l r left right =>
    cases negated with
    | false => exact Between.within.written (left plain.1) (right plain.2)
    | true => exact Between.notWithin.written (left plain.1) (right plain.2)
  | case7 l r left right => exact Between.and.written (left plain.1) (right plain.2)
  | case8 l r left right => exact Between.or.written (left plain.1) (right plain.2)
  | case9 op x ih =>
    cases op with
    | neg =>
      refine (InFront.neg ?_).written (ih plain.1)
      intro literal
      cases x with
      | int n => exact plain.2 ⟨rfl,rfl⟩
      | float y => exact plain.1
      | _ => contradiction
    | pos => exact InFront.pos.written (ih plain.1)
    | invert => exact InFront.invert.written (ih plain.1)
  | case10 x ih => exact InFront.not.written (ih plain)
  | case11 condition yes no middle before behind =>
    obtain ⟨_,middle⟩ := middle plain.1
    obtain ⟨_,before⟩ := before plain.2.1
    obtain ⟨_,behind⟩ := behind plain.2.2
    obtain ⟨_,middle⟩ := Part.exists middle (condition.bracketed .key false)
    obtain ⟨_,before⟩ := Part.exists before (yes.bracketed .key false)
    obtain ⟨_,behind⟩ := Part.exists behind (no.bracketed .key true)
    exact ⟨_,.ternary before 0 middle 0 behind⟩
  | case12 => contradiction

-- Brackets keep the order of folding

section

variable {x : Expr}

theorem leads_of_bare (bare : x.bracketed p (!p.fromRight) = false) (bound : q ∈ x.binding) : q.leads p := by
  rw [Option.mem_def] at bound
  simp only [bracketed,bound,Option.any_some,Bool.or_eq_false_iff,decide_eq_false_iff_not,
    Bool.not_not,Bool.and_eq_false_iff,beq_eq_false_iff_ne] at bare
  obtain ⟨_,loose,equal⟩ := bare
  rcases Nat.lt_or_eq_of_le (Nat.le_of_not_lt loose) with less | same
  · exact .inl less
  · have same := Precedence.rank_inj.mp same
    rcases equal with other | left
    · exact absurd same other
    · exact .inr ⟨same,same ▸ left⟩

theorem not_leads_of_bare (bare : x.bracketed p p.fromRight = false) (bound : q ∈ x.binding) : ¬ p.leads q := by
  rw [Option.mem_def] at bound
  simp only [bracketed,bound,Option.any_some,Bool.or_eq_false_iff,decide_eq_false_iff_not,
    Bool.and_eq_false_iff,beq_eq_false_iff_ne] at bare
  obtain ⟨_,loose,equal⟩ := bare
  rintro (less | ⟨same,left⟩)
  · exact loose less
  · rcases equal with other | right
    · exact other same.symm
    · rw [left] at right
      contradiction

end

-- Tokens of a written expression

def Quiet (ts : List Token) : Prop := ts ≠ [] ∧ ∀ t ∈ ts, t.comma = false ∧ t.isOp .each = false

theorem Quiet.op {rs} (left : ∀ t ∈ ls, t.comma = false ∧ t.isOp .each = false)
    (other : o ≠ .each) (line : Nat) (right : Quiet rs) :
    Quiet (ls ++ .op o false { line } :: rs) := by
  refine ⟨by simp,?_⟩
  intro t mem
  rcases mem_append.mp mem with before | here
  · exact left t before
  · rcases mem_cons.mp here with rfl | behind
    · exact ⟨rfl,by simpa [Token.isOp] using other⟩
    · exact right.2 t behind

theorem Between.ne_each (shape : Between o l r whole) : o ≠ .each := by
  cases shape with
  | binary op => cases op <;> simp [BinaryOp.op]
  | _ => simp

theorem InFront.ne_each {x} (shape : InFront o p x whole) : o ≠ .each := by cases shape <;> simp

mutual

theorem Written.quiet {e ts} : Written spare e ts → Quiet ts
  | .name _ _ | .str _ _ | .int _ _ => ⟨by simp,by simp [Token.comma,Token.spot,Token.isOp]⟩
  | .between shape left line right => .op left.quiet.2 shape.ne_each line right.quiet
  | .inFront shape line operand => @Quiet.op _ [] _ (by simp) shape.ne_each line operand.quiet
  | .ternary before line middle line' behind =>
    .op before.quiet.2 (by simp) line (.op middle.quiet.2 (by simp) line' behind.quiet)

theorem Part.quiet {needed e ts} : Part spare needed e ts → Quiet ts
  | .bare written => written.quiet
  | .group _ _ _ => ⟨by simp,by simp [Token.comma,Token.spot,Token.isOp]⟩

end

end Expr

-- Runs cut into operator trees

namespace Run

def Awaits (items : List Item) : Prop := items.head?.any Item.isOperand = false

def Stops (rest : List Token) : Prop := rest.head?.all Token.isOperator = true

structure Reads (inner : Reader) (line : Nat) (ts : List Token) (t : Tree) (v : Operand) : Prop where
  ordered : t.Ordered
  valued : t.value line = .ok v
  cut : ∀ {items rest}, Awaits items → Stops rest →
    segment inner line items [] (ts ++ rest) = segment inner line (t.items.reverse ++ items) [] rest

variable {line : Nat}

theorem segment_closes {inner} (read : operand inner [t] line = .ok e)
    (items : List Item) {rest} (stops : Stops rest) :
    segment inner line items [t] rest = segment inner line (.operand (.expr e) :: items) [] rest := by
  have closed : closeSpan inner line items [t] = .ok (.operand (.expr e) :: items) := by
    simp only [closeSpan,reverse_singleton,read]
    rfl
  cases rest with
  | nil =>
    simp only [segment,closed]
    rfl
  | cons u rest =>
    cases u with
    | op o augmented spot =>
      simp only [segment,closed]
      rfl
    | _ => contradiction

theorem Reads.token {inner} (plain : t.isOperator = false)
    (read : operand inner [t] line = .ok e) : Reads inner line [t] (.leaf (.expr e)) (.expr e) where
  ordered := trivial
  valued := rfl
  cut := by
    intro items rest _ stops
    have gathered := @segment_span inner line items [] [t] (by simpa using plain) rest
    exact gathered.trans (segment_closes read items stops)

section

variable (known : isForeign o false = false)

include known

theorem segment_between {inner} (t : Tree) (items : List Item) (spot : Spot) (rest : List Token) :
    segment inner line (t.items.reverse ++ items) [] (.op o false spot :: rest) =
      segment inner line (.op o false :: (t.items.reverse ++ items)) [] rest := by
  obtain ⟨before,last,shape⟩ := t.items_last
  have ready : (t.items.reverse ++ items).head?.any Item.isOperand = true := by
    rw [shape,reverse_concat]
    rfl
  simp only [segment,closeSpan,isEmpty_nil,if_true,bind,Except.bind,ready,known]
  rfl

theorem segment_inFront {inner} (able : o.unaryPrecedence?.isNone = false)
    (awaits : Awaits items) (spot : Spot) (rest : List Token) :
    segment inner line items [] (.op o false spot :: rest) = segment inner line (.op o true :: items) [] rest := by
  have open' : items.head?.any Item.isOperand = false := awaits
  simp only [segment,closeSpan,isEmpty_nil,if_true,bind,Except.bind,open',known,able]
  rfl

theorem Reads.between {inner rs lt rt l r whole}
    (left : Reads inner line ls lt l) (spot : Spot) (right : Reads inner line rs rt r)
    (first : ∀ q ∈ lt.binding, q.leads o.precedence)
    (last : ∀ q ∈ rt.binding, ¬ o.precedence.leads q) (made : l.combine o r line = .ok whole) :
    Reads inner line (ls ++ .op o false spot :: rs) (.binary o lt rt) whole where
  ordered := ⟨left.ordered,right.ordered,first,last⟩
  valued := by
    rw [Tree.value,left.valued,right.valued]
    exact made
  cut := by
    intro items rest awaits stops
    calc segment inner line items [] (ls ++ .op o false spot :: rs ++ rest)
      _ = segment inner line items [] (ls ++ (.op o false spot :: (rs ++ rest))) := by simp
      _ = segment inner line (lt.items.reverse ++ items) [] (.op o false spot :: (rs ++ rest)) := left.cut awaits rfl
      _ = segment inner line (.op o false :: (lt.items.reverse ++ items)) [] (rs ++ rest) := segment_between known lt items spot _
      _ = segment inner line (rt.items.reverse ++ .op o false :: (lt.items.reverse ++ items)) [] rest := right.cut rfl stops
      _ = segment inner line ((Tree.binary o lt rt).items.reverse ++ items) [] rest := by simp [Tree.items]

theorem Reads.inFront {inner} (able : o.unaryPrecedence?.isNone = false) (spot : Spot)
    (operand : Reads inner line ts t (.expr e))
    (last : ∀ q ∈ t.binding, ¬ o.unaryPrecedence.leads q) :
    Reads inner line (.op o false spot :: ts) (.unary o t) (.expr (o.applyUnary e)) where
  ordered := ⟨operand.ordered,last⟩
  valued := by
    rw [Tree.value,operand.valued]
    rfl
  cut := by
    intro items rest awaits stops
    have front : Awaits (.op o true :: items) := rfl
    rw [cons_append,segment_inFront known able awaits,operand.cut front stops]
    simp [Tree.items]

end

theorem Reads.level {inner} (reads : ∀ line, ∃ t, Reads inner line ts t (.expr e)) : level inner ts line = .ok e := by
  obtain ⟨t,ordered,valued,cut⟩ := reads (Token.firstLine ts line)
  obtain ⟨before,last,shape⟩ := t.items_last
  have items : segment inner (Token.firstLine ts line) [] [] ts = .ok t.items := by
    have whole := @cut [] [] rfl rfl
    rw [append_nil] at whole
    rw [whole,shape]
    simp [segment,closeSpan,bind,Except.bind]
    rfl
  have folded := Tree.fold_items ordered valued
  simp only [Run.level,items]
  exact folded

theorem operand_group {inner} (quiet : Quiet ts) (read : ∀ line, inner ts line = .ok e) (spot : Spot) :
    operand inner [.group .paren ts spot] line = .ok e := by
  obtain ⟨written,each⟩ := quiet
  have clauses : Token.hasOp .each ts = false := any_eq_false.mpr fun t mem => by simp [(each t mem).2]
  have inside : paren inner ts spot.line = .ok e := by
    rw [paren,if_neg (by simpa using written),clauses,expressions_plain written fun t mem => (each t mem).1]
    exact read spot.line
  simp only [operand,primary,Token.line,Token.spot,inside]
  rfl

theorem operand_name {inner} (ordinary : n ∉ reserved) (spot : Spot) :
    operand inner [.name n spot] line = .ok (.name n) := by
  have read : word n = .name n := by
    simp only [reserved] at ordinary
    unfold word
    split <;> simp_all
  simp only [operand,primary,read]
  rfl

theorem operand_number {inner} (sign : 0 ≤ n.toInt) (spot : Spot) :
    operand inner [.number n.toInt.natAbs.repr spot] line = .ok (.int n) := by
  have other : n ≠ Int64.minValue := by
    rintro rfl
    exact absurd sign (by decide)
  have fits := Word.ofInt?_natAbs other
  rw [Word.ofInt_natAbs_nonneg sign] at fits
  simp only [operand,primary,number_repr fits]
  rfl

end Run

namespace Expr

variable {line : Nat}

-- The shapes of operators

theorem Between.known (shape : Between o l r whole) : isForeign o false = false := by
  cases shape with
  | binary op => cases op <;> rfl
  | _ => rfl

theorem Between.combine (shape : Between o l r whole) : (Operand.expr l).combine o (.expr r) line = .ok (.expr whole) := by
  cases shape with
  | binary op => cases op <;> rfl
  | _ => rfl

theorem Between.binding (shape : Between o l r whole) : whole.binding = some o.precedence := by cases shape <;> rfl

section

variable (shape : InFront o p x whole)

include shape

theorem InFront.known : isForeign o false = false := by cases shape <;> rfl

theorem InFront.strength : o.unaryPrecedence? = some p := by cases shape <;> rfl

theorem InFront.apply : o.applyUnary x = whole := by
  cases shape with
  | neg apart =>
    cases x with
    | int | float => exact absurd rfl apart
    | _ => rfl
  | _ => rfl

theorem InFront.binding : whole.binding = some p := by cases shape <;> rfl

end

-- Reading what is written

def ReadsBelow (spare : Bool) (n : Nat) : Prop :=
  ∀ {e ts}, Written spare e ts → Token.depths ts < n → ∀ line, within n ts line = .ok e

mutual

theorem Written.reads {n} (below : ReadsBelow spare n) {e ts} : Written spare e ts → Token.depths ts ≤ n →
      ∃ t, Reads (within n) line ts t (.expr e) ∧ t.binding = e.binding
  | .name ordinary _, _ => ⟨_,.token rfl (operand_name ordinary _),rfl⟩
  | .str _ _, _ => ⟨_,.token rfl rfl,rfl⟩
  | .int sign _, _ => ⟨_,.token rfl (operand_number sign _),rfl⟩
  | @Written.between _ o l r _ ls rs shape left here right, shallow => by
    rw [Token.depths_append,Token.depths] at shallow
    obtain ⟨lt,leftReads,leftBinding⟩ := left.reads below (by omega)
    obtain ⟨rt,rightReads,rightBinding⟩ := right.reads below (by omega)
    rw [o.rightAssoc_eq] at leftBinding rightBinding
    refine ⟨.binary o lt rt,leftReads.between shape.known _ rightReads ?_ ?_ shape.combine,shape.binding.symm⟩
    · intro q bound
      obtain ⟨bare,bound⟩ := leftBinding q bound
      exact leads_of_bare bare bound
    · intro q bound
      obtain ⟨bare,bound⟩ := rightBinding q bound
      exact not_leads_of_bare bare bound
  | @Written.inFront _ o p x _ ts shape here operand, shallow => by
    rw [Token.depths] at shallow
    obtain ⟨t,reads,binding⟩ := operand.reads below (by omega)
    have strength : o.unaryPrecedence = p := by rw [Op.unaryPrecedence,shape.strength]; rfl
    rw [← o.fromRight_unaryPrecedence,strength] at binding
    have front := reads.inFront shape.known (by rw [shape.strength]; rfl) { line := here } fun q bound => by
      obtain ⟨bare,bound⟩ := binding q bound
      exact strength ▸ not_leads_of_bare bare bound
    rw [shape.apply] at front
    exact ⟨_,front,by rw [Tree.binding,strength,shape.binding]⟩
  | @Written.ternary _ condition yes no cs ys ns before here middle there behind, shallow => by
    simp only [Token.depths_append,Token.depths,← Nat.max_assoc] at shallow
    obtain ⟨yt,yesReads,yesBinding⟩ := before.reads below (by omega)
    obtain ⟨ct,conditionReads,conditionBinding⟩ := middle.reads below (by omega)
    obtain ⟨nt,noReads,noBinding⟩ := behind.reads below (by omega)
    -- The condition and the last arm wait for their `if` as one operand.
    have arms : Reads (within n) line (cs ++ .op .otherwise false { line := there } :: ns)
        (.binary .otherwise ct nt) (.arms condition no) := by
      refine conditionReads.between rfl _ noReads ?_ ?_ rfl
      · intro q bound
        obtain ⟨bare,bound⟩ := conditionBinding q bound
        exact leads_of_bare bare bound
      · intro q bound
        obtain ⟨bare,bound⟩ := noBinding q bound
        exact not_leads_of_bare bare bound
    refine ⟨_,yesReads.between rfl { line := here } arms ?_ ?_ rfl,rfl⟩
    · intro q bound
      obtain ⟨bare,bound⟩ := yesBinding q bound
      exact leads_of_bare bare bound
    · rintro q ⟨⟩ (less | ⟨_,left⟩)
      · exact Nat.lt_irrefl _ less
      · contradiction

theorem Part.reads {n} (below : ReadsBelow spare n) {needed e}
    {ts} : Part spare needed e ts → Token.depths ts ≤ n →
      ∃ t, Reads (within n) line ts t (.expr e) ∧ ∀ q ∈ t.binding, needed = false ∧ q ∈ e.binding
  | .bare written, shallow => by
    obtain ⟨t,reads,binding⟩ := written.reads below shallow
    exact ⟨t,reads,fun q bound => ⟨rfl,binding ▸ bound⟩⟩
  | .group _ written here, shallow => by
    rw [Token.depths,Token.depth] at shallow
    have read := below written (by omega)
    exact ⟨_,.token rfl (operand_group written.quiet read _),by simp [Tree.binding]⟩

end

theorem within_written (spare : Bool) (n : Nat) : ReadsBelow spare n := by
  induction n with
  | zero =>
    intro e ts _ shallow
    contradiction
  | succ n ih =>
    intro e ts written shallow line
    refine Reads.level fun line => ?_
    obtain ⟨t,reads,_⟩ := @Written.reads line spare n ih e ts written (Nat.le_of_lt_succ shallow)
    exact ⟨t,reads⟩

end Expr

-- A plain expression can be written without brackets to spare, and however it is written, with
-- such brackets or not, it is read back.
theorem expression_written (e : Expr) (plain : e.Plain) :
    (∃ ts, e.Written false ts) ∧
      ∀ spare ts, e.Written spare ts → ∀ line, Run.expression ts line = .ok e := by
  refine ⟨plain.written, ?_⟩
  intro spare ts written line
  exact Expr.within_written spare _ written (Nat.lt_succ_self _) line

-- `a - (b - c) if not a in b else -c`, over two lines
def choice : Expr := .ternary (.not (.membership false (.name "a") (.name "b")))
    (.binary .sub (.name "a") (.binary .sub (.name "b") (.name "c"))) (.unary .neg (.name "c"))

def choiceRun : List Token := [.name "a" ⟨1,false⟩,.op .sub false ⟨1,false⟩,
    .group .paren [.name "b" ⟨1,false⟩,.op .sub false ⟨1,false⟩,.name "c" ⟨1,false⟩] ⟨1,false⟩,
    .op .when false ⟨1,false⟩,.op .not false ⟨1,false⟩,.name "a" ⟨1,false⟩,
    .op .within false ⟨1,false⟩,.name "b" ⟨1,false⟩,.op .otherwise false ⟨2,false⟩,
    .op .sub false ⟨2,false⟩,.name "c" ⟨2,false⟩]

theorem choice_written : choice.Written false choiceRun := by
  have a : Written false (.name "a") [.name "a" ⟨1,false⟩] := .name (by decide) 1
  have b : Written false (.name "b") [.name "b" ⟨1,false⟩] := .name (by decide) 1
  have c (line : Nat) : Written false (.name "c") [.name "c" ⟨line,false⟩] := .name (by decide) line
  have difference := @Expr.Written.between false .sub (.name "b") (.name "c") _ _ _ (.binary .sub) (.bare b) 1 (.bare (c 1))
  have before := @Expr.Written.between false .sub (.name "a") (.binary .sub (.name "b") (.name "c"))
    _ _ _ (.binary .sub) (.bare a) 1 (.group rfl difference 1)
  have mem := @Expr.Written.between false .within (.name "a") (.name "b") _ _ _ .within (.bare a) 1 (.bare b)
  have middle := @Expr.Written.inFront false .not .logicalNot (.membership false (.name "a") (.name "b")) _ _ .not 1 (.bare mem)
  have behind := @Expr.Written.inFront false .sub .unary (.name "c") _ _ (.neg (by simp)) 2 (.bare (c 2))
  exact @Expr.Written.ternary false (.not (.membership false (.name "a") (.name "b")))
    (.binary .sub (.name "a") (.binary .sub (.name "b") (.name "c"))) (.unary .neg (.name "c")) _ _ _
    (.bare before) 1 (.bare middle) 2 (.bare behind)

theorem choice_plain : choice.Plain := by simp [choice,Plain,reserved]

theorem expression_written_choice :
    choice.Plain ∧ choice.Written false choiceRun ∧ Run.expression choiceRun 1 = .ok choice :=
  ⟨choice_plain, choice_written, (expression_written choice choice_plain).2 false _ choice_written 1⟩

end EmbedScript
