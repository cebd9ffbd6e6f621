import EmbedScript.Proofs.Datum.Lexing
import EmbedScript.Proofs.Syntax.Run
import EmbedScript.Syntax.Program

/-!
The tokens of a tree parse to its expression, at every level of brackets.
-/

namespace EmbedScript

open List Run

namespace Datum

mutual

def expr : Datum → Expr
  | .none => .none
  | .bool b => .bool b
  | .int n => .int n
  | .str text => .str text
  | .list ds => .list (exprs ds)
  | .tuple ds => .tuple (exprs ds)
  | .set ds => if ds.isEmpty then .call (.name "set") [] else .set (exprs ds)
  | .dict es => .dict (exprsOf es)

def exprs : List Datum → List Expr
  | [] => []
  | d :: ds => d.expr :: exprs ds

def exprsOf : List Binding → List DictEntry
  | [] => []
  | .mk k v :: es => .pair k.expr v.expr :: exprsOf es

end

def segments (line : Nat) (trail : Bool) : List Datum → List (List Token)
  | [] => []
  | d :: ds => d.tokens line (trail || !ds.isEmpty) :: segments line trail ds

def segmentsOf (line : Nat) : List Binding → List (List Token)
  | [] => []
  | .mk k v :: es => (k.tokens line false ++ .op .colon false ⟨line,false⟩ :: v.tokens line (!es.isEmpty)) :: segmentsOf line es

section Runs

variable (line : Nat)

theorem tokens_ne_nil (comma : Bool) (d : Datum) : d.tokens line comma ≠ [] := by
  obtain ⟨before,last,ends,_⟩ := tokens_shape line d
  simp [ends]

theorem tokens_plain (d : Datum) : ∀ t ∈ d.tokens line false, t.comma = false := by
  obtain ⟨before,last,ends,plain,_⟩ := tokens_shape line d
  rw [ends]
  intro t mem
  rcases mem_append.mp mem with mem | mem
  · exact plain t mem
  · rw [mem_singleton.mp mem,Token.comma_withSpot]

theorem tokens_operator (comma : Bool) (d : Datum) (mem : t ∈ d.tokens line comma) :
    t.isOperator = false ∨ ∃ spot, t = .op .sub false spot := by
  obtain ⟨before,last,ends,_,minus⟩ := tokens_shape line d
  rw [ends] at mem
  rcases mem_append.mp mem with mem | mem
  · exact minus t (.tail _ mem)
  · rw [mem_singleton.mp mem]
    rcases minus last (.head _) with plain | ⟨spot,rfl⟩
    · exact .inl (by cases last <;> first | rfl | contradiction)
    · exact .inr ⟨_,rfl⟩

theorem hasOp_tokens (other : o ≠ .sub) (comma : Bool) (d : Datum) : Token.hasOp o (d.tokens line comma) = false := by
  rw [Token.hasOp,any_eq_false]
  intro t mem found
  rcases tokens_operator line comma d mem with plain | ⟨spot,rfl⟩
  · cases t <;> contradiction
  · have same : Op.sub = o := by simpa [Token.isOp] using found
    exact other same.symm

theorem isAssignment_tokens (comma : Bool) (d : Datum) (mem : t ∈ d.tokens line comma) : t.isAssignment = false := by
  rcases tokens_operator line comma d mem with plain | ⟨spot,rfl⟩
  · cases t <;> first | rfl | contradiction
  · rfl

theorem unpacks_tokens (comma : Bool) (d : Datum) (rest : List Token) : unpacks (d.tokens line comma ++ rest) = false := by
  have plain := hasOp_tokens line (o := .pow) (by decide) comma d
  cases tokens : d.tokens line comma with
  | nil => exact absurd tokens (tokens_ne_nil line comma d)
  | cons t ts =>
    rw [tokens] at plain
    simpa [unpacks] using (any_eq_false.mp plain) t (.head _)

theorem hasOp_all (other : o ≠ .sub) (trail : Bool) (ds : List Datum) : Token.hasOp o (tokensAll line trail ds) = false := by
  induction ds with
  | nil => rfl
  | cons d ds ih => simp [tokensAll,Token.hasOp_append,hasOp_tokens line other,ih]

theorem hasOp_of (other : o ≠ .sub) (outside : o ≠ .colon) (es : List Binding) : Token.hasOp o (tokensOf line es) = false := by
  induction es with
  | nil => rfl
  | cons b es ih =>
    obtain ⟨k,v⟩ := b
    have colon : Token.isOp o (.op .colon false ⟨line,false⟩) = false := by simpa [Token.isOp] using outside.symm
    simp only [tokensOf,Token.hasOp_append,hasOp_tokens line other,Bool.false_or]
    rw [← singleton_append,Token.hasOp_append,Token.hasOp_append,hasOp_tokens line other,ih]
    simp [Token.hasOp,colon]

theorem splitCommas_tokens (d : Datum) (rest : List Token) : Token.splitCommas (d.tokens line true ++ rest) =
      d.tokens line true :: Token.splitCommas rest := by
  obtain ⟨before,last,ends,plain,_⟩ := tokens_shape line d
  rw [ends,append_assoc]
  exact Token.splitCommas_append plain _ (by simp) rest

theorem length_segments (trail : Bool) (ds : List Datum) : (segments line trail ds).length = ds.length := by
  induction ds with
  | nil => rfl
  | cons d ds ih => simp [segments,ih]

theorem splitCommas_all (trail : Bool) (ds : List Datum) :
    Token.splitCommas (tokensAll line trail ds) = segments line trail ds := by
  induction ds with
  | nil => rfl
  | cons d ds ih =>
    cases flag : trail || !ds.isEmpty with
    | true => simp [tokensAll,segments,flag,splitCommas_tokens,ih]
    | false =>
      obtain ⟨rfl,last⟩ := Bool.or_eq_false_iff.mp flag
      have alone : ds = [] := by simpa using last
      subst alone
      simpa [tokensAll,segments] using Token.splitCommas_plain (tokens_ne_nil line false d) (tokens_plain line d)

theorem splitCommas_of (es : List Binding) : Token.splitCommas (tokensOf line es) = segmentsOf line es := by
  induction es with
  | nil => rfl
  | cons b es ih =>
    obtain ⟨k,v⟩ := b
    have key := tokens_plain line k
    obtain ⟨before,last,ends,plain,_⟩ := tokens_shape line v
    have front : ∀ t ∈ k.tokens line false ++ .op .colon false ⟨line,false⟩ :: before,t.comma = false := by
      intro t mem
      rcases mem_append.mp mem with mem | mem
      · exact key t mem
      rcases mem_cons.mp mem with rfl | mem
      · rfl
      · exact plain t mem
    cases flag : !es.isEmpty with
    | true =>
      have cut := Token.splitCommas_append front (last.withSpot ⟨line,true⟩) (by simp) (tokensOf line es)
      simp only [tokensOf,segmentsOf,flag,ends]
      simpa [ih] using cut
    | false =>
      have alone : es = [] := by simpa using flag
      subst alone
      have whole : ∀ t ∈ k.tokens line false ++ .op .colon false ⟨line,false⟩ :: v.tokens line false, t.comma = false := by
        rw [ends]
        intro t mem
        rw [← cons_append,← append_assoc] at mem
        rcases mem_append.mp mem with mem | mem
        · exact front t mem
        · rw [mem_singleton.mp mem,Token.comma_withSpot]
      simpa [tokensOf,segmentsOf] using Token.splitCommas_plain (by simp) whole

end Runs

section Groups

variable {read : Reader}

theorem depths_item (shallow : Token.depths (tokensAll line trail (d :: ds)) < n) :
    Token.depths (d.tokens line (trail || !ds.isEmpty)) < n ∧ Token.depths (tokensAll line trail ds) < n := by
  rw [tokensAll,Token.depths_append] at shallow
  omega

theorem depths_entry (shallow : Token.depths (tokensOf line (.mk k v :: es)) < n) :
    Token.depths (k.tokens line false) < n ∧ Token.depths (v.tokens line (!es.isEmpty)) < n ∧
      Token.depths (tokensOf line es) < n := by
  rw [tokensOf,Token.depths_append,Token.depths,Token.depths_append] at shallow
  omega

-- The parser of the level inside reads every tree that nests less than `n` deep.
variable (each : ∀ (d : Datum) (comma : Bool) (l : Nat), d.All Writable →
  Token.depths (d.tokens line comma) < n → read (d.tokens line comma) l = .ok d.expr)

include each

theorem mapM_segments (l : Nat) (writable : Each Writable ds)
    (shallow : Token.depths (tokensAll line trail ds) < n) :
    (segments line trail ds).mapM (read · l) = .ok (exprs ds) := by
  induction ds with
  | nil => rfl
  | cons d ds ih =>
    obtain ⟨here,further⟩ := depths_item shallow
    have first := each d (trail || !ds.isEmpty) l writable.1 here
    have remaining := ih writable.2 further
    rw [segments,mapM_cons,first,remaining]
    rfl

theorem dictEntry_pair (l : Nat) {k v : Datum} (ofKey : k.All Writable)
    (ofValue : v.All Writable) (keyShallow : Token.depths (k.tokens line false) < n)
    (valueShallow : Token.depths (v.tokens line comma) < n) :
    dictEntry read l (k.tokens line false ++ .op .colon false ⟨line,false⟩ ::
      v.tokens line comma) = .ok (.pair k.expr v.expr) := by
  have packed := unpacks_tokens line false k (.op .colon false ⟨line,false⟩ :: v.tokens line comma)
  have cut := Token.cutAt?_append (hasOp_tokens line (o := .colon) (by decide) false k)
    (t := .op .colon false ⟨line,false⟩) rfl (v.tokens line comma)
  simp only [dictEntry,packed,cut,each k false _ ofKey keyShallow,each v comma _ ofValue valueShallow]
  rfl

theorem mapM_segmentsOf (l : Nat) (writable : EachOf Writable es)
    (shallow : Token.depths (tokensOf line es) < n) :
    (segmentsOf line es).mapM (dictEntry read l) = .ok (exprsOf es) := by
  match es, writable with
  | [], _ => rfl
  | .mk k v :: es, writable =>
    obtain ⟨ofKey,ofValue,further⟩ := depths_entry shallow
    have first := dictEntry_pair each l writable.1.1 writable.1.2 ofKey ofValue
    have remaining := mapM_segmentsOf l writable.2 further
    rw [segmentsOf,mapM_cons,first,remaining]
    rfl

theorem bracket_list (l : Nat) (writable : Each Writable ds) (shallow : Token.depths (tokensAll line false ds) < n) :
    bracket read (tokensAll line false ds) l = .ok (.list (exprs ds)) := by
  have items := mapM_segments each l writable shallow
  simp only [bracket,hasOp_all line (o := .each) (by decide),splitCommas_all,items]
  rfl

theorem paren_tuple (l : Nat) (writable : Each Writable ds) (shallow : Token.depths (tokensAll line (ds.length = 1) ds) < n) :
    paren read (tokensAll line (ds.length = 1) ds) l = .ok (.tuple (exprs ds)) := by
  have items := mapM_segments each l writable shallow
  have plain := hasOp_all line (o := .each) (by decide) (ds.length = 1) ds
  rw [← splitCommas_all] at items
  cases ds with
  | nil => rfl
  | cons d ds =>
    have written : (tokensAll line ((d :: ds).length = 1) (d :: ds)).isEmpty = false := by simp [tokensAll,tokens_ne_nil line _ d]
    have several : (Token.splitCommas (tokensAll line ((d :: ds).length = 1) (d :: ds))).length =
        1 → Token.endsInComma (tokensAll line ((d :: ds).length = 1) (d :: ds)) = true := by
      rw [splitCommas_all,length_segments]
      intro single
      have alone : ds = [] := by simpa using single
      obtain ⟨before,last,ends,_⟩ := tokens_shape line d
      simp [alone,tokensAll,Token.endsInComma,ends]
    have parts : Token.splitCommas (tokensAll line ((d :: ds).length = 1) (d :: ds)) ≠ [] := by
      rw [splitCommas_all]
      simp [segments]
    simp only [paren,written,plain]
    exact expressions_tuple several parts items

theorem brace_set (l : Nat) (writable : Each Writable (d :: ds))
    (shallow : Token.depths (tokensAll line false (d :: ds)) < n) :
    brace read (tokensAll line false (d :: ds)) l = .ok (.set (exprs (d :: ds))) := by
  have items := mapM_segments each l writable shallow
  have written : (tokensAll line false (d :: ds)).isEmpty = false := by simp [tokensAll,tokens_ne_nil line _ d]
  have plain := Token.cutAt?_none (hasOp_all line (o := .each) (by decide) false (d :: ds))
  have first : (segments line false (d :: ds)).head?.any (fun first => unpacks first || Token.hasOp .colon first) = false := by
    have packed := unpacks_tokens line (false || !ds.isEmpty) d []
    rw [append_nil] at packed
    simp only [segments,head?_cons,Option.any_some,packed,hasOp_tokens line (o := .colon) (by decide),Bool.or_self]
  simp only [brace,written,plain,splitCommas_all,first,items]
  rfl

theorem brace_dict (l : Nat) (writable : EachOf Writable es) (shallow : Token.depths (tokensOf line es) < n) :
    brace read (tokensOf line es) l = .ok (.dict (exprsOf es)) := by
  have entries := mapM_segmentsOf each l writable shallow
  have plain := Token.cutAt?_none (hasOp_of line (o := .each) (by decide) (by decide) es)
  match es with
  | [] => rfl
  | .mk k v :: es =>
    have written : (tokensOf line (.mk k v :: es)).isEmpty = false := by simp [tokensOf]
    have first : (segmentsOf line (.mk k v :: es)).head?.any (fun first => unpacks first || Token.hasOp .colon first) = true := by
      simp [segmentsOf,Token.hasOp,Token.isOp]
    simp only [brace,written,plain,splitCommas_of,first,entries]
    rfl

end Groups

theorem level_token {inner} (plain : t.isOperator = false)
    (read : primary inner t [] = .ok (e,[])) (l : Nat) : level inner [t] l = .ok e := by
  rw [level_span (by simp) (by simpa using plain)]
  simp only [operand,read]
  rfl

theorem level_int {inner} (writable : n ≠ Int64.minValue) (line : Nat)
    (comma : Bool) (l : Nat) : level inner ((int n).tokens line comma) l = .ok (.int n) := by
  have number {line} := @Run.number_repr line _ _ (Word.ofInt?_natAbs writable)
  by_cases sign : n.toInt < 0
  · simp only [tokens,sign,if_true]
    have read : operand inner [.number n.toInt.natAbs.repr ⟨line,comma⟩] line = .ok (.int (Int64.ofInt n.toInt.natAbs)) := by
      simp only [operand,primary,number]
      rfl
    rw [level_minus rfl read]
    simp only [Op.applyUnary,Word.neg_ofInt_natAbs sign]
  · simp only [tokens,sign,if_false]
    have read : primary inner (.number n.toInt.natAbs.repr ⟨line,comma⟩) [] = .ok (.int (Int64.ofInt n.toInt.natAbs),[]) := by
      simp only [primary,number]
      rfl
    rw [level_token rfl read,Word.ofInt_natAbs_nonneg (Int.not_lt.mp sign)]

-- By induction on the levels of brackets that are allowed for.
theorem within_tokens (n : Nat) (d : Datum) (writable : d.All Writable) (line : Nat)
    (comma : Bool) (l : Nat) (shallow : Token.depths (d.tokens line comma) < n) :
    within n (d.tokens line comma) l = .ok d.expr := by
  induction n generalizing d comma l with
  | zero => exact absurd shallow (Nat.not_lt_zero _)
  | succ n ih =>
    have each (d : Datum) (comma : Bool) (l : Nat) (writable : d.All Writable)
        (shallow : Token.depths (d.tokens line comma) < n) :
        within n (d.tokens line comma) l = .ok d.expr := ih d writable comma l shallow
    have inside {shape ts spot}
        (deep : Token.depths [.group shape ts spot] < n + 1) : Token.depths ts < n := by
      simp only [Token.depths,Token.depth] at deep
      omega
    cases d with
    | none => exact level_token rfl rfl l
    | bool b => cases b <;> exact level_token rfl rfl l
    | int m => exact level_int writable line comma l
    | str text => exact level_token rfl rfl l
    | list ds =>
      refine level_token rfl ?_ l
      simp only [primary,bracket_list each _ writable.2 (inside shallow)]
      rfl
    | tuple ds =>
      refine level_token rfl ?_ l
      simp only [primary,paren_tuple each _ writable.2 (inside shallow)]
      rfl
    | set ds =>
      cases ds with
      | nil => exact level_span (by simp [tokens]) (by simp [tokens,Token.isOperator])
      | cons d ds =>
        refine level_token rfl ?_ l
        simp only [primary,brace_set each _ writable.2 (inside shallow)]
        rfl
    | dict es =>
      refine level_token rfl ?_ l
      simp only [primary,brace_dict each _ writable.2 (inside shallow)]
      rfl

end Datum

theorem Program.assignments_plain (plain : ∀ t ∈ ts, t.isAssignment = false) : assignments ts = ([],ts) := by
  induction ts with
  | nil => rfl
  | cons t ts ih =>
    have first := plain t (.head _)
    have remaining := ih fun u mem => plain u (.tail _ mem)
    simp [assignments,first,remaining]

theorem parseLines_expression (written : ts ≠ [])
    (plain : ∀ t ∈ ts, t.comma = false) (unassigned : ∀ t ∈ ts, t.isAssignment = false)
    (undecorated : ts.head?.any (·.isOp .cast) = false) (read : expression ts line = .ok e) :
    parseLines [.mk ⟨line,.none,ts⟩ .none []] = .ok [.mk line (.expr e)] := by
  have value : Program.value expression ts line = .ok e := by
    rw [Program.value,expressions_plain written plain]
    exact read
  have simple : Program.simple expression ts line = .ok (.expr e) := by
    simp only [Program.simple,Program.assignments_plain unassigned,value]
    rfl
  have bare : Program.decorator? ⟨line,.none,ts⟩ = .none := by
    cases ts with
    | nil => rfl
    | cons t ts =>
      have other : t.isOp .cast = false := undecorated
      simp [Program.decorator?,other]
  have statement : Program.statement expression [] (.mk ⟨line,.none,ts⟩ .none []) = .ok (.mk line (.expr e)) := by
    simp only [Program.statement,Program.leaf,simple]
    rfl
  simp only [parseLines,Program.block,Line.head,bare,statement]
  rfl

theorem Datum.parse_text (d : Datum) (writable : d.All Writable) : parse d.text = .ok [.mk 1 (.expr d.expr)] := by
  have read : expression (d.tokens 1 false) 1 = .ok d.expr := d.within_tokens _ writable 1 false 1 (Nat.lt_succ_self _)
  have undecorated : (d.tokens 1 false).head?.any (·.isOp .cast) = false := by
    have plain := hasOp_tokens 1 (o := .cast) (by decide) false d
    cases tokens : d.tokens 1 false with
    | nil => rfl
    | cons t ts =>
      rw [tokens] at plain
      simpa using (any_eq_false.mp plain) t (.head _)
  have block := parseLines_expression (tokens_ne_nil 1 false d) (tokens_plain 1 d)
    (fun t mem => isAssignment_tokens 1 false d mem) undecorated read
  simp only [parse,tokenize_text d writable,block]

end EmbedScript
