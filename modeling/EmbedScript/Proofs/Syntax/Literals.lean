import EmbedScript.Proofs.Syntax.Bounded
import EmbedScript.Proofs.Syntax.Progress
import EmbedScript.Proofs.Token.Attributes

/-!
Number literals. A number that was scanned can be read, and as an integer if no point or exponent
was scanned in it.
-/

namespace EmbedScript

open List Run

namespace Lexeme

def isPoint (c : Char) : Bool := c == '.' || c == 'e' || c == 'E'

theorem isPoint_of_isDigit (digit : Char.isDigit c) : isPoint c = false := by
  simp only [isPoint,Bool.or_eq_false_iff,beq_eq_false_iff_ne]
  refine ⟨⟨?_,?_⟩,?_⟩ <;> rintro rfl <;> contradiction

theorem readNumber_points (float : Bool) (cs : List Char) :
    (readNumber float cs).2.1 = (float || (readNumber float cs).1.any isPoint) := by
  fun_induction readNumber float cs with
  | case2 _ c _ plain _ _ _ read ih =>
    have none : isPoint c = false := by
      rcases (Bool.or_eq_true _ _).mp plain with digit | score
      · exact isPoint_of_isDigit digit
      · rw [eq_of_beq score]
        rfl
    simp_all
  | case4 => grind [isPoint]
  | _ => simp_all [isPoint]

def Read (lexeme : Lexeme) : Prop := ∃ member line c rest, (read member line c rest).1 = lexeme

theorem Read.points (scanned : Read (.number cs float clean)) : (cs.filter (· != '_')).any isPoint = float := by
  obtain ⟨member,line,c,rest,read⟩ := scanned
  have kept : (fun c => c != '_' && isPoint c) = isPoint := by
    funext c
    cases point : isPoint c <;> grind [isPoint]
  unfold Lexeme.read at read
  split at read
  · next single =>
    unfold single? at single
    split at single <;> cases single <;> cases read
  · unfold readWord readLiteral readLambda at read
    repeat' split at read
    all_goals cases read
    next digit _ _ _ found =>
    have points := readNumber_points false rest
    rw [found] at points
    rw [any_filter,kept,any_cons,isPoint_of_isDigit digit]
    exact points.symm

end Lexeme

theorem number_of_isNumber (legal : Scanner.isNumber cs float) (points : cs.any Lexeme.isPoint = float) (line : Nat) :
    ∃ e, number (String.ofList cs) line = .ok e ∧ ((∃ n, e = .int n) ↔ float = false) := by
  simp only [number,String.toList_ofList]
  change cs.any (fun c => c == '.' || c == 'e' || c == 'E') = float at points
  rw [points]
  cases float with
  | true =>
    obtain ⟨value,read⟩ := Option.isSome_iff_exists.mp legal
    exact ⟨_,by rw [if_pos rfl,read],by simp⟩
  | false =>
    obtain ⟨value,read⟩ := Option.isSome_iff_exists.mp legal
    exact ⟨_,by rw [if_neg Bool.false_ne_true,read],by simp⟩

-- Every number in the token comes from a literal that was scanned.
def Token.Counted : Token → Prop
  | .number text _ => ∃ literal float, Lexeme.Read (.number literal float true) ∧
      text = String.ofList (literal.filter (· != '_')) ∧
      ∀ line, ∃ e, Run.number text line = .ok e ∧ ((∃ n, e = .int n) ↔ float = false)
  | .group _ inner _ => ∀ t ∈ inner, t.Counted
  | .name .. | .member .. | .str .. | .op .. => True

attribute [grind =] Token.Counted

theorem Token.counted_withSpot (t : Token) (spot : Spot) : (t.withSpot spot).Counted ↔ t.Counted := by
  cases t <;> simp [withSpot,Counted]

theorem mem_of_intersperse (inside : x ∈ intersperse sep xs) : x = sep ∨ x ∈ xs := by
  fun_induction intersperse sep xs <;> grind

namespace Scanner

variable {s : Scanner} {ts : List Token}

def Counted (s : Scanner) : Prop := (∀ t ∈ s.tokens, t.Counted) ∧ ∀ g ∈ s.groups, ∀ t ∈ g.tokens, t.Counted

theorem Counted.current (counted : s.Counted) : ∀ t ∈ s.current, t.Counted := by
  unfold Scanner.current
  grind [Counted]

theorem Counted.withCurrent (counted : s.Counted) (added : ∀ t ∈ ts, t.Counted) : (s.withCurrent ts).Counted := by
  unfold Scanner.withCurrent
  grind [Counted]

theorem Counted.takeHead (counted : s.Counted) :
    (∀ h ∈ s.takeHead.1.toList, ∀ t ∈ h.tokens, t.Counted) ∧ ∀ line, Counted { s.takeHead.2 with line } := by
  unfold Scanner.takeHead
  grind [Counted]

def Counts (lines : Lexer.Reader) : Prop :=
  ∀ source line tokens, fragment lines source line = .ok tokens → ∀ t ∈ tokens, t.Counted

theorem pieces_counted (inner : Counts lines)
    (read : Forall₂ (fun piece token => pieceToken lines spot piece = .ok token) pieces parts) : ∀ t ∈ parts, t.Counted := by
  induction read with
  | nil => exact nofun
  | @cons piece token _ _ read _ ih =>
    refine forall_mem_cons.mpr ⟨?_,ih⟩
    cases piece with
    | text cs =>
      cases read
      grind
    | splice source line =>
      obtain ⟨tokens,found,⟨⟩⟩ := Except.bind_eq_ok read
      grind [Counts]

theorem Adds.counted (inner : Counts lines) (scanned : lexeme.Read) (adds : Adds lines s lexeme token) (spot : Spot) :
    (token spot).Counted := by
  cases adds with
  | literal read =>
    have parts := pieces_counted inner (Except.forall₂_of_mapM read)
    unfold literalToken
    split <;> grind [mem_of_intersperse]
  | number legal =>
    rw [Token.Counted]
    exact ⟨_,_,scanned,rfl,number_of_isNumber legal scanned.points⟩
  | atom _ plain =>
    have plain := plain spot
    generalize token spot = t at plain
    cases t <;> grind [Token.isAtom]
  | _ => grind

theorem Takes.counted (inner : Counts lines) (scanned : lexeme.Read) (takes : Takes lines s lexeme t)
    (counted : s.Counted) : t.Counted := by
  have before := counted.current
  cases takes with
  | push adds =>
    rw [push_eq]
    exact Counted.withCurrent counted (forall_mem_cons.mpr ⟨adds.counted inner scanned _,before⟩)
  | fuse _ current =>
    rw [current] at before
    exact counted.withCurrent (by grind)
  | @closing _ g outer groups =>
    have outside : Counted { s with groups := outer } := by grind [Counted]
    exact outside.withCurrent (by grind [Counted,outside.current])
  | comma current =>
    rw [current] at before
    exact counted.withCurrent (by grind [Token.counted_withSpot])
  | opening => exact ⟨counted.1,by grind [Counted]⟩
  | _ => exact counted

end Scanner

namespace Lexer

theorem Delivers.counted (inner : Scanner.Counts lines) (delivers : Delivers lines s cs heads) (counted : s.Counted) :
    ∀ h ∈ heads, ∀ t ∈ h.tokens, t.Counted := by
  induction delivers with
  | finish => exact counted.takeHead.1
  | within read within taken _ ih =>
    exact ih ((Scanner.take_takes within taken).counted inner ⟨_,_,_,_,congrArg Prod.fst read⟩ counted)
  | ends _ _ _ _ ih => exact forall_mem_append.mpr ⟨counted.takeHead.1,ih (counted.takeHead.2 _)⟩

theorem tokenizeWithin_counted (inner : Scanner.Counts (tokenizeWithin nesting))
    (accepted : tokenizeWithin (nesting + 1) source first = .ok forest) :
    ∀ l ∈ Line.preorderAll forest, ∀ t ∈ l.head.tokens, t.Counted := by
  obtain ⟨es,line,_,rest,rfl,_,nested,delivers⟩ := tokenizeWithin_complete accepted
  have each := delivers.counted inner ⟨nofun,nofun⟩
  rw [← (Line.forest_nested nested).1] at each
  exact fun l inside => each l.head (mem_map_of_mem inside)

-- By induction on the nesting of formatted strings.
theorem counts (nesting : Nat) : Scanner.Counts (tokenizeWithin nesting) := by
  induction nesting with
  | zero => exact nofun
  | succ nesting ih =>
    intro source line tokens read
    obtain ⟨ls,accepted,made⟩ := Except.bind_eq_ok read
    split at made <;> cases made
    have lines := tokenizeWithin_counted ih accepted
    simp only [Line.preorderAll,Line.preorder,cons_append,forall_mem_cons] at lines
    exact lines.1

end Lexer

theorem Item.Folding.fits (folding : Folding line items run) (fits : ∀ i ∈ items, Item.Fits i) : ∀ i ∈ run, i.Fits := by
  induction folding with
  | refl => exact fits
  | tail _ reduces ih =>
    obtain ⟨i,shorter,reduced,rfl⟩ := reduces
    exact Item.reduce_fits ih reduced

/-- Folding negates no integer whose negation overflows, as the operands of a run and of what it
folds to all lie in the range. -/
theorem number_literals {source : String} {forest : List Line} (accepted : tokenize source = .ok forest) :
    (∀ l ∈ Line.preorderAll forest, ∀ t ∈ l.head.tokens, t.Counted) ∧
    (∀ program, parseLines forest = .ok program → ∀ s ∈ program, s.Fits) ∧
    ∀ depth ts line items run, segment (within depth) line [] [] ts = .ok items → Item.Folding line items run →
      ∀ n, .operand (.expr (.int n)) ∈ run → (-n).toInt = -n.toInt := by
  refine ⟨Lexer.tokenizeWithin_counted (Lexer.counts _) accepted,fun program parsed => ?_,?_⟩
  · exact grants_iff.mp (Program.block_fits (fun ts => within_fits _ ts) forest (by simp)) program parsed
  · intro depth ts line items run cut folding n inside
    have fits := grants_iff.mp (segment_fits (within_fits depth) ts line (by simp) []) items cut
    exact Word.toInt_neg (by simpa [Item.Fits,Operand.Fits,Expr.Fits] using folding.fits fits _ inside)

def negations : String := "x = -(-9223372036854775807) + 1_0e-2"

theorem number_literals_negations : ∃ forest program, tokenize negations = .ok forest ∧ parseLines forest = .ok program ∧
    ∀ s ∈ program, Stmt.Fits s := by
  have legal : ((tokenize negations).toOption.bind fun forest => (parseLines forest).toOption).isSome := by decide +kernel
  cases accepted : tokenize negations with
  | error e => simp [accepted,Except.toOption] at legal
  | ok forest =>
    cases parsed : parseLines forest with
    | error e => simp [accepted,parsed,Except.toOption] at legal
    | ok program => exact ⟨forest,program,rfl,parsed,(number_literals accepted).2.1 program parsed⟩

end EmbedScript
