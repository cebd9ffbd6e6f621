import EmbedScript.Proofs.Format.Template
import EmbedScript.Proofs.Datum.Parsing
import EmbedScript.Proofs.Syntax.Adjacent
import EmbedScript.Proofs.Syntax.Printing

/-!
A formatted literal with names in its fields is read as the sum of its texts and fields.
-/

namespace EmbedScript

open List Field Text

structure IsOrdinary (name : String) : Prop where
  spelled : Scanner.isName name.toList
  literal : name ∉ Expr.reserved
  keyword : Keyword.ofWord? name = none
  operator : name ∉ ["and","or","is","as","not","in","lambda"]

variable {rest : List Char} {fields : List Field}

namespace Text

theorem inRanges_apart {ys} (apart : xs.toList.all fun r => ys.toList.all fun s => r.2 < s.1 || s.2 < r.1)
    (inside : inRanges xs c) : inRanges ys c = false := by
  cases both : inRanges ys c with
  | false => rfl
  | true =>
    rw [inRanges,Array.any_eq_true'] at inside both
    obtain ⟨r,listed,between⟩ := inside
    obtain ⟨s,also,within⟩ := both
    have either := all_eq_true.mp (all_eq_true.mp apart r listed.val) s also.val
    simp only [Bool.and_eq_true,Bool.or_eq_true,decide_eq_true_eq] at between within either
    omega

end Text

namespace Lexeme

theorem of_ascii {p : Char → Bool} (never : (range 128).all fun n => !p (Char.ofNat n))
    (small : c.toNat < 128) : p c = false := by
  have outside := all_eq_true.mp never c.toNat (mem_range.mpr small)
  simpa using outside

theorem ne_of_isWordChar (inside : isWordChar c) (outside : isWordChar d = false) : c ≠ d := by
  rintro rfl
  rw [inside] at outside
  contradiction

theorem beq_of_isWordChar (inside : isWordChar c) (outside : isWordChar d = false) : (c == d) = false :=
  beq_eq_false_iff_ne.mpr (ne_of_isWordChar inside outside)

theorem isDigit_of_isWordStart (start : isWordStart c) : c.isDigit = false := by
  cases digit : c.isDigit with
  | false => rfl
  | true =>
    have last : c.toNat ≤ 57 := of_decide_eq_true (Bool.and_eq_true_iff.mp digit).2
    have small : c.toNat < 128 := by omega
    have never := of_ascii (p := fun c => isWordStart c && c.isDigit) (by decide +kernel) small
    rw [start,digit] at never
    contradiction

-- The letters and numerals of the tables share no code point with the blanks.
theorem isBlank_of_isWordChar (inside : isWordChar c) : Text.isBlank c = false := by
  by_cases small : c.toNat < 128
  · have never := of_ascii (p := fun c => isWordChar c && Text.isBlank c) (by decide +kernel) small
    simpa [inside] using never
  · rw [isWordChar,isLetterOrNumeral,isLetter,isNumeral,if_neg small,if_neg small,
      Bool.or_eq_true,Bool.or_eq_true] at inside
    rcases inside with (letter | numeral) | mark
    · exact Text.inRanges_apart (by decide +kernel) letter
    · exact Text.inRanges_apart (by decide +kernel) numeral
    · rw [eq_of_beq mark] at small
      exact absurd (by decide) small

end Lexeme

namespace Text

theorem trim_kept {drop} (kept : ∀ c ∈ cs, drop c = false) : trim drop cs = cs := by
  have whole {ds : List Char} (kept : ∀ c ∈ ds, drop c = false) : ds.dropWhile drop = ds := by
    cases ds with
    | nil => rfl
    | cons d ds => rw [dropWhile_cons,if_neg (by simp [kept d])]
  have back : ∀ c ∈ cs.reverse, drop c = false := fun c mem => kept c (mem_reverse.mp mem)
  rw [trim,trimStart,trimEnd,whole kept,whole back,reverse_reverse]

theorem lineEnds_kept (absent : '\r' ∉ cs) : lineEnds cs = cs := by rw [← replace_returns,replace_absent absent]

end Text

namespace IsOrdinary

variable {name : String} (ordinary : IsOrdinary name)

include ordinary

theorem chars : ∃ c cs, name.toList = c :: cs ∧ Lexeme.isWordStart c ∧ ∀ d ∈ c :: cs, Lexeme.isWordChar d := by
  have spelled := ordinary.spelled
  rw [Scanner.isName,Bool.and_eq_true] at spelled
  cases chars : name.toList with
  | nil => simp [chars] at spelled
  | cons c cs =>
    rw [chars] at spelled
    exact ⟨c,cs,rfl,spelled.1,all_eq_true.mp spelled.2⟩

theorem isWordChar (mem : c ∈ name.toList) : Lexeme.isWordChar c := by
  obtain ⟨d,cs,spelled,-,inside⟩ := ordinary.chars
  exact inside c (spelled ▸ mem)

theorem word {s : Scanner} (free : s.member = false) : s.word name = .ok (s.push (.name name)) := by
  have operator := ordinary.operator
  unfold Scanner.word
  rw [if_neg (by simp [free])]
  split
  case h_7 =>
    rw [ordinary.keyword]
    simp only [Scanner.pushName,free]
    rfl
  all_goals simp_all

theorem tokenizeWithin (nesting line : Nat) : Lexer.tokenizeWithin (nesting + 1) name.toList line =
      .ok [.mk ⟨line,none,[.name name ⟨line,false⟩]⟩ none []] := by
  obtain ⟨c,cs,spelled,start,inside⟩ := ordinary.chars
  have number := Lexeme.isDigit_of_isWordStart start
  have more : ∀ d ∈ cs, Lexeme.isWordChar d := fun d mem => inside d (.tail _ mem)
  have first : Lexeme.isWordChar c := inside c (.head _)
  have other : (c :: cs == "lambda".toList) = false := by
    rw [← spelled,beq_eq_false_iff_ne]
    intro same
    exact ordinary.operator (by simp [String.toList_inj.mp same])
  have read := Reads.word false spelled start more number other fun _ => ordinary.word
  have ended := read (Lexer.tokenizeWithin nesting) (Scanner.start line) [] ⟨rfl,rfl⟩ (by simp) .nil
  have kept : lineEnds (c :: cs) = c :: cs := by
    refine lineEnds_kept fun mem => ?_
    exact Lexeme.ne_of_isWordChar (inside _ mem) (by decide) rfl
  have visible : Lexer.isPassed c = false := by
    simp (disch := decide) only [Lexer.isPassed,Lexeme.beq_of_isWordChar first,Bool.or_self]
  have entered : (Scanner.start line).enterLine [] = .ok (Scanner.start line) := rfl
  rw [append_nil,Lexer.entries.eq_1,spelled] at ended
  rw [Lexer.tokenizeWithin_succ,spelled,kept,Lexer.resume,Lexer.indentation_visible visible]
  simp only [reverse_nil,entered,bind,Except.bind,ended]
  rfl

theorem pieceToken (nesting : Nat) (spot : Spot) (line : Nat) :
    Scanner.pieceToken (Lexer.tokenizeWithin (nesting + 1)) spot (.splice name.toList line) =
      .ok (.group .splice [.name name ⟨line,false⟩] spot) := by
  have whole : trim isBlank name.toList = name.toList :=
    trim_kept fun c mem => Lexeme.isBlank_of_isWordChar (ordinary.isWordChar mem)
  simp only [Scanner.pieceToken,Scanner.fragment,whole,ordinary.tokenizeWithin,bind,Except.bind]
  rfl

end IsOrdinary

-- Characters of a formatted literal

namespace Field

def writtenChar (quote c : Char) : List Char :=
  if isBrace c then [c,c] else quotedChar quote c

def writtenFields (quote : Char) (fields : List Field) : List Char :=
  fields.flatMap fun f => '\x7b' :: (f.name.toList ++ '\x7d' :: f.text.toList.flatMap (writtenChar quote))

def literal (quote : Char) (first : String) (fields : List Field) : List Char :=
  'f' :: quote :: (first.toList.flatMap (writtenChar quote) ++ writtenFields quote fields ++ [quote])

def parts (line : Nat) (f : Field) : List Piece := [.splice f.name.toList line,.text f.text.toList]

end Field

namespace Lexeme

section Formatted

variable (mark : quote = '\'' ∨ quote = '"') (start line : Nat) (text : List Char) (pieces : List Piece)

theorem readString_more {next r}
    (step : stringStep q r cs = .more next rest) : readString q r cs = readString q next rest := by
  rw [readString_eq,step]

include mark

theorem readString_writtenChar (c : Char) (rest : List Char) :
    readString ⟨quote,false,true,false,start⟩ { line, text, pieces } (Field.writtenChar quote c ++ rest) =
      readString ⟨quote,false,true,false,start⟩ { line, text := c :: text, pieces } rest := by
  unfold Field.writtenChar
  split
  next brace =>
    refine readString_more ?_
    simp only [Text.isBrace,Bool.or_eq_true,beq_iff_eq] at brace
    have inside : c ≠ quote := by
      rintro rfl
      rcases mark with rfl | rfl <;> simp at brace
    rcases brace with rfl | rfl <;> simp [stringStep,inside,Reading.add]
  next other =>
    simp only [Text.isBrace,Bool.or_eq_true,beq_iff_eq,not_or] at other
    exact readString_quotedChar mark line text c (fun _ => other) rest

theorem readString_written (cs rest : List Char) : readString ⟨quote,false,true,false,start⟩ { line, text, pieces }
        (cs.flatMap (Field.writtenChar quote) ++ rest) =
      readString ⟨quote,false,true,false,start⟩ { line, text := cs.reverse ++ text, pieces } rest := by
  induction cs generalizing text with
  | nil => rfl
  | cons c cs ih =>
    rw [List.flatMap_cons,List.append_assoc,readString_writtenChar mark,ih]
    simp

omit mark in
theorem readString_name (source : List Char) {name : List Char} (inside : ∀ c ∈ name, isWordChar c) (rest : List Char) :
    readString ⟨quote,false,true,false,start⟩ ⟨line,text,pieces,some ⟨source,line,0,none⟩⟩ (name ++ '\x7d' :: rest) =
      readString ⟨quote,false,true,false,start⟩
        { line, pieces := .splice (source.reverse ++ name) line :: .text text.reverse :: pieces } rest := by
  induction name generalizing source with
  | nil => exact (readString_more rfl).trans (by rw [List.append_nil])
  | cons c name ih =>
    have apart {d : Char} := beq_of_isWordChar (d := d) (inside c (.head _))
    have taken (next : Option Char) : Splice.add ⟨quote,false,true,false,start⟩ ⟨source,line,0,none⟩ c next =
          .ok ⟨c :: source,line,0,none⟩ := by
      simp (disch := decide) only [Splice.add,apart]
      rfl
    have step : stringStep ⟨quote,false,true,false,start⟩
        ⟨line,text,pieces,some ⟨source,line,0,none⟩⟩ (c :: (name ++ '\x7d' :: rest)) =
          .more ⟨line,text,pieces,some ⟨c :: source,line,0,none⟩⟩ (name ++ '\x7d' :: rest) := by
      simp (disch := decide) only [stringStep,apart,taken]
      rfl
    rw [List.cons_append,readString_more step,ih (c :: source) fun d mem => inside d (.tail _ mem)]
    simp

theorem readString_fields (named : ∀ f ∈ fields, IsOrdinary f.name) (rest : List Char) :
    readString ⟨quote,false,true,false,start⟩ { line, text, pieces } (writtenFields quote fields ++ quote :: rest) =
      (pieces.reverse ++ .text text.reverse :: fields.flatMap (parts line),.ok line,rest) := by
  induction fields generalizing text pieces with
  | nil =>
    rw [readString_eq]
    simp [writtenFields,stringStep,Reading.close]
  | cons f fields ih =>
    have ordinary := named f (.head _)
    obtain ⟨c,cs,spelled,start',inside⟩ := ordinary.chars
    have opening : '\x7b' ≠ quote := by rcases mark with rfl | rfl <;> decide
    have first : c ≠ '\x7b' := ne_of_isWordChar (inside c (.head _)) (by decide)
    have opened (rest : List Char) : stringStep ⟨quote,false,true,false,start⟩ { line, text, pieces }
        ('\x7b' :: (f.name.toList ++ rest)) = .more ⟨line,text,pieces,some ⟨[],line,0,none⟩⟩ (f.name.toList ++ rest) := by
      simp [stringStep,opening,spelled,first]
    have shape : writtenFields quote (f :: fields) ++ quote :: rest =
        '\x7b' :: (f.name.toList ++ '\x7d' :: (f.text.toList.flatMap (writtenChar quote) ++
          (writtenFields quote fields ++ quote :: rest))) := by
      simp [writtenFields]
    rw [shape,readString_more (opened _),readString_name start line text pieces [] (fun _ => ordinary.isWordChar),
      readString_written mark,ih _ _ fun g mem => named g (.tail _ mem)]
    simp [parts]

theorem read_formatted (first : String) (named : ∀ f ∈ fields, IsOrdinary f.name) (ended : rest.head? ≠ some quote) :
    read false line 'f' (quote :: (first.toList.flatMap (writtenChar quote) ++ writtenFields quote fields ++ [quote]) ++ rest) =
      (.str (.text first.toList :: fields.flatMap (parts line)) (.ok line),rest) := by
  have shape : first.toList.flatMap (writtenChar quote) ++ writtenFields quote fields ++ [quote] ++ rest =
      first.toList.flatMap (writtenChar quote) ++ (writtenFields quote fields ++ quote :: rest) := by
    simp
  -- Two quotes here would open a longer literal; only one without texts and fields has one here.
  have short : ((first.toList.flatMap (writtenChar quote) ++
      (writtenFields quote fields ++ quote :: rest)).take 2 == [quote,quote]) = false := by
    have other {c} (different : c ≠ quote) (cs : List Char) :
        ((c :: cs).take 2 == [quote,quote]) = false := by simp [different]
    cases first.toList with
    | cons c cs =>
      obtain ⟨d,more,spelled,different⟩ : ∃ d more, writtenChar quote c = d :: more ∧ d ≠ quote := by
        unfold writtenChar
        split
        next brace =>
          refine ⟨c,[c],rfl,?_⟩
          rintro rfl
          rcases mark with rfl | rfl <;> contradiction
        next => exact quotedChar_head mark c
      rw [flatMap_cons,spelled,cons_append]
      exact other different _
    | nil =>
      cases fields with
      | cons f fields => exact other (by rcases mark with rfl | rfl <;> decide) _
      | nil =>
        cases rest with
        | nil => simp [writtenFields]
        | cons c rest =>
          have different : c ≠ quote := by simpa using ended
          simp [writtenFields,different]
  have outside : isWordChar quote = false := by rcases mark with rfl | rfl <;> decide
  have quotes : (quote == '"' || quote == '\'') = true := by rcases mark with rfl | rfl <;> rfl
  have body := readString_fields mark line line first.toList.reverse [] named rest
  have whole := readString_written mark line line [] [] first.toList (Field.writtenFields quote fields ++ quote :: rest)
  rw [List.append_nil,body] at whole
  rw [read_start false line (by decide) (by decide),List.cons_append,shape,List.takeWhile_cons,List.dropWhile_cons,outside,readWord.eq_def]
  simp only [Bool.false_eq_true,if_false]
  rw [if_neg (by decide)]
  simp only [stringMark?,List.map_cons,List.map_nil,Char.reduceToLower,quotes,if_true]
  rw [readLiteral_eq,short,if_neg (by simp),literal,whole]
  simp

end Formatted

end Lexeme

-- The token of a formatted literal

namespace Field

def tokens (spot : Spot) (f : Field) : List Token := [.group .splice [.name f.name spot] spot,.str f.text spot]

def summands (spot : Spot) (f : Field) : List Token :=
  [.op .add false spot,.group .splice [.name f.name spot] spot,.op .add false spot,.str f.text spot]

def token (first : String) (fields : List Field) (spot : Spot) : Token :=
  if fields.isEmpty then .str first spot
  else .group .paren (.str first spot :: fields.flatMap (summands spot)) spot

def sum (first : String) (fields : List Field) : Expr :=
  fields.foldl (fun e f => .binary .add (.binary .add e (.format (.name f.name))) (.str f.text)) (.str first)

theorem mapM_parts (nesting line : Nat) (named : ∀ f ∈ fields, IsOrdinary f.name) : (fields.flatMap (parts line)).mapM
        (Scanner.pieceToken (Lexer.tokenizeWithin (nesting + 1)) ⟨line,false⟩) =
      .ok (fields.flatMap (tokens ⟨line,false⟩)) := by
  induction fields with
  | nil => rfl
  | cons f fields ih =>
    have first := (named f (.head _)).pieceToken nesting ⟨line,false⟩ line
    have rest := ih fun g mem => named g (.tail _ mem)
    rw [flatMap_cons,parts,cons_append,cons_append,nil_append,mapM_cons,first,mapM_cons,rest]
    simp only [Scanner.pieceToken,String.ofList_toList]
    rfl

theorem literalToken_parts (line : Nat) (first : String) (fields : List Field) :
    Scanner.literalToken line (.str first ⟨line,false⟩ :: fields.flatMap (tokens ⟨line,false⟩)) ⟨line,false⟩ =
      token first fields ⟨line,false⟩ := by
  have sums (t : Token) : (t :: fields.flatMap (tokens ⟨line,false⟩)).intersperse (.op .add false ⟨line,false⟩) =
      t :: fields.flatMap (summands ⟨line,false⟩) := by
    induction fields generalizing t with
    | nil => rfl
    | cons f fields ih =>
      rw [flatMap_cons,tokens,cons_append,cons_append,nil_append]
      simp only [intersperse_cons_cons,ih]
      rfl
  cases fields with
  | nil => rfl
  | cons f fields => exact congrArg (Token.group .paren · ⟨line,false⟩) (sums _)

theorem entries_literal (mark : quote = '\'' ∨ quote = '"') (first : String)
    (named : ∀ f ∈ fields, IsOrdinary f.name) (nesting : Nat) {s} (steady : s.Steady)
    (ended : rest.head? ≠ some quote) :
    Lexer.entries (Lexer.tokenizeWithin (nesting + 1)) s (literal quote first fields ++ rest) =
      Lexer.entries (Lexer.tokenizeWithin (nesting + 1)) (s.put [token first fields ⟨s.line,false⟩]) rest := by
  have read := Lexeme.read_formatted mark s.line first named ended
  rw [← steady.free] at read
  refine Lexer.entries_cons read ?_ rfl
  have tokens : (Piece.text first.toList :: fields.flatMap (parts s.line)).mapM
      (Scanner.pieceToken (Lexer.tokenizeWithin (nesting + 1)) ⟨s.line,false⟩) =
        .ok (.str first ⟨s.line,false⟩ :: fields.flatMap fun f =>
          [.group .splice [.name f.name ⟨s.line,false⟩] ⟨s.line,false⟩,.str f.text ⟨s.line,false⟩]) := by
    rw [List.mapM_cons,mapM_parts nesting s.line named]
    simp only [Scanner.pieceToken,String.ofList_toList]
    rfl
  rw [Scanner.take,Scanner.string_eq,tokens,← literalToken_parts]
  exact congrArg Except.ok (steady.push _)

-- The expression

section Parsing

theorem reads_summands {inner}
    (read : ∀ f ∈ fields, ∀ line, inner [.name f.name ⟨here,false⟩] line = .ok (.name f.name)) {ts}
    (before : Run.Reads inner line ts t (.expr e))
    (bound : ∀ q ∈ t.binding, q.leads Op.add.precedence) :
    ∃ t, Run.Reads inner line (ts ++ fields.flatMap (summands ⟨here,false⟩)) t (.expr (fields.foldl
      (fun e f => .binary .add (.binary .add e (.format (.name f.name))) (.str f.text)) e)) := by
  induction fields generalizing ts t e with
  | nil => exact ⟨t,by simpa using before⟩
  | cons f fields ih =>
    have field : Run.operand inner [.group .splice [.name f.name ⟨here,false⟩] ⟨here,false⟩] line =
        .ok (.format (.name f.name)) := by
      have plain : Run.expressions inner [.name f.name ⟨here,false⟩] here = .ok (.name f.name) :=
        (Run.expressions_plain (by simp) (by simp [Token.comma,Token.spot])).trans (read f (.head _) here)
      simp only [Run.operand,Run.primary,Token.line,Token.spot,plain]
      rfl
    have text : Run.operand inner [.str f.text ⟨here,false⟩] line = .ok (.str f.text) := rfl
    have again : ∀ q ∈ some Op.add.precedence, q.leads Op.add.precedence := by
      rintro _ ⟨⟩
      exact .inr ⟨rfl,rfl⟩
    have left := Run.Reads.between rfl before ⟨here,false⟩ (.token rfl field) bound (by simp [Tree.binding]) rfl
    have whole := Run.Reads.between rfl left ⟨here,false⟩ (.token rfl text) again (by simp [Tree.binding]) rfl
    obtain ⟨t,reads⟩ := ih (fun g mem => read g (.tail _ mem)) whole again
    refine ⟨t,?_⟩
    simpa [summands] using reads

theorem quiet_summands (first : String) (fields : List Field) (here : Nat) :
    Expr.Quiet (.str first ⟨here,false⟩ :: fields.flatMap (summands ⟨here,false⟩)) := by
  refine ⟨by simp,fun t mem => ?_⟩
  rcases mem_cons.mp mem with rfl | mem
  · exact ⟨rfl,rfl⟩
  · obtain ⟨f,-,mem⟩ := mem_flatMap.mp mem
    simp only [summands,mem_cons,not_mem_nil,or_false] at mem
    rcases mem with rfl | rfl | rfl | rfl <;> exact ⟨rfl,rfl⟩

theorem operand_token (first : String) (named : ∀ f ∈ fields, IsOrdinary f.name) (depth here : Nat) :
    Run.operand (Run.within (depth + 2)) [token first fields ⟨here,false⟩] line = .ok (sum first fields) := by
  unfold token
  split
  next alone =>
    obtain rfl : fields = [] := by simpa using alone
    rfl
  next =>
    refine Run.operand_group (quiet_summands first fields here) (fun line => Run.Reads.level fun line => ?_) _
    have read : ∀ f ∈ fields, ∀ line,Run.within (depth + 1) [.name f.name ⟨here,false⟩] line = .ok (.name f.name) := by
      intro f mem line
      have ordinary := (named f mem).literal
      rw [Run.within,Run.level_span (by simp) (by simp [Token.isOperator])]
      exact Run.operand_name ordinary _
    have text : Run.operand (Run.within (depth + 1)) [.str first ⟨here,false⟩] line = .ok (.str first) := rfl
    exact reads_summands read (Run.Reads.token rfl text) (by simp [Tree.binding])

theorem expression_token (first : String) (named : ∀ f ∈ fields, IsOrdinary f.name)
    (here : Nat) : Run.expression [token first fields ⟨here,false⟩] line = .ok (sum first fields) := by
  have plain : (token first fields ⟨here,false⟩).isOperator = false := by
    unfold token
    split <;> rfl
  rw [Run.expression,Run.within,Run.level_span (by simp) (by simpa using plain)]
  cases fields with
  | nil => rfl
  | cons f fields =>
    obtain ⟨depth,deep⟩ : ∃ depth, Token.depths [token first (f :: fields) ⟨here,false⟩] = depth + 2 := by
      refine Nat.exists_eq_add_of_le' ?_
      simp only [token,isEmpty_cons,flatMap_cons,summands,cons_append,Token.depths,Token.depth,Bool.false_eq_true,if_false]
      omega
    rw [deep]
    exact operand_token first named depth here

end Parsing

theorem literal_no_return (mark : quote = '\'' ∨ quote = '"') (first : String)
    (named : ∀ f ∈ fields, IsOrdinary f.name) : '\r' ∉ literal quote first fields := by
  have char (c : Char) : '\r' ∉ writtenChar quote c := by
    unfold writtenChar
    split
    next brace =>
      intro mem
      obtain rfl : '\r' = c := by simpa using mem
      contradiction
    next => exact Text.quotedChar_no_return quote c
  have written (cs : List Char) : '\r' ∉ cs.flatMap (writtenChar quote) := by simp [char]
  have quotes : '\r' ≠ quote := by rcases mark with rfl | rfl <;> decide
  have name {f} (mem : f ∈ fields) : '\r' ∉ f.name.toList := fun inside =>
    Lexeme.ne_of_isWordChar ((named f mem).isWordChar inside) (by decide) rfl
  have between : '\r' ∉ writtenFields quote fields := by
    intro mem
    obtain ⟨f,field,mem⟩ := List.mem_flatMap.mp mem
    simp [name field,written] at mem
  simp [literal,quotes,written,between]

theorem parse_literal (mark : quote = '\'' ∨ quote = '"') (first : String)
    (named : ∀ f ∈ fields, IsOrdinary f.name) :
    parse (String.ofList (literal quote first fields)) = .ok [.mk 1 (.expr (sum first fields))] := by
  have ended : Lexer.entries (Lexer.tokenizeWithin (literal quote first fields).length) (Scanner.start 1)
      (literal quote first fields) = .ok [⟨⟨1,none,[token first fields ⟨1,false⟩]⟩,0,false,false⟩] := by
    have read := @entries_literal [] fields quote mark first named (literal quote first fields).tail.length
      (.start 1) ⟨rfl,rfl⟩ (by simp)
    rw [append_nil,Lexer.entries] at read
    exact read.trans (Scanner.finish_put 1 (by simp))
  have entered : (Scanner.start 1).enterLine [] = .ok (Scanner.start 1) := rfl
  have start : Lexer.indentation false 1 [] (literal quote first fields) =
      (1,some [],literal quote first fields) := Lexer.indentation_visible rfl ..
  have lines : tokenize (String.ofList (literal quote first fields)) =
      .ok [.mk ⟨1,none,[token first fields ⟨1,false⟩]⟩ none []] := by
    rw [tokenize,String.toList_ofList,Lexer.tokenizeWithin_succ,
      lineEnds_kept (literal_no_return mark first named),Lexer.resume,start]
    simp only [entered,bind,Except.bind,ended]
    rfl
  have shape : (token first fields ⟨1,false⟩).comma = false ∧ (token first fields ⟨1,false⟩).isAssignment = false ∧
      (token first fields ⟨1,false⟩).isOp .cast = false := by
    unfold token
    split <;> exact ⟨rfl,rfl,rfl⟩
  have block := parseLines_expression (by simp) (by simpa using shape.1) (by simpa using shape.2.1)
    (by simpa using shape.2.2) (@expression_token fields 1 first named 1)
  simp only [parse,lines,block]

end Field

end EmbedScript
