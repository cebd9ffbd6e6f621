import EmbedScript.Proofs.Token.Spelling
import EmbedScript.Token.Lexer

/-!
Gathering tokens on one line. `Reads cs tokens` says that a piece of text adds just these tokens,
whatever was read before it and whatever border follows.
-/

namespace EmbedScript

open Lexer

namespace Token

variable (t : Token) (a b : Spot)

@[simp] theorem spot_withSpot : (t.withSpot a).spot = a := by cases t <;> rfl

@[simp] theorem line_withSpot : (t.withSpot a).line = a.line := by simp [line]

@[simp] theorem comma_withSpot : (t.withSpot a).comma = a.comma := by simp [comma]

@[simp] theorem withSpot_withSpot : (t.withSpot a).withSpot b = t.withSpot b := by cases t <;> rfl

end Token

namespace Scanner

def put (s : Scanner) (ts : List Token) : Scanner := s.withCurrent (ts.reverse ++ s.current)

structure Steady (s : Scanner) : Prop where
  free : s.member = false
  still : s.statementLine = s.line

def enclose (s : Scanner) (shape : Shape) : Scanner := { s with groups := ⟨shape,s.line,[]⟩ :: s.groups }

variable {s : Scanner}

@[simp] theorem put_line (ts : List Token) : (s.put ts).line = s.line := by
  unfold put withCurrent
  split <;> rfl

@[simp] theorem push_line (token : Spot → Token) : (s.push token).line = s.line := by
  unfold push noteStart withCurrent
  simp only
  split <;> split <;> rfl

@[simp] theorem put_member (ts : List Token) : (s.put ts).member = s.member := by
  unfold put withCurrent
  split <;> rfl

@[simp] theorem put_statementLine (ts : List Token) : (s.put ts).statementLine = s.statementLine := by
  unfold put withCurrent
  split <;> rfl

@[simp] theorem put_grouped (ts : List Token) : (s.put ts).groups.isEmpty = s.groups.isEmpty := by
  unfold put withCurrent
  split <;> simp [*]

theorem put_nil : s.put [] = s := by
  unfold put withCurrent current
  split <;> simp <;> cases s <;> simp_all

theorem put_put (as bs : List Token) : (s.put as).put bs = s.put (as ++ bs) := by
  unfold put withCurrent current
  cases s.groups <;> simp

theorem Steady.put (steady : s.Steady) (ts : List Token) : (s.put ts).Steady := ⟨by simp [steady.free],by simp [steady.still]⟩

theorem Steady.noteStart (steady : s.Steady) : { s with member := false }.noteStart = s := by
  have same : { s with member := false } = s := by rw [← steady.free]
  rw [same]
  unfold Scanner.noteStart
  split
  · exact congrArg (fun line => { s with statementLine := line }) steady.still.symm
  · rfl

theorem Steady.push (steady : s.Steady) (token : Spot → Token) : s.push token = s.put [token ⟨s.line,false⟩] := by
  unfold Scanner.push
  rw [steady.noteStart]
  rfl

variable (lines : Reader)

theorem take_opening (s : Scanner) (steady : s.Steady) (shape : Shape) :
    s.take lines (.opening shape) = .ok (s.enclose shape) := by
  simp only [take]
  rw [steady.noteStart]
  rfl

theorem take_closing (s : Scanner) (shape : Shape) (ts : List Token) :
    ((s.enclose shape).put ts).take lines (.closing shape.closing) = .ok (s.put [.group shape ts ⟨s.line,false⟩]) := by
  simp [take,closeGroup,enclose,put,withCurrent,current]

theorem take_comma (ts : List Token) (t : Token) :
    (s.put (ts ++ [t])).take lines .comma = .ok (s.put (ts ++ [t.withSpot ⟨t.line,true⟩])) := by
  unfold take comma put withCurrent current
  cases s.groups <;> simp

theorem take_colon (steady : s.Steady) (inside : s.groups.isEmpty = false) :
    s.take lines .colon = .ok (s.put [.op .colon false ⟨s.line,false⟩]) := by
  simp [take,inside,pushOp,steady.push]

theorem isDigit_of_mem_digits : ∀ c ∈ Nat.toDigits 10 n, c.isDigit := fun _ member =>
  Nat.isDigit_of_mem_toDigits (by decide) (by decide) member

theorem take_digits (s : Scanner) (n : Nat) : s.take lines (.number (Nat.toDigits 10 n) false true) =
    if (Word.ofInt? n).isSome then .ok (s.push (.number n.repr))
    else .error (.invalidNumber n.repr s.line) := by
  have value : Decimal.natOfDigits (Nat.toDigits 10 n) = n := Nat.ofDigitChars_ten_toDigits
  have kept : (Nat.toDigits 10 n).filter (· != '_') = Nat.toDigits 10 n := by
    refine List.filter_eq_self.mpr fun c member => ?_
    have digit := isDigit_of_mem_digits c member
    rw [bne_iff_ne]
    rintro rfl
    contradiction
  have written : String.ofList (Nat.toDigits 10 n) = n.repr := by rw [← String.toList_inj,Nat.toList_repr,String.toList_ofList]
  simp [take,number,isNumber,kept,value,written]

theorem finish_put (line : Nat) (written : ts ≠ []) :
    ((start line).put ts).finish = .ok [⟨⟨line,none,ts⟩,0,false,false⟩] := by
  simp [start,put,withCurrent,current,finish,endLine,endStatement,takeHead,written,place,emit]

end Scanner

theorem Lexer.entries_cons
    (read : Lexeme.read s.member s.line c rest = (lexeme,after))
    (taken : s.take lines lexeme = .ok t) (within : lexeme.isNewline = false) :
    entries lines s (c :: rest) = entries lines t after := by
  rw [entries]
  split
  next lexeme' after' read' =>
    obtain ⟨rfl,rfl⟩ := Prod.mk.inj (read.symm.trans read')
    rw [taken]
    simp [within,bind,Except.bind]

def Reads (inside : Bool) (cs : List Char) (tokens : Nat → List Token) : Prop :=
  ∀ (lines : Reader) (s : Scanner) (rest : List Char), s.Steady → (inside → s.groups.isEmpty = false) → Bordered rest →
      entries lines s (cs ++ rest) = entries lines (s.put (tokens s.line)) rest

namespace Reads

variable (inside : Bool)

theorem nil : Reads inside [] fun _ => [] := by
  intro lines s rest _ _ _
  rw [Scanner.put_nil,List.nil_append]

theorem quoted (text : String) : Reads inside (Text.quoted text).toList fun line => [.str text ⟨line,false⟩] := by
  intro lines s rest steady _ bordered
  have mark : Text.quoteFor text.toList = '\'' ∨ Text.quoteFor text.toList = '"' := by
    unfold Text.quoteFor
    split <;> simp
  have ended : rest.head? ≠ some (Text.quoteFor text.toList) := by
    intro first
    have border := bordered _ first
    rcases mark with same | same <;> rw [same] at border <;> contradiction
  have read := Lexeme.read_quoted mark s.line s.member text.toList ended
  have taken : s.take lines (.str [.text text.toList] (.ok s.line)) = .ok (s.put [.str text ⟨s.line,false⟩]) := by
    simp [Scanner.take,Scanner.string,Scanner.pieceToken,bind,Except.bind,pure,Except.pure,steady.push]
  simp only [Text.quoted,String.toList_ofList,List.append_assoc]
  exact Lexer.entries_cons read taken rfl

theorem digits {n : Nat} (fits : (Word.ofInt? n).isSome) :
    Reads inside (Nat.toDigits 10 n) fun line => [.number n.repr ⟨line,false⟩] := by
  intro lines s rest steady _ bordered
  have all := Scanner.isDigit_of_mem_digits (n := n)
  have taken := Scanner.take_digits lines s n
  rw [if_pos fits,steady.push] at taken
  cases spelled : Nat.toDigits 10 n with
  | nil => exact absurd spelled Nat.toDigits_ne_nil
  | cons c cs =>
    rw [spelled] at all taken
    exact Lexer.entries_cons (Lexeme.read_digits s.member s.line all bordered) taken rfl

theorem minus {inside} (digit : c.isDigit) (reads : Reads inside (c :: cs) tokens) :
    Reads inside ('-' :: c :: cs) fun line => .op .sub false ⟨line,false⟩ :: tokens line := by
  intro lines s rest steady grouped bordered
  have taken : s.take lines (.op .sub false) = .ok (s.put [.op .sub false ⟨s.line,false⟩]) := by
    simp [Scanner.take,Scanner.pushOp,steady.push]
  have first := Lexer.entries_cons (Lexeme.read_minus s.member s.line digit (cs ++ rest)) taken rfl
  have second := reads lines (s.put [.op .sub false ⟨s.line,false⟩]) rest (steady.put _) (by simpa using grouped) bordered
  rw [List.cons_append,List.cons_append,first,← List.cons_append,second,Scanner.put_put]
  simp

theorem word (spelled : name.toList = c :: cs) (start : Lexeme.isWordStart c)
    (more : ∀ d ∈ cs, Lexeme.isWordChar d) (number : c.isDigit = false)
    (other : (c :: cs == "lambda".toList) = false)
    (plain : ∀ s : Scanner, s.member = false → s.word name = .ok (s.push (.name name))) :
    Reads inside name.toList fun line => [.name name ⟨line,false⟩] := by
  intro lines s rest steady _ bordered
  have read := Lexeme.read_word s.line start more number other bordered
  rw [← steady.free] at read
  have taken : s.take lines (.word (c :: cs)) = .ok (s.put [.name name ⟨s.line,false⟩]) := by
    simp only [Scanner.take,← spelled,String.ofList_toList,plain s steady.free,steady.push]
  rw [spelled]
  exact Lexer.entries_cons read taken rfl

theorem group (bracket : shape ≠ .splice) (reads : Reads true cs tokens) (inside : Bool) :
    Reads inside (shape.opening :: (cs ++ [shape.closing])) fun line => [.group shape (tokens line) ⟨line,false⟩] := by
  intro lines s rest steady _ bordered
  have opens : Lexeme.read s.member s.line shape.opening (cs ++ shape.closing :: rest) =
      (.opening shape,cs ++ shape.closing :: rest) := by
    cases shape <;> first | rfl | contradiction
  have closes (t : Scanner) : Lexeme.read t.member t.line shape.closing rest = (.closing shape.closing,rest) := by
    cases shape <;> rfl
  have border : isBorder shape.closing := by cases shape <;> rfl
  have first := entries_cons opens (s.take_opening lines steady shape) rfl
  have second := reads lines (s.enclose shape) (shape.closing :: rest) ⟨steady.free,steady.still⟩
    (fun _ => rfl) (.cons border rest)
  have third := entries_cons (closes _) (s.take_closing lines shape (tokens s.line)) rfl
  simp only [List.cons_append,List.append_assoc]
  exact first.trans (second.trans third)

end Reads

end EmbedScript
