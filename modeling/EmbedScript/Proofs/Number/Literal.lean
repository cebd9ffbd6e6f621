import EmbedScript.Interpreter
import EmbedScript.Proofs.Datum.Parsing
import EmbedScript.Proofs.Typing.Operators

/-!
The text of a word is read as that word, the least one apart, whose magnitude is no word.
-/

namespace EmbedScript

open Word Scanner

namespace Lexer

variable {n : Nat}

theorem entries_refused
    (read : Lexeme.read s.member s.line c rest = (lexeme,after)) (refused : s.take lines lexeme = .error e) :
    entries lines s (c :: rest) = .error e := by
  rw [entries]
  split
  next lexeme' after' read' =>
    obtain ⟨rfl,rfl⟩ := Prod.mk.inj (read.symm.trans read')
    rw [refused]
    rfl

theorem entries_digits_refused (large : ofInt? n = none) :
    entries lines s (Nat.toDigits 10 n) = .error (.invalidNumber n.repr s.line) := by
  have all := isDigit_of_mem_digits (n := n)
  have refused := take_digits lines s n
  rw [large] at refused
  cases spelled : Nat.toDigits 10 n with
  | nil => exact absurd spelled Nat.toDigits_ne_nil
  | cons c cs =>
    rw [spelled] at all refused
    have read := Lexeme.read_digits s.member s.line all .nil
    rw [List.append_nil] at read
    exact entries_refused read refused

theorem entries_minus_refused (large : ofInt? n = none) :
    entries lines s ('-' :: Nat.toDigits 10 n) = .error (.invalidNumber n.repr s.line) := by
  have refused : entries lines (s.pushOp .sub false) (Nat.toDigits 10 n) = _ := entries_digits_refused large
  have same : (s.pushOp .sub false).line = s.line := push_line _
  cases spelled : Nat.toDigits 10 n with
  | nil => exact absurd spelled Nat.toDigits_ne_nil
  | cons c cs =>
    rw [spelled,same] at refused
    have digit : c.isDigit := isDigit_of_mem_digits c (spelled ▸ List.mem_cons_self ..)
    have taken : s.take lines (.op .sub false) = .ok (s.pushOp .sub false) := rfl
    rw [entries_cons (Lexeme.read_minus s.member s.line digit cs) taken rfl]
    exact refused

end Lexer

theorem tokenize_integer_refused {a : Int} (large : ofInt? a.natAbs = none) :
    tokenize (toString a) = .error (.invalidNumber a.natAbs.repr 1) := by
  obtain ⟨c,cs,spelled,visible⟩ := toString_head a
  have refused (lines : Lexer.Reader) : Lexer.entries lines (start 1) (toString a).toList =
      .error (.invalidNumber a.natAbs.repr 1) := by
    rw [toList_toString]
    split
    · exact Lexer.entries_minus_refused large
    · exact Lexer.entries_digits_refused large
  rw [tokenize_visible spelled visible (toString_no_return a),refused]
  rfl

theorem parse_integer (a : Int) : parse (toString a) =
    if a.natAbs ≤ greatest then .ok [.mk 1 (.expr (.int (Int64.ofInt a)))]
    else .error (.lex (.invalidNumber a.natAbs.repr 1)) := by
  split
  · next small =>
    have value : (Int64.ofInt a).toInt = a := toInt_ofInt (by unfold least greatest at *; omega) (by omega)
    have writable : Int64.ofInt a ≠ Int64.minValue := by
      intro least
      rw [least] at value
      rw [← value] at small
      exact absurd small (by decide)
    have written := (Datum.int (Int64.ofInt a)).parse_text writable
    rwa [Datum.text,Datum.chars,String.ofList_toList,text,value] at written
  · next large =>
    have refused := ofInt?_eq_none_iff.mpr (.inr (Int.not_le.mp large))
    rw [parse,tokenize_integer_refused refused]

/-- What `repr` and `str` write for an integer is read back as that literal, the least integer
apart, whose magnitude is refused. -/
theorem integer_written {k : Engine} (fuel : 0 < k.fuel) (w : World) (n : Int64) :
    k.repr (.int n) w = .done (Word.text n) w ∧ k.str (.int n) w = .done (Word.text n) w ∧
      parse (Word.text n) = if n = Int64.minValue then .error (.lex (.invalidNumber "9223372036854775808" 1))
        else .ok [.mk 1 (.expr (.int n))] := by
  obtain ⟨fuel, more⟩ := Nat.exists_eq_succ_of_ne_zero (Nat.ne_of_gt fuel)
  refine ⟨by rw [Engine.repr, more]; rfl, by rw [Engine.str, more]; rfl, ?_⟩
  rw [Word.text, parse_integer, Int64.ofInt_toInt]
  split
  · next small =>
    have other : n ≠ Int64.minValue := by
      rintro rfl
      exact absurd small (by decide)
    rw [if_neg other]
  · next large =>
    have least : n = Int64.minValue := by
      by_contra other
      have inside := Word.ofInt?_natAbs other
      rw [Word.ofInt?_eq_none_iff.mpr (.inr (Int.not_le.mp large))] at inside
      cases inside
    subst least
    rfl

theorem integer_written_one : (engine 2).repr (.int (-1)) World.blank = .done "-1" World.blank ∧
    parse "-1" = .ok [.mk 1 (.expr (.int (-1)))] := by
  obtain ⟨shown, -, read⟩ := integer_written (k := engine 2) (by decide) World.blank (-1)
  exact ⟨shown, read⟩

theorem least_integer_unwritten : ¬ ∀ n : Int64, parse (Word.text n) = .ok [.mk 1 (.expr (.int n))] := by
  intro written
  have refused := (parse_integer Int64.minValue.toInt).symm.trans (written Int64.minValue)
  rw [if_neg (by decide)] at refused
  cases refused

end EmbedScript
