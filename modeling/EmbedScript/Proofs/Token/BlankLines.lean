import EmbedScript.Proofs.Token.Boundary

/-!
Empty lines and comment lines between two lines of a source, where nothing is open, are invisible.
-/

namespace EmbedScript

open List Text

-- Blanks, and perhaps a comment behind them. A carriage return in front of the line break is one of
-- the blanks.
def isBlankLine : List Char → Bool
  | [] => true
  | c :: cs =>
    if c == '#' then !cs.contains '\n' else (c == ' ' || c == '\t' || c == '\r') && isBlankLine cs

/-- The text is empty, or it ends in a line break and nothing is open there. -/
def EndsLine (before : List Char) : Prop := before = [] ∨
    before.getLast? = some '\n' ∧ Closed false 0 (replace ['\r','\n'] ['\n'] before none)

variable {ls : List (List Char)}

namespace Text

theorem lineEnds_append (ended : cs.getLast? ≠ some '\r') (further : List Char) :
    lineEnds (cs ++ further) = lineEnds cs ++ lineEnds further := by
  induction cs with
  | nil => rfl
  | cons c cs ih =>
    cases cs with
    | nil =>
      have kept : (c == '\r') = false := beq_false_of_ne fun same => ended (congrArg some same)
      simp [lineEnds,kept]
    | cons d cs =>
      have rest : lineEnds (d :: (cs ++ further)) = lineEnds (d :: cs) ++ lineEnds further := ih ended
      rw [cons_append,cons_append,lineEnds.eq_2,lineEnds.eq_2 c (d :: cs),rest,head?_cons,← head?_cons]
      by_cases folded : c == '\r' && (d :: cs).head? == some '\n'
      · rw [if_pos folded,if_pos folded]
      · rw [if_neg folded,if_neg folded,cons_append]

theorem getLast?_lineEnds (ended : cs.getLast? = some '\n') : (lineEnds cs).getLast? = some '\n' := by
  induction cs with
  | nil => contradiction
  | cons c cs ih =>
    cases cs with
    | nil =>
      obtain rfl : c = '\n' := by simpa using ended
      rfl
    | cons d cs =>
      have rest := ih ended
      rw [lineEnds]
      split
      · exact rest
      · rw [getLast?_cons,rest]
        rfl

end Text

namespace Lexer

theorem indentation_comment_end (inside : '\n' ∉ cs) (line : Nat) (indent rest : List Char) :
    indentation true line indent (lineEnds (cs ++ ['\n']) ++ rest) = indentation false (line + 1) [] rest := by
  induction cs with
  | nil => rfl
  | cons c cs ih =>
    obtain ⟨other,inside⟩ := not_or.mp (mem_cons.not.mp inside)
    rw [cons_append,lineEnds]
    split
    · exact ih inside
    · rw [cons_append,indentation,if_neg (by simpa using Ne.symm other)]
      exact ih inside

theorem indentation_blank (blank : isBlankLine cs) (line : Nat) (indent rest : List Char) :
    indentation false line indent (lineEnds (cs ++ ['\n']) ++ rest) = indentation false (line + 1) [] rest := by
  induction cs generalizing indent with
  | nil => rfl
  | cons c cs ih =>
    rw [isBlankLine] at blank
    split at blank
    · rename_i comment
      obtain rfl : c = '#' := eq_of_beq comment
      exact indentation_comment_end (by simpa using blank) line indent rest
    · obtain ⟨skipped,blank⟩ := (Bool.and_eq_true _ _).mp blank
      simp only [Bool.or_eq_true,beq_iff_eq] at skipped
      rcases skipped with (rfl | rfl) | rfl
      · exact ih blank _
      · exact ih blank _
      · rw [cons_append,lineEnds]
        split <;> exact ih blank _

def unlines (ls : List (List Char)) : List Char := ls.flatMap (· ++ ['\n'])

theorem indentation_blanks (blank : ∀ l ∈ ls, isBlankLine l) (line : Nat) (rest : List Char) :
    indentation false line [] (lineEnds (unlines ls) ++ rest) = indentation false (line + ls.length) [] rest := by
  induction ls generalizing line with
  | nil => rfl
  | cons l ls ih =>
    obtain ⟨first,others⟩ := forall_mem_cons.mp blank
    have split : lineEnds (unlines (l :: ls)) = lineEnds (l ++ ['\n']) ++ lineEnds (unlines ls) := lineEnds_append (by simp) _
    rw [split,append_assoc,indentation_blank first,ih others,length_cons]
    congr 1
    omega

variable {lines : Reader}

theorem resume_blanks (agree : Agree n lines lines) (blank : ∀ l ∈ ls, isBlankLine l)
    (same : ∀ line line', (f line).bare = (f line').bare) (line : Nat)
    (short : rest.length ≤ n) :
    bare (map Entry.bare) (resume lines f line (lineEnds (unlines ls) ++ rest)) =
      bare (map Entry.bare) (resume lines f line rest) := by
  have passed : resume lines f line (lineEnds (unlines ls) ++ rest) = resume lines f (line + ls.length) rest := by
    rw [resume,indentation_blanks blank,resume]
  rw [passed]
  exact resume_bare agree short same _ _

theorem start_stands (line : Nat) : (Scanner.start line).Stands false 0 := ⟨rfl,rfl⟩

theorem resume_insert (agree : Agree n lines lines)
    (boundary : EndsLine before) (blank : ∀ l ∈ ls, isBlankLine l) (short : rest.length ≤ n) :
    bare (map Entry.bare) (resume lines Scanner.start 1 (lineEnds before ++ (lineEnds (unlines ls) ++ rest))) =
      bare (map Entry.bare) (resume lines Scanner.start 1 (lineEnds before ++ rest)) := by
  rcases boundary with rfl | ⟨ended,closed⟩
  · exact resume_blanks agree blank (fun _ _ => rfl) 1 short
  · rw [replace_returns] at closed
    have last := getLast?_lineEnds ended
    have arrives := @resume_arrives lines _ _ start_stands (fun _ _ => rfl) closed last
      (fun after s inside closed stands => entries_arrives stands closed
        ((Lexeme.getLast?_suffix inside closed.ne_nil).trans last)) 1
    rcases arrives with ⟨e,refused⟩ | ⟨f,line,same,read⟩
    · simp only at refused
      rw [refused,refused]
    · simp only at read
      rw [read,read]
      exact resume_blanks agree blank same line short

end Lexer

/-- Wherever nothing is open between two lines of a source, any number of blank lines and comment
lines may stand: reading gives the same forest or the same error, on other lines. -/
theorem tokenize_insert_blank_lines (before after : List Char) (ls : List (List Char))
    (boundary : EndsLine before) (blank : ∀ l ∈ ls, isBlankLine l) :
    Lexer.bare Line.bareAll (tokenize (String.ofList (before ++ Lexer.unlines ls ++ after))) =
      Lexer.bare Line.bareAll (tokenize (String.ofList (before ++ after))) := by
  simp only [tokenize, String.toList_ofList]
  have enough : (before ++ after).length ≤ (before ++ Lexer.unlines ls ++ after).length := by
    simp only [List.length_append]
    omega
  generalize (before ++ Lexer.unlines ls ++ after).length = n at enough
  -- Both sources are read with the nesting that the longer one allows.
  have widened := Lexer.tokenizeWithin_agree (Nat.le_refl ((before ++ after).length + 1))
    (Nat.succ_le_succ enough) (before ++ after) 1 1 (Nat.lt_succ_self _)
  have agree := Lexer.tokenizeWithin_agree (Nat.le_refl n) (Nat.le_refl n)
  have short : (Text.lineEnds after).length ≤ n := by
    have shorter := Text.length_lineEnds_le after
    rw [List.length_append] at enough
    omega
  have ends {further : List Char} :
      Text.lineEnds (before ++ further) = Text.lineEnds before ++ Text.lineEnds further := by
    refine Text.lineEnds_append ?_ further
    rcases boundary with rfl | ⟨ended, -⟩
    · simp
    · simp [ended]
  have inserted : Text.lineEnds (Lexer.unlines ls ++ after) =
      Text.lineEnds (Lexer.unlines ls) ++ Text.lineEnds after := by
    refine Text.lineEnds_append ?_ after
    rcases List.eq_nil_or_concat ls with rfl | ⟨init, last, rfl⟩
    · simp [Lexer.unlines]
    · simp [Lexer.unlines]
  rw [widened, Lexer.tokenizeWithin_succ, Lexer.tokenizeWithin_succ, List.append_assoc, ends, ends, inserted]
  exact Lexer.bare_forest (Lexer.resume_insert agree boundary blank short)

theorem tokenize_insert_blank_lines_block :
    EndsLine "if x:\n".toList ∧ Lexer.bare Line.bareAll (tokenize "if x:\n\n \t\n# y\n  z\n") =
      Lexer.bare Line.bareAll (tokenize "if x:\n  z\n") := by
  have boundary : EndsLine "if x:\n".toList := by
    refine .inr ⟨rfl, ?_⟩
    have colon : Closed false 0 [':', '\n'] :=
      .lexeme (show Lexeme.read false 1 ':' (['\n'] ++ ['\n']) = (.colon, ['\n'] ++ ['\n']) from rfl) .line
    have name : Closed false 0 ['x', ':', '\n'] :=
      .lexeme (show Lexeme.read false 1 'x' ([':', '\n'] ++ ['\n']) =
        (.word ['x'], [':', '\n'] ++ ['\n']) from rfl) colon
    have gap : Closed false 0 [' ', 'x', ':', '\n'] :=
      .lexeme (show Lexeme.read false 1 ' ' (['x', ':', '\n'] ++ ['\n']) =
        (.gap, ['x', ':', '\n'] ++ ['\n']) from rfl) name
    exact .lexeme (show Lexeme.read false 1 'i' (['f', ' ', 'x', ':', '\n'] ++ ['\n']) =
      (.word ['i', 'f'], [' ', 'x', ':', '\n'] ++ ['\n']) from rfl) gap
  refine ⟨boundary, ?_⟩
  exact tokenize_insert_blank_lines "if x:\n".toList "  z\n".toList
    ["".toList, " \t".toList, "# y".toList] boundary (by decide)

end EmbedScript
