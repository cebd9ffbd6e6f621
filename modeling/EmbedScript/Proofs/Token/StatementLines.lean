import EmbedScript.Proofs.Token.Sentences

namespace EmbedScript

def Spelling.statementLine (first : Nat) (p : Spelling) : Nat :=
  first + p.before.count '\n' + if p.lexeme.isLiteral then p.text.count '\n' else 0

theorem Scanner.Gathers.statementLine {s : Scanner}
    (gathers : s.Gathers lines first ps) : ∀ p ∈ ps.getLast?, s.statementLine = p.statementLine first := by
  induction gathers with
  | idle => exact nofun
  | blank line _ ih => exact ih
  | @take ps s t p gathers stands moved visible takes ih =>
    have start := (takes.start visible).2
    rw [gathers.fresh_eq] at start
    cases ps with
    | nil =>
      rintro _ ⟨⟩
      rw [start,if_pos List.isEmpty_nil,moved,stands]
      change _ = first + p.before.count '\n' + if p.lexeme.isLiteral then p.text.count '\n' else 0
      split <;> rfl
    | cons q ps =>
      rw [start]
      exact ih

theorem Head.Gathered.line {h : Head} {sentence}
    (gathered : h.Gathered lines first sentence) : ∃ p ∈ sentence.head?, h.line = p.statementLine first := by
  obtain ⟨s,gathers,outside,head⟩ := gathered
  rw [Scanner.takeHead_fresh outside,gathers.fresh_eq] at head
  cases sentence with
  | nil => cases head
  | cons p ps =>
    rw [if_neg (by simp)] at head
    refine ⟨p,rfl,?_⟩
    rw [← gathers.statementLine p (by simp),← Option.some.inj head]

/-- The statements of an accepted source stand on the lines of their first characters, and those that
begin with a literal on the line where it ends. -/
theorem statement_lines {source : String} {ls : List Line} (accepted : tokenize source = .ok ls) :
    let text := Text.replace ['\r', '\n'] ['\n'] source.toList none
    List.Forall₂ (fun l sentence => ∃ p ∈ sentence.head?, p.before ++ p.text <+: text ∧
        l.head.line = 1 + p.before.count '\n' + if p.lexeme.isLiteral then p.text.count '\n' else 0)
      (Line.preorderAll ls) (Lexer.sentences 1 text) := by
  intro text
  have found := Lexer.tokenizeWithin_sentences accepted
  rw [← Text.replace_returns] at found
  refine (List.forall₂_iff_get.mp found).elim fun size each => List.forall₂_iff_get.mpr ⟨size, fun i h h' => ?_⟩
  obtain ⟨p, front, line⟩ := (each i h h').line
  obtain ⟨_, c, rest, after, whole, spelled, -⟩ :=
    Lexer.sentences_spells (List.get_mem _ _) (List.mem_of_mem_head? front)
  rw [spelled, ← List.append_assoc] at whole
  exact ⟨p, front, ⟨after, whole.symm⟩, line⟩

def lineSteps : String := "a = z; b\r\n\n  # c\n(d,\n e)\nif f: '''x\ny'''\n"

theorem statement_lines_steps : ∃ ls, tokenize lineSteps = .ok ls ∧
    (Line.preorderAll ls).map (·.head.line) = [1, 1, 4, 6, 7] ∧
    List.Forall₂ (fun l sentence => ∃ p ∈ sentence.head?,
        p.before ++ p.text <+: Text.replace ['\r', '\n'] ['\n'] lineSteps.toList none ∧
        l.head.line = 1 + p.before.count '\n' + if p.lexeme.isLiteral then p.text.count '\n' else 0)
      (Line.preorderAll ls) (Lexer.sentences 1 (Text.replace ['\r', '\n'] ['\n'] lineSteps.toList none)) := by
  have read : (tokenize lineSteps).toOption.map (fun ls => (Line.preorderAll ls).map (·.head.line)) =
      some [1, 1, 4, 6, 7] := by
    decide +kernel
  cases accepted : tokenize lineSteps with
  | error e => simp [accepted, Except.toOption] at read
  | ok ls =>
    rw [accepted] at read
    exact ⟨ls, rfl, Option.some.inj read, statement_lines accepted⟩

theorem long_literal_moved : ¬ ∀ (source : String) (ls : List Line), tokenize source = .ok ls →
    List.Forall₂ (fun l sentence => ∃ p ∈ sentence.head?, l.head.line = 1 + p.before.count '\n')
      (Line.preorderAll ls) (Lexer.sentences 1 (Text.replace ['\r', '\n'] ['\n'] source.toList none)) := by
  intro placed
  let source := "'''a\nb'''"
  have ends : (tokenize source).toOption.map (fun ls => (Line.preorderAll ls).map (·.head.line)) = some [2] := by
    decide +kernel
  have starts : (Lexer.sentences 1 (Text.replace ['\r', '\n'] ['\n'] source.toList none)).map
      (fun sentence => sentence.head?.map (·.before.count '\n')) = [some 0] := by
    decide +kernel
  cases accepted : tokenize source with
  | error e => simp [accepted, Except.toOption] at ends
  | ok ls =>
    have each := placed source ls accepted
    rw [accepted] at ends
    obtain ⟨l, alone, line⟩ := List.map_eq_singleton_iff.mp (Option.some.inj ends)
    obtain ⟨sentence, only, start⟩ := List.map_eq_singleton_iff.mp starts
    rw [alone, only] at each
    obtain ⟨⟨p, front, same⟩, -⟩ := List.forall₂_cons.mp each
    rw [show sentence.head? = some p from front, Option.map_some, Option.some.injEq] at start
    rw [line, start] at same
    contradiction

end EmbedScript
