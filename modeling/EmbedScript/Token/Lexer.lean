import EmbedScript.Token.Scanner

/-!
Reading a whole source: `Lexer.entries` runs the scanner over the lexemes, `tokenize` nests what it
gives.
-/

namespace EmbedScript.Lexer

/-- Skips blank and comment lines: the line it stops on, its indentation unless the text ended, and
the rest. -/
def indentation (comment : Bool) (line : Nat) (indent : List Char) :
    List Char → Nat × Option (List Char) × List Char
  | [] => (line,none,[])
  | c :: rest =>
    if c == '\n' then indentation false (line + 1) [] rest
    else if comment then indentation true line indent rest
    else if c == ' ' || c == '\t' then indentation false line (c :: indent) rest
    else if c == '\r' then indentation false line indent rest
    else if c == '#' then indentation true line indent rest
    else (line,some indent.reverse,c :: rest)

theorem indentation_length (comment : Bool) (line : Nat) (indent cs : List Char) :
    (indentation comment line indent cs).2.2.length ≤ cs.length := by
  fun_induction indentation comment line indent cs <;> simp <;> omega

abbrev Reader := List Char → Nat → Except LexError (List Line)

def entries (lines : Reader) (s : Scanner) (cs : List Char) : Except LexError (List Entry) :=
  match cs with
  | [] => s.finish
  | c :: rest =>
    match _read : Lexeme.read s.member s.line c rest with
    | (lexeme,rest') => do
      let t ← s.take lines lexeme
      if lexeme.isNewline && t.groups.isEmpty then
        match _skipped : indentation false t.line [] rest' with
        | (line,none,_) => Scanner.finish { t with line }
        | (line,some indent,rest'') =>
          let u ← Scanner.enterLine { t with line } indent
          entries lines u rest''
      else entries lines t rest'
termination_by cs.length
decreasing_by
  all_goals
    have shorter := Lexeme.read_length s.member s.line c rest
    rw [_read] at shorter
    simp only [List.length_cons] at shorter ⊢
  · have after := indentation_length false t.line [] rest'
    rw [_skipped] at after
    simp only at after
    omega
  · omega

def tokenizeWithin : (nesting : Nat) → Reader
  | 0, _, _ => .ok []
  | nesting + 1, source, first => do
    let cs := Text.replace ['\r','\n'] ['\n'] source none
    let lines := tokenizeWithin nesting
    match indentation false first [] cs with
    | (line,none,_) => return Line.forest (← (Scanner.start line).finish)
    | (line,some indent,rest) =>
      let s ← (Scanner.start line).enterLine indent
      return Line.forest (← entries lines s rest)

end EmbedScript.Lexer

namespace EmbedScript

/-- An expression in a formatted string is shorter than the source around it, so the length bounds
the nesting. -/
def tokenize (source : String) : Except LexError (List Line) :=
  let cs := source.toList
  Lexer.tokenizeWithin (cs.length + 1) cs 1

end EmbedScript
