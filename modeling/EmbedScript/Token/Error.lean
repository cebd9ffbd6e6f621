namespace EmbedScript

inductive LexError where
  | unterminatedString (line : Nat)
  | unterminatedDocString (line : Nat)
  | unexpectedCharacter (character : Char) (line : Nat)
  | unmatchedDelimiter (character : Char) (line : Nat)
  | unclosedDelimiter (opening : Char) (line : Nat)
  | unexpectedIndent (line : Nat)
  | invalidDedent (line : Nat)
  | expectedIndent (line : Nat)
  | invalidNumber (literal : String) (line : Nat)
  | danglingTier (keyword : String) (line : Nat)
  | unexpectedKeyword (keyword : String) (line : Nat)
  | invalidLambdaParameter (name : String) (line : Nat)
  | invalidInterpolation (reason : String) (line : Nat)
  deriving DecidableEq, Repr

def LexError.message : LexError → String
  | unterminatedString line => s!"EOL while scanning string literal at line {line}"
  | unterminatedDocString line => s!"EOF while scanning triple-quoted string literal starting at line {line}"
  | unexpectedCharacter character line => s!"Unexpected character '{character}' at line {line}"
  | unmatchedDelimiter character line => s!"Unmatched '{character}' at line {line}"
  | unclosedDelimiter opening line => s!"'{opening}' opened at line {line} was never closed"
  | unexpectedIndent line => s!"Unexpected indent at line {line}"
  | invalidDedent line => s!"Unindent does not match any outer indentation level at line {line}"
  | expectedIndent line => s!"Expected an indented block after line {line}"
  | invalidNumber literal line => s!"Invalid number literal '{literal}' at line {line}"
  | danglingTier keyword line => s!"'{keyword}' without a matching 'if' at line {line}"
  | unexpectedKeyword keyword line => s!"Unexpected keyword '{keyword}' at line {line}"
  | invalidLambdaParameter name line => s!"Invalid lambda parameter '{name}' at line {line}"
  | invalidInterpolation reason line => s!"Invalid f-string expression at line {line}: {reason}"

end EmbedScript
