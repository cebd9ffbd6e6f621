import EmbedScript.Token.Forest
import EmbedScript.Token.Lexeme
import EmbedScript.Text.Pieces
import EmbedScript.Text.Search
import EmbedScript.Number.Decimal
import EmbedScript.Number.Word

/-!
From lexemes to statements. Blocks are levels of indentation; a statement that ends in a colon waits
for its block, which follows on the same line or is the next, deeper level.
-/

namespace EmbedScript

structure OpenGroup where
  shape : Shape
  line : Nat
  tokens : List Token := []

structure Level where
  indent : List Char
  depth : Nat
  tiered : Bool := false

structure Opener where
  line : Nat
  depth : Nat

structure Scanner where
  line : Nat
  member : Bool := false
  groups : List OpenGroup := []
  tokens : List Token := []
  keyword : Option Keyword := none
  statementLine : Nat
  entries : List Entry := []
  level : Level := ⟨[],0,false⟩
  outer : List Level := []
  opener : Option Opener := none
  inline : Bool := false
  filled : Bool := false

namespace Scanner

def start (line : Nat) : Scanner := { line, statementLine := line }

def fresh (s : Scanner) : Bool := s.groups.isEmpty && s.tokens.isEmpty && s.keyword.isNone

def current (s : Scanner) : List Token :=
  match s.groups with
  | g :: _ => g.tokens
  | [] => s.tokens

def withCurrent (s : Scanner) (tokens : List Token) : Scanner :=
  match s.groups with
  | g :: outer => { s with groups := { g with tokens } :: outer }
  | [] => { s with tokens }

def noteStart (s : Scanner) : Scanner :=
  if s.fresh then { s with statementLine := s.line } else s

def push (s : Scanner) (token : Spot → Token) : Scanner :=
  let s := { s with member := false }.noteStart
  s.withCurrent (token ⟨s.line,false⟩ :: s.current)

def pushName (s : Scanner) (name : String) : Scanner := s.push (if s.member then .member name else .name name)

def pushOp (s : Scanner) (o : Op) (augmented : Bool) : Scanner := s.push (.op o augmented)

def fuse (s : Scanner) (first second both : Op) : Scanner :=
  match s.current with
  | .op o false spot :: before =>
    if o == first then s.withCurrent (.op both false spot :: before) else s.pushOp second false
  | _ => s.pushOp second false

-- Statements and blocks

def takeHead (s : Scanner) : Option Head × Scanner :=
  let rest := { s with tokens := [], keyword := none, member := false }
  if s.tokens.isEmpty && s.keyword.isNone then (none,rest)
  else (some ⟨s.statementLine,s.keyword,s.tokens.reverse⟩,rest)

def emit (s : Scanner) (e : Entry) : Scanner := { s with entries := e :: s.entries }

def place (s : Scanner) (head : Head) (opens : Bool) : Nat × Scanner :=
  match s.inline, s.opener with
  | true, some o => (o.depth + 1,{ s with filled := true }.emit ⟨head,o.depth + 1,false,opens⟩)
  | _, _ =>
    let level := { s.level with tiered := head.keyword == some .ifKw }
    (level.depth,{ s with level }.emit ⟨head,level.depth,false,opens⟩)

def endStatement (s : Scanner) : Scanner :=
  match s.takeHead with
  | (none,s) => s
  | (some head,s) => (s.place head false).2

def endLine (s : Scanner) : Scanner :=
  let s := s.endStatement
  { s with opener := if s.filled then none else s.opener, filled := false, inline := false }

def openFor (s : Scanner) (line depth : Nat) : Scanner :=
  { s with opener := some ⟨line,depth⟩, inline := true, filled := false }

def openBlock (s : Scanner) : Except LexError Scanner :=
  match s.takeHead with
  | (none,s) => .error (.unexpectedCharacter ':' s.line)
  | (some head,s) =>
    match head.keyword with
    | some .elifKw | some .elseKw =>
      if s.level.tiered then
        let level := { s.level with tiered := head.keyword == some .elifKw }
        let s := { s with level }.emit ⟨head,level.depth,true,true⟩
        .ok (s.openFor head.line level.depth)
      else
        let word := (head.keyword.map Keyword.text).getD ""
        .error (.danglingTier word head.line)
    | _ =>
      let (depth,s) := s.place head true
      .ok (s.openFor head.line depth)

def enterLine (s : Scanner) (indent : List Char) : Except LexError Scanner :=
  match s.opener with
  | some o =>
    if s.level.indent.length < indent.length && s.level.indent.isPrefixOf indent then
      .ok { s with opener := none, outer := s.level :: s.outer, level := ⟨indent,o.depth + 1,false⟩ }
    else .error (.expectedIndent o.line)
  | none =>
    match (s.level :: s.outer).dropWhile (indent.length < ·.indent.length) with
    | level :: outer =>
      if level.indent == indent then .ok { s with level, outer }
      else if s.level.indent.length < indent.length then .error (.unexpectedIndent s.line)
      else .error (.invalidDedent s.line)
    | [] => .error (.invalidDedent s.line)

-- Lexemes

def closeGroup (s : Scanner) (c : Char) : Except LexError Scanner :=
  match s.groups with
  | g :: outer =>
    if g.shape.closing == c then
      let s := { s with groups := outer }
      .ok (s.withCurrent (.group g.shape g.tokens.reverse ⟨g.line,false⟩ :: s.current))
    else .error (.unmatchedDelimiter c s.line)
  | [] => .error (.unmatchedDelimiter c s.line)

def comma (s : Scanner) : Except LexError Scanner :=
  match s.current with
  | t :: before => .ok (s.withCurrent (t.withSpot ⟨t.line,true⟩ :: before))
  | [] => .error (.unexpectedCharacter ',' s.line)

def dot (s : Scanner) : Except LexError Scanner :=
  if s.member || s.current.isEmpty then .error (.unexpectedCharacter '.' s.line)
  else .ok { s with member := true }

def isNumber (literal : List Char) (float : Bool) : Bool :=
  if float then (Decimal.readWritten? literal).isSome
  else (Word.ofInt? (Decimal.natOfDigits literal)).isSome

def number (s : Scanner) (literal : List Char) (float clean : Bool) : Except LexError Scanner :=
  let literal := literal.filter (· != '_')
  if isNumber literal float && clean then .ok (s.push (.number (String.ofList literal)))
  else .error (.invalidNumber (String.ofList literal) s.line)

def word (s : Scanner) (word : String) : Except LexError Scanner :=
  if s.member then .ok (s.pushName word)
  else match word with
    | "and" => .ok (s.pushOp .and false)
    | "or" => .ok (s.pushOp .or false)
    | "is" => .ok (s.pushOp .same false)
    | "as" => .ok (s.pushOp .convert false)
    | "not" => .ok (s.fuse .same .not .notSame)
    | "in" => .ok (s.fuse .not .within .notWithin)
    | _ =>
      match Keyword.ofWord? word with
      | none => .ok (s.pushName word)
      | some keyword =>
        if s.fresh then .ok { s with statementLine := s.line, keyword := some keyword }
        else match keyword.inline? with
          | some o => .ok (s.pushOp o false)
          | none => .error (.unexpectedKeyword word s.line)

def isName (cs : List Char) : Bool := cs.head?.any Lexeme.isWordStart && cs.all Lexeme.isWordChar

def parameters (line : Nat) (params : List Char) : Except LexError (List String) :=
  if (Text.trim Text.isBlank params).isEmpty then .ok []
  else (Text.split [','] params none).mapM fun cs =>
    let cs := Text.trim Text.isBlank cs
    if isName cs then .ok (String.ofList cs)
    else .error (.invalidLambdaParameter (String.ofList cs) line)

def lambda (s : Scanner) (params : List Char) (closed : Bool) : Except LexError Scanner :=
  if closed then do return s.pushOp (.lambda (← parameters s.line params)) false
  else .error (.unexpectedKeyword "lambda" s.line)

def fragment (lines : List Char → Nat → Except LexError (List Line)) (source : List Char)
    (line : Nat) : Except LexError (List Token) := do
  match ← lines (Text.trim Text.isBlank source) line with
  | [.mk ⟨_,none,tokens⟩ none _] => return tokens
  | _ =>
    let text := String.ofList source
    throw (.invalidInterpolation s!"'{text}' is not an expression" line)

def pieceToken (lines : List Char → Nat → Except LexError (List Line)) (spot : Spot) :
    Piece → Except LexError Token
  | .text cs => .ok (.str (String.ofList cs) spot)
  | .splice source line => do return .group .splice (← fragment lines source line) spot

def string (lines : List Char → Nat → Except LexError (List Line)) (s : Scanner)
    (pieces : List Piece) (stop : Except LexError Nat) : Except LexError Scanner := do
  let spot : Spot := ⟨s.line,false⟩
  let tokens ← pieces.mapM (pieceToken lines spot)
  let line ← stop
  let s := { s with line }
  match tokens with
  | [.str text _] => return s.push (.str text)
  | tokens => return s.push (.group .paren (tokens.intersperse (.op .add false spot)))

def take (lines : List Char → Nat → Except LexError (List Line)) (s : Scanner) :
    Lexeme → Except LexError Scanner
  | .newline =>
    let s := { s with line := s.line + 1 }
    .ok (if s.groups.isEmpty then s.endLine else s)
  | .gap => .ok s
  | .joint => .ok { s with line := s.line + 1 }
  | .semicolon =>
    if s.groups.isEmpty then .ok s.endStatement else .error (.unexpectedCharacter ';' s.line)
  | .comma => s.comma
  | .dot => s.dot
  | .colon => if s.groups.isEmpty then s.openBlock else .ok (s.pushOp .colon false)
  | .opening shape =>
    let s := { s with member := false }.noteStart
    .ok { s with groups := ⟨shape,s.line,[]⟩ :: s.groups }
  | .closing c => s.closeGroup c
  | .str pieces stop => s.string lines pieces stop
  | .number literal float clean => s.number literal float clean
  | .word text => s.word (String.ofList text)
  | .lambda params closed => s.lambda params closed
  | .op o augmented => .ok (s.pushOp o augmented)
  | .stray c => .error (.unexpectedCharacter c s.line)

def finish (s : Scanner) : Except LexError (List Entry) :=
  match s.groups with
  | g :: _ => .error (.unclosedDelimiter g.shape.opening g.line)
  | [] =>
    let s := s.endLine
    match s.opener with
    | some o => .error (.expectedIndent o.line)
    | none => .ok s.entries.reverse

end Scanner

end EmbedScript
