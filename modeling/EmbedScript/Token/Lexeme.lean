import EmbedScript.Token
import EmbedScript.Token.Error
import EmbedScript.Text.Letter

/-!
Lexemes: what the next characters of a source spell. Whether a dot waits for a member name is all
that has to be known, because then a word is just a name.
-/

namespace EmbedScript

inductive Piece where
  | text (cs : List Char)
  | splice (source : List Char) (line : Nat)
  deriving Repr

inductive Lexeme where
  | newline
  | gap
  | joint
  | semicolon
  | comma
  | dot
  | colon
  | opening (shape : Shape)
  | closing (c : Char)
  | str (pieces : List Piece) (stop : Except LexError Nat)
  | number (literal : List Char) (float clean : Bool)
  | word (text : List Char)
  | lambda (params : List Char) (closed : Bool)
  | op (op : Op) (augmented : Bool)
  | stray (c : Char)

namespace Lexeme

def isNewline : Lexeme → Bool
  | newline => true
  | _ => false

-- Numbers

/-- The characters of a number from here on, whether a point or an exponent was among them, and
the rest. `float` tells that one was seen before. -/
def readNumber (float : Bool) : List Char → List Char × Bool × List Char
  | [] => ([],float,[])
  | c :: rest =>
    if c.isDigit || c == '_' then
      let (cs,f,after) := readNumber float rest
      (c :: cs,f,after)
    else if c == '.' && !float && rest.head?.all (!Text.isLetter ·) then
      let (cs,f,after) := readNumber true rest
      (c :: cs,f,after)
    else if c == 'e' || c == 'E' then
      match rest with
      | d :: tail =>
        if d.isDigit || d == '-' || d == '+' then
          let (cs,f,after) := readNumber true tail
          (c :: d :: cs,f,after)
        else ([],float,c :: d :: tail)
      | [] => ([],float,[c])
    else ([],float,c :: rest)

theorem readNumber_length (float : Bool) (cs : List Char) : (readNumber float cs).2.2.length ≤ cs.length := by
  fun_induction readNumber float cs <;> simp_all <;> omega

-- Words

def isWordStart (c : Char) : Bool := Text.isLetter c || c == '_'

def isWordChar (c : Char) : Bool := Text.isLetterOrNumeral c || c == '_'

theorem length_dropWhile_le (p : Char → Bool) (cs : List Char) : (cs.dropWhile p).length ≤ cs.length :=
  (List.dropWhile_sublist p).length_le

-- Strings

structure Quoting where
  quote : Char
  triple : Bool
  format : Bool
  raw : Bool
  line : Nat

def Quoting.unterminated (q : Quoting) : LexError :=
  if q.triple then .unterminatedDocString q.line else .unterminatedString q.line

/-- The expression's characters, last first, the line it starts on, and the brackets and the quote
open in it. -/
structure Splice where
  source : List Char
  line : Nat
  depth : Nat
  inner : Option Char

structure Reading where
  line : Nat
  text : List Char := []
  pieces : List Piece := []
  splice : Option Splice := none

def Reading.close (r : Reading) : List Piece := (.text r.text.reverse :: r.pieces).reverse

def Reading.add (r : Reading) (c : Char) : Reading := { r with text := c :: r.text }

def Reading.escape (r : Reading) (c : Char) : Reading :=
  if c == 'n' then r.add '\n'
  else if c == 'r' then r.add '\r'
  else if c == 't' then r.add '\t'
  else if c == '0' then r.add '\x00'
  else if c == '\\' || c == '\'' || c == '"' then r.add c
  else if c == '\n' then { r with line := r.line + 1 }
  else (r.add '\\').add c

def Splice.add (q : Quoting) (s : Splice) (c : Char) (next : Option Char) :
    Except LexError Splice :=
  let taken := { s with source := c :: s.source }
  match s.inner with
  | some quote => .ok (if c == quote then { taken with inner := none } else taken)
  | none =>
    if c == '(' || c == '[' || c == '\x7b' then .ok { taken with depth := s.depth + 1 }
    else if c == ')' || c == ']' || c == '\x7d' then .ok { taken with depth := s.depth - 1 }
    else if c == '"' || c == '\'' then
      if c == q.quote then
        .error (.invalidInterpolation "nested quotes must differ from the enclosing quote" s.line)
      else .ok { taken with inner := some c }
    else if (c == ':' || c == '!') && s.depth == 0 && next != some '=' then
      .error (.invalidInterpolation "format specifiers are not supported" s.line)
    else .ok taken

def readString (q : Quoting) (r : Reading) : List Char → List Piece × Except LexError Nat × List Char
  | [] =>
    match r.splice with
    | some s => (r.close,.error (.unterminatedString s.line),[])
    | none => (r.close,.error q.unterminated,[])
  | c :: rest =>
    match r.splice with
    | some s =>
      if c == '\n' then (r.close,.error (.unterminatedString s.line),rest)
      else if c == '\x7d' && s.depth == 0 && s.inner.isNone then
        readString q
          { line := r.line
            pieces := .splice s.source.reverse s.line :: .text r.text.reverse :: r.pieces }
          rest
      else match s.add q c rest.head? with
        | .error e => (r.close,.error e,rest)
        | .ok s => readString q { r with splice := some s } rest
    | none =>
      if c == q.quote then
        if !q.triple then (r.close,.ok r.line,rest)
        else match rest with
          | a :: b :: tail =>
            if a == q.quote && b == q.quote then (r.close,.ok r.line,tail)
            else readString q (r.add c) (a :: b :: tail)
          | rest => readString q (r.add c) rest
      else if c == '\n' && !q.triple then (r.close,.error (.unterminatedString q.line),rest)
      else if c == '\\' && !q.raw then
        match rest with
        | [] => (r.close,.error q.unterminated,[])
        | e :: tail => readString q (r.escape e) tail
      else if c == '\x7b' && q.format then
        match rest with
        | d :: tail =>
          if d == '\x7b' then readString q (r.add c) tail
          else readString q { r with splice := some ⟨[],r.line,0,none⟩ } (d :: tail)
        | [] => readString q { r with splice := some ⟨[],r.line,0,none⟩ } []
      else if c == '\x7d' && q.format then
        match rest with
        | d :: tail =>
          if d == '\x7d' then readString q (r.add c) tail else readString q (r.add c) (d :: tail)
        | [] => readString q (r.add c) []
      else readString q { r.add c with line := if c == '\n' then r.line + 1 else r.line } rest

theorem readString_length (q : Quoting) (r : Reading) (cs : List Char) :
    (readString q r cs).2.2.length ≤ cs.length := by
  fun_induction readString q r cs <;> simp_all <;> omega

def readLiteral (quote : Char) (format raw : Bool) (line : Nat) (rest : List Char) : Lexeme × List Char :=
  let (triple,body) := match rest with
    | a :: b :: tail => if a == quote && b == quote then (true,tail) else (false,rest)
    | _ => (false,rest)
  let (pieces,stop,after) := readString ⟨quote,triple,format,raw,line⟩ { line } body
  (.str pieces stop,after)

theorem readLiteral_length (quote : Char) (format raw : Bool) (line : Nat) (rest : List Char) :
    (readLiteral quote format raw line rest).2.length ≤ rest.length := by
  unfold readLiteral
  split
  rename_i triple body opened
  have read := readString_length ⟨quote,triple,format,raw,line⟩ { line } body
  have shorter : body.length ≤ rest.length := by
    split at opened
    · split at opened
      · obtain ⟨_,rfl⟩ := Prod.mk.inj opened
        simp only [List.length_cons]
        omega
      · obtain ⟨_,rfl⟩ := Prod.mk.inj opened
        exact Nat.le_refl _
    · obtain ⟨_,rfl⟩ := Prod.mk.inj opened
      exact Nat.le_refl _
  exact Nat.le_trans read shorter

-- Operators

def operators : List (String × Op × Bool) :=
  [("**=",.pow,true),("//=",.floorDiv,true),("<<=",.lshift,true),(">>=",.rshift,true),
    ("+=",.add,true),("->",.arrow,false),("-=",.sub,true),("**",.pow,false),
    ("*=",.mul,true),("//",.floorDiv,false),("/=",.div,true),("%=",.mod,true),
    ("<<",.lshift,false),("<=",.le,false),(">>",.rshift,false),(">=",.ge,false),
    ("==",.eq,false),("!=",.ne,false),("&=",.bitAnd,true),("^=",.bitXor,true),
    ("|=",.bitOr,true),("+",.add,false),("-",.sub,false),("*",.mul,false),
    ("/",.div,false),("%",.mod,false),("<",.lt,false),(">",.gt,false),
    ("=",.assign,false),("&",.bitAnd,false),("^",.bitXor,false),("|",.bitOr,false),
    ("~",.invert,false),("@",.cast,false)]

def operator? (c : Char) (rest : List Char) : Option (Op × Bool × List Char) :=
  (operators.find? fun o => o.1.toList.isPrefixOf (c :: rest)).map fun o =>
    (o.2.1,o.2.2,rest.drop (o.1.length - 1))

theorem operator?_length {c : Char} {rest : List Char} {o : Op} {augmented : Bool}
    {after : List Char} (spelled : operator? c rest = some (o,augmented,after)) :
    after.length ≤ rest.length := by
  obtain ⟨entry,_,same⟩ := Option.map_eq_some_iff.1 spelled
  obtain ⟨_,_,rfl⟩ := Prod.mk.inj same |>.imp id Prod.mk.inj
  simp

-- The next lexeme

def stringMark? (word : List Char) : Option (Bool × Bool) :=
  match word.map Char.toLower with
  | ['f'] => some (true,false)
  | ['r'] => some (false,true)
  | ['r','f'] | ['f','r'] => some (true,true)
  | _ => none

def readLambda (rest : List Char) : Lexeme × List Char :=
  let params := rest.takeWhile fun c => c != ':' && c != '\n'
  match rest.dropWhile fun c => c != ':' && c != '\n' with
  | ':' :: after => (.lambda params true,after)
  | after => (.lambda params false,after)

theorem readLambda_length (rest : List Char) : (readLambda rest).2.length ≤ rest.length := by
  have short := length_dropWhile_le (fun c : Char => c != ':' && c != '\n') rest
  unfold readLambda
  simp only
  split
  · rename_i after found
    rw [found] at short
    exact Nat.le_of_succ_le short
  · exact short

def readWord (member : Bool) (line : Nat) (text rest : List Char) : Lexeme × List Char :=
  if member then (.word text,rest)
  else if text == "lambda".toList then readLambda rest
  else match rest, stringMark? text with
    | quote :: tail, some (format,raw) =>
      if quote == '"' || quote == '\'' then readLiteral quote format raw line tail
      else (.word text,rest)
    | _, _ => (.word text,rest)

theorem readWord_length (member : Bool) (line : Nat) (text rest : List Char) :
    (readWord member line text rest).2.length ≤ rest.length := by
  unfold readWord
  split
  · exact Nat.le_refl _
  split
  · exact readLambda_length rest
  split
  · split
    · exact Nat.le_succ_of_le (readLiteral_length ..)
    · exact Nat.le_refl _
  · exact Nat.le_refl _

def single? (c : Char) : Option Lexeme :=
  match c with
  | '\n' => some .newline
  | ' ' | '\t' | '\r' => some .gap
  | ';' => some .semicolon
  | ',' => some .comma
  | '.' => some .dot
  | ':' => some .colon
  | '(' => some (.opening .paren)
  | '[' => some (.opening .bracket)
  | '\x7b' => some (.opening .brace)
  | ')' | ']' | '\x7d' => some (.closing c)
  | _ => none

def read (member : Bool) (line : Nat) (c : Char) (rest : List Char) : Lexeme × List Char :=
  match single? c with
  | some lexeme => (lexeme,rest)
  | none =>
    if c == '#' then (.gap,rest.dropWhile (· != '\n'))
    else if c == '\\' && rest.head? == some '\n' then (.joint,rest.drop 1)
    else if c == '"' || c == '\'' then readLiteral c false false line rest
    else if c.isDigit then
      let (cs,float,after) := readNumber false rest
      (.number (c :: cs) float (!after.head?.any isWordStart),after)
    else if isWordStart c then
      readWord member line (c :: rest.takeWhile isWordChar) (rest.dropWhile isWordChar)
    else match operator? c rest with
      | some (o,augmented,after) => (.op o augmented,after)
      | none => (.stray c,rest)

theorem read_length (member : Bool) (line : Nat) (c : Char) (rest : List Char) :
    (read member line c rest).2.length ≤ rest.length := by
  unfold read
  split
  · exact Nat.le_refl _
  split
  · exact length_dropWhile_le _ _
  split
  · simp
  split
  · exact readLiteral_length ..
  split
  · exact readNumber_length false rest
  split
  · exact Nat.le_trans (readWord_length ..) (length_dropWhile_le _ _)
  split
  · exact operator?_length ‹_›
  · exact Nat.le_refl _

end Lexeme

end EmbedScript
