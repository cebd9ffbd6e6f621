import EmbedScript.Text.Letter
import EmbedScript.Text.Case

namespace EmbedScript.Text

def trimStart (drop : Char → Bool) (cs : List Char) : List Char := cs.dropWhile drop

def trimEnd (drop : Char → Bool) (cs : List Char) : List Char := (cs.reverse.dropWhile drop).reverse

def trim (drop : Char → Bool) (cs : List Char) : List Char := trimEnd drop (trimStart drop cs)

def trimmed (s : String) : String := String.ofList (trim isBlank s.toList)

/-- The words not yet closed stand in `word`, last character first. -/
def wordsFrom (word : List Char) : List Char → List (List Char)
  | [] => if word.isEmpty then [] else [word.reverse]
  | c :: rest =>
    if isBlank c then
      if word.isEmpty then wordsFrom [] rest else word.reverse :: wordsFrom [] rest
    else wordsFrom (c :: word) rest

def words (cs : List Char) : List (List Char) := wordsFrom [] cs

/-- `line` holds the current line, last character first. A carriage return directly before the
line feed belongs to the line's end. -/
def linesFrom (line : List Char) : List Char → List (List Char)
  | [] => if line.isEmpty then [] else [line.reverse]
  | '\n' :: rest =>
    let line := match line with
      | '\r' :: before => before
      | line => line
    line.reverse :: linesFrom [] rest
  | c :: rest => linesFrom (c :: line) rest

def lines (cs : List Char) : List (List Char) := linesFrom [] cs

def titleFrom (atStart : Bool) : List Char → List Char
  | [] => []
  | c :: rest =>
    if isLetter c then (if atStart then upperChar c else lowerChar c) ++ titleFrom false rest
    else c :: titleFrom true rest

def title (s : String) : String := String.ofList (titleFrom true s.toList)

inductive Align where
  | left
  | right
  | center
  deriving DecidableEq

/-- Fills up to `width` characters. A centred text has the odd one out behind it. -/
def pad (text : List Char) (width : Int) (fill : Char) (align : Align) : List Char :=
  let missing := (width - text.length).toNat
  match align with
  | .left => text ++ List.replicate missing fill
  | .right => List.replicate missing fill ++ text
  | .center => List.replicate (missing / 2) fill ++ text ++ List.replicate (missing - missing / 2) fill

end EmbedScript.Text
