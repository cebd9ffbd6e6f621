/-!
Searching, splitting and replacing in texts, on lists of characters. Occurrences are taken from
left to right and never overlap.
-/

namespace EmbedScript.Text

def cut? (pat : List Char) : List Char → Option (List Char × List Char)
  | [] => if pat.isEmpty then some ([],[]) else none
  | c :: rest =>
    if pat.isPrefixOf (c :: rest) then some ([],(c :: rest).drop pat.length)
    else (cut? pat rest).map fun (before,after) => (c :: before,after)

def find? (pat text : List Char) : Option Nat := (cut? pat text).map fun (before,_) => before.length

def occursIn (pat text : List Char) : Bool := (cut? pat text).isSome

/-- `skip` counts the characters of an occurrence still to pass over, `piece` holds the current
piece, last character first. -/
def splitFrom (pat : List Char) (limit : Option Nat) (skip : Nat) (piece : List Char) :
    List Char → List (List Char)
  | [] => [piece.reverse]
  | c :: rest =>
    match skip with
    | skip + 1 => splitFrom pat limit skip piece rest
    | 0 =>
      if limit != some 0 && pat.isPrefixOf (c :: rest) then
        piece.reverse :: splitFrom pat (limit.map (· - 1)) (pat.length - 1) [] rest
      else splitFrom pat limit 0 (c :: piece) rest

def split (pat text : List Char) (limit : Option Nat) : List (List Char) := splitFrom pat limit 0 [] text

def joinWith (sep : List Char) : List (List Char) → List Char
  | [] => []
  | [piece] => piece
  | piece :: rest => piece ++ sep ++ joinWith sep rest

def insertBetween (new : List Char) (limit : Option Nat) : List Char → List Char
  | [] => if limit == some 0 then [] else new
  | c :: rest =>
    if limit == some 0 then c :: rest
    else new ++ c :: insertBetween new (limit.map (· - 1)) rest

def replace (old new text : List Char) (limit : Option Nat) : List Char :=
  if old.isEmpty then insertBetween new limit text
  else joinWith new (split old text limit)

def countOf (pat text : List Char) : Nat :=
  if pat.isEmpty then text.length + 1 else (split pat text none).length - 1

end EmbedScript.Text
