import EmbedScript.Text.CaseTable
import EmbedScript.Text.Visible

/-!
Upper and lower case. A capital sigma at the end of a word becomes the final small sigma.
-/

namespace EmbedScript.Text

def Run.covers (r : Run) (n : Nat) : Bool := r.first ≤ n && n ≤ r.last && (n - r.first) % r.stride == 0

def otherCase (long : Array (Nat × List Nat)) (runs : Array Run) (c : Char) : List Char :=
  match long.find? (·.1 == c.toNat) with
  | some (_,codes) => codes.map Char.ofNat
  | none =>
    match runs.find? (·.covers c.toNat) with
    | some r => [Char.ofNat (c.toNat + r.offset).toNat]
    | none => [c]

def upperChar (c : Char) : List Char :=
  if c.toNat < 128 then [c.toUpper] else otherCase upperLong upperRuns c

def lowerChar (c : Char) : List Char :=
  if c.toNat < 128 then [c.toLower] else otherCase lowerLong lowerRuns c

def isCased (c : Char) : Bool := c.isAlpha || inRanges casedRanges c

def isPassed (c : Char) : Bool := isExtender c != inRanges passedRanges c

def meetsCased (cs : List Char) : Bool :=
  match cs.dropWhile isPassed with
  | [] => false
  | c :: _ => isCased c

def upper (s : String) : String := String.ofList (s.toList.flatMap upperChar)

def lowerFrom (before : List Char) : List Char → List Char
  | [] => []
  | c :: rest =>
    let here :=
      if c == 'Σ' then
        if meetsCased before && !meetsCased rest then ['ς'] else ['σ']
      else lowerChar c
    here ++ lowerFrom (c :: before) rest

def lower (s : String) : String := String.ofList (lowerFrom [] s.toList)

def capitalize (s : String) : String :=
  match s.toList with
  | [] => ""
  | c :: rest => String.ofList (upperChar c ++ rest.flatMap lowerChar)

end EmbedScript.Text
