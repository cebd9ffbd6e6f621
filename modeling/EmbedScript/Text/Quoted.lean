import EmbedScript.Text.Visible

/-!
Two quoted forms of a text: `quoted` for values, `escaped` for syntax errors.
-/

namespace EmbedScript.Text

def quoteFor (cs : List Char) : Char :=
  if cs.contains '\'' && !cs.contains '"' then '"' else '\''

def quotedChar (quote c : Char) : List Char :=
  if c == '\\' then ['\\','\\']
  else if c == '\n' then ['\\','n']
  else if c == '\r' then ['\\','r']
  else if c == '\t' then ['\\','t']
  else if c == quote then ['\\',c]
  else [c]

def quoted (s : String) : String :=
  let quote := quoteFor s.toList
  String.ofList (quote :: s.toList.flatMap (quotedChar quote) ++ [quote])

def escapedChar (c : Char) : List Char :=
  if c == '\x00' then ['\\','0']
  else if c == '\t' then ['\\','t']
  else if c == '\r' then ['\\','r']
  else if c == '\n' then ['\\','n']
  else if c == '\\' || c == '"' then ['\\',c]
  else if isExtender c || isHidden c then
    ['\\','u','\x7b'] ++ Nat.toDigits 16 c.toNat ++ ['\x7d']
  else [c]

def escaped (s : String) : String := String.ofList ('"' :: s.toList.flatMap escapedChar ++ ['"'])

end EmbedScript.Text
