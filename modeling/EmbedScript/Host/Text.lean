import EmbedScript.Host.Format
import EmbedScript.Protocol.Iteration
import EmbedScript.Text.Search

namespace EmbedScript

open Exec

def CharClass.holds : CharClass → Char → Bool
  | .digit => Text.isNumeral
  | .alpha => Text.isLetter
  | .alnum => Text.isLetterOrNumeral
  | .space => Text.isBlank

def Ends.strip (ends : Ends) (drop : Char → Bool) (cs : List Char) : List Char :=
  match ends with
  | .left => Text.trimStart drop cs
  | .right => Text.trimEnd drop cs
  | .both => Text.trim drop cs

def textList (pieces : List (List Char)) : Exec Value :=
  newList (pieces.map fun cs => .str (String.ofList cs))

def splitText (text separator : String) (limit : Option Nat) : Exec Value :=
  if separator.isEmpty then fail (.value "empty separator")
  else textList (Text.split separator.toList text.toList limit)

def limitOf (n : Int64) : Option Nat := if n < 0 then none else some n.toInt.toNat

/-- Zeros are filled in behind a sign. A width that has no room to leave out the sign breaks
down. -/
def zeroFill (text : String) (width : Int64) : Exec Value := do
  let (sign,digits) := match text.toList with
    | '-' :: digits => (['-'],digits)
    | '+' :: digits => (['+'],digits)
    | digits => ([],digits)
  match Word.sub? width (Word.wrap sign.length) with
  | none => stop .crash
  | some width => return .str (String.ofList (sign ++ Text.pad digits width.toInt '0' .right))

def joinedTexts (index : Nat) : List Value → Exec (List (List Char))
  | [] => return []
  | .str text :: items => return text.toList :: (← joinedTexts (index + 1) items)
  | other :: _ => do
    let found ← typeName other
    fail (.type s!"sequence item {index}: expected str instance, {found} found")

def receiverText (receiver : Value) : Exec String := do
  match receiver with
  | .str text => return text
  | _ => wrongReceiver "str" receiver

def Engine.performText (k : Engine) (action : TextAction) (receiver : Value)
    (arguments : List Value) : Exec Value := do
  match action with
  | .empty => return .str ""
  | .ofValue => return .str (← k.str (← argument arguments 0))
  | action =>
    let text ← receiverText receiver
    match action with
    | .empty => return .str ""
    | .ofValue => return .str text
    | .upper => return .str (Text.upper text)
    | .lower => return .str (Text.lower text)
    | .capitalize => return .str (Text.capitalize text)
    | .title => return .str (Text.title text)
    | .strip ends => return .str (String.ofList (ends.strip Text.isBlank text.toList))
    | .stripChars ends =>
      let drop := (← textArgument arguments 0).toList
      return .str (String.ofList (ends.strip drop.contains text.toList))
    | .splitWords => textList (Text.words text.toList)
    | .split => splitText text (← textArgument arguments 0) none
    | .splitLimit =>
      let separator ← textArgument arguments 0
      splitText text separator (limitOf (← intArgument arguments 1))
    | .splitLines => textList (Text.lines text.toList)
    | .join =>
      let items ← k.items (← argument arguments 0)
      return .str (String.ofList (Text.joinWith text.toList (← joinedTexts 0 items)))
    | .replace =>
      let old ← textArgument arguments 0
      let new ← textArgument arguments 1
      return .str (String.ofList (Text.replace old.toList new.toList text.toList none))
    | .replaceLimit =>
      let limit := limitOf (← intArgument arguments 2)
      let old ← textArgument arguments 0
      let new ← textArgument arguments 1
      return .str (String.ofList (Text.replace old.toList new.toList text.toList limit))
    | .startsWith =>
      return .bool ((← textArgument arguments 0).toList.isPrefixOf text.toList)
    | .endsWith =>
      return .bool ((← textArgument arguments 0).toList.isSuffixOf text.toList)
    | .find =>
      match Text.find? (← textArgument arguments 0).toList text.toList with
      | some index => return .int (Word.wrap index)
      | none => return .int (-1)
    | .count =>
      return .int (Word.wrap (Text.countOf (← textArgument arguments 0).toList text.toList))
    | .test chars => return .bool (!text.isEmpty && text.toList.all chars.holds)
    | .zfill => zeroFill text (← intArgument arguments 0)
    | .justify align =>
      let width ← intArgument arguments 0
      return .str (String.ofList (Text.pad text.toList width.toInt ' ' align))
    | .format => return .str (← k.formatTemplate text arguments)

end EmbedScript
