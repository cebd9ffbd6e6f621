import EmbedScript.Host.Container

namespace EmbedScript

open Exec

def newBuilder (receiver : Value) (text : String) : Exec Value :=
  match receiver with
  | .type key => newNative key (.builder text "\n")
  | _ => fail (.type "StringBuilder() needs its type")

def insertText (text : String) (index : Int64) (piece : String) : String :=
  let cs := text.toList
  let position := insertPosition index cs.length
  String.ofList (cs.take position ++ piece.toList ++ cs.drop position)

def Engine.performBuilder (k : Engine) (action : BuilderAction) (receiver : Value)
    (arguments : List Value) : Exec Value := do
  match action with
  | .empty => newBuilder receiver ""
  | .ofText => newBuilder receiver (← k.str (← argument arguments 0))
  | .append =>
    let piece ← k.str (← argument arguments 0)
    let (r,text,newline) ← builder receiver
    setNative r (.builder (text ++ piece) newline)
    return receiver
  | .appendLine =>
    let piece ← k.str (← argument arguments 0)
    let (r,text,newline) ← builder receiver
    setNative r (.builder (text ++ piece ++ newline) newline)
    return .none
  | .insert =>
    let index ← intArgument arguments 0
    let piece ← textArgument arguments 1
    let (r,text,newline) ← builder receiver
    setNative r (.builder (insertText text index piece) newline)
    return .none
  | .clear =>
    let (r,_,newline) ← builder receiver
    setNative r (.builder "" newline)
    return .none
  | .text => return .str (← builder receiver).2.1
  | .length => return .int (Word.wrap (← builder receiver).2.1.length)
  | .drain =>
    match ← argument arguments 0 with
    | .list target =>
      let (r,text,newline) ← builder receiver
      setNative r (.builder "" newline)
      modifyList target (·.push (.str text))
      return .none
    | _ => fail (.type "drain_into(ref list) expected")

def performTally (action : TallyAction) (receiver : Value) (arguments : List Value) :
    Exec Value := do
  match action with
  | .start =>
    let count ← intArgument arguments 0
    newNative "Tally" (.tally count "none")
  | .bump =>
    let (r,count,label) ← tally receiver
    setNative r (.tally (count + 1) label)
    return .none
  | .bumpBy =>
    let (r,count,label) ← tally receiver
    setNative r (.tally (count + (← intArgument arguments 0)) label)
    return .none
  | .scale =>
    let (_,count,_) ← tally receiver
    let factor ← argument arguments 0
    return .float (count.toFloat * factor.asFloat?.getD 0.0)
  | .getItem =>
    let (_,count,_) ← tally receiver
    return .int (count + (← intArgument arguments 0))
  | .setItem =>
    let (r,_,label) ← tally receiver
    setNative r (.tally (← intArgument arguments 1) label)
    return .none
  | .contains =>
    let (_,count,_) ← tally receiver
    return .bool (count == (← intArgument arguments 0))
  | .call =>
    let (_,count,_) ← tally receiver
    return .int (count - (← intArgument arguments 0))
  | .text =>
    let (_,count,_) ← tally receiver
    return .str s!"Tally<{Word.text count}>"
  | .describe => return .str "counts things"

end EmbedScript
