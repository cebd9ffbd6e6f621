import EmbedScript.Exec

namespace EmbedScript

namespace Exec

def wrongReceiver {α : Type} (expected : String) (found : Value) : Exec α := do
  fail (.wrongReceiver expected (← typeName found))

def builder (receiver : Value) : Exec (Ref .native × String × String) := do
  match receiver with
  | .native r _ =>
    match ← heap (·.native r) with
    | .builder text newline => return (r,text,newline)
    | .tally .. => wrongReceiver "StringBuilder" receiver
  | _ => wrongReceiver "StringBuilder" receiver

def notTally : Fault := .type "expected a Tally"

def tally (receiver : Value) : Exec (Ref .native × Int64 × String) := do
  match receiver with
  | .native r _ =>
    match ← heap (·.native r) with
    | .tally count label => return (r,count,label)
    | .builder .. => fail notTally
  | _ => fail notTally

def range (receiver : Value) : Exec Range := do
  match receiver with
  | .range r => return r
  | _ => wrongReceiver "range" receiver

end Exec

open Exec

def Access.read (access : Access) (receiver : Value) : Exec Value := do
  match access with
  | .self => return receiver
  | .zero => return .int 0
  | .rangeStart => return .int (← range receiver).start
  | .rangeStop => return .int (← range receiver).stop
  | .rangeStep => return .int (← range receiver).step
  | .builderLength => return .int (Word.wrap (← builder receiver).2.1.length)
  | .builderNewline => return .str (← builder receiver).2.2
  | .tallyCount => return .int (← tally receiver).2.1
  | .tallyLabel => return .str (← tally receiver).2.2

def Access.write (access : Access) (receiver : Value) (text : String) : Exec Unit := do
  match access with
  | .builderNewline =>
    let (r,content,_) ← builder receiver
    setNative r (.builder content text)
  | .tallyLabel =>
    let (r,count,_) ← tally receiver
    setNative r (.tally count text)
  | _ => return ()

def HostProperty.assign (p : HostProperty) (receiver value : Value) : Exec Unit := do
  if !p.writable then
    let typeName ← typeName receiver
    fail (.attribute s!"attribute '{p.name}' of '{typeName}' objects is not writable")
  if !p.kind.accepts value then
    let found ← typeName value
    fail (.type s!"'{p.name}' expects {p.kind.name}, got {found}")
  p.access.write receiver (value.asStr?.getD "")

end EmbedScript
