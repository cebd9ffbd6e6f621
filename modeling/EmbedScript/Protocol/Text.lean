import EmbedScript.Number.Decimal
import EmbedScript.Protocol.Attribute
import EmbedScript.Text.Quoted

/-!
The text of values, as `str` and `repr` give it.

A container that holds itself is cut short where it would be shown again.
-/

namespace EmbedScript

open Exec

def Range.text (r : Range) : String :=
  let ends := s!"{Word.text r.start}, {Word.text r.stop}"
  if r.step == 1 then s!"range({ends})" else s!"range({ends}, {Word.text r.step})"

namespace Exec

def showingList (r : Ref .list) (x : Exec String) : Exec String := do
  if (← look (·.shownLists)).contains r then return "[...]"
  modify fun w => { w with shownLists := r :: w.shownLists }
  restoring (fun w => { w with shownLists := w.shownLists.erase r }) x

def showingDict (r : Ref .dict) (x : Exec String) : Exec String := do
  if (← look (·.shownDicts)).contains r then return "\x7b...\x7d"
  modify fun w => { w with shownDicts := r :: w.shownDicts }
  restoring (fun w => { w with shownDicts := w.shownDicts.erase r }) x

end Exec

def inBraces (text : String) : String := "\x7b" ++ text ++ "\x7d"

def Heap.plainText (h : Heap) : Value → String
  | .none => "None"
  | .nil _ _ key name _ => s!"<nil {key}.{name}>"
  | .bool b => if b then "True" else "False"
  | .int n => Word.text n
  | .float x => Decimal.text x
  | .str text => Text.quoted text
  | .range r => r.text
  | .function f => s!"<function {(h.function f).qualname}>"
  | .cls r => s!"<class '{(h.cls r).name}'>"
  | .super _ r _ => s!"<super: <class '{(h.cls r).name}'>>"
  | .type key => s!"<class '{key}'>"
  | .module r => s!"<module '{(h.module r).name}'>"
  | .generator _ => "<generator object>"
  | .iterator _ => "<iterator object>"
  | .native _ key => s!"<{key} object>"
  | _ => ""

namespace Engine

def hookText (k : Engine) (v : Value) (name : String) : Exec String := do
  match ← k.callMethod v name [] with
  | .str text => return text
  | other =>
    let found ← typeName other
    fail (.type s!"{name} returned non-string (type {found})")

def textFrom (k : Engine) : (fuel : Nat) → (plain : Bool) → Value → Exec String
  | 0, _, _ => stop .outOfFuel
  | fuel + 1, plain, v => do
    let joined (items : List Value) : Exec String := do
      return ", ".intercalate (← items.mapM (k.textFrom fuel false))
    match v with
    | .str text => return if plain then text else Text.quoted text
    | .object .. => k.hookText v (if plain then "__str__" else "__repr__")
    | .native .. =>
      let shown ← if plain then k.hostHook v "__str__" [] else pure none
      match shown with
      | some text => k.textFrom fuel true text
      | none =>
        match ← k.hostHook v "__repr__" [] with
        | some text => k.textFrom fuel true text
        | none => heap (·.plainText v)
    | .list r => showingList r do
      let text ← joined (← heap fun h => (h.list r).toList)
      return s!"[{text}]"
    | .tuple _ [item] =>
      let text ← k.textFrom fuel false item
      return s!"({text},)"
    | .tuple _ items =>
      let text ← joined items
      return s!"({text})"
    | .dict r => showingDict r do
      let entries ← (← heap fun h => (h.dict r).items).mapM fun (key,value) => do
        let key ← k.textFrom fuel false key
        let value ← k.textFrom fuel false value
        return s!"{key}: {value}"
      return inBraces (", ".intercalate entries)
    | .set r =>
      match ← heap fun h => (h.set r).values with
      | [] => return "set()"
      | items => return inBraces (← joined items)
    | .keyword _ name value =>
      let value ← k.textFrom fuel false value
      return s!"{name}={value}"
    | .method _ receiver f =>
      let receiver ← k.textFrom fuel false receiver
      let name ← heap fun h => (h.function f).qualname
      return s!"<bound method {name} of {receiver}>"
    | _ => heap (·.plainText v)

def repr (k : Engine) (v : Value) : Exec String := k.textFrom k.fuel false v

def str (k : Engine) (v : Value) : Exec String := k.textFrom k.fuel true v

end Engine

end EmbedScript
