import EmbedScript.Engine

namespace EmbedScript

open Exec

structure Frame where
  base : Nat
  captures : Array (Ref .cell)
  home : Ref .module

namespace Frame

def cell (f : Frame) : CellAt → Ref .cell
  | .slot index => ⟨f.base + index⟩
  | .capture index => f.captures[index]?.getD ⟨0⟩

def captured (f : Frame) (places : List CellAt) : Array (Ref .cell) := (places.map f.cell).toArray

def global? (f : Frame) (name : String) : Exec (Option Value) :=
  heap fun h => (h.module f.home).globals.get? name

def readGlobal (f : Frame) (name : String) : Exec Value := do
  match ← f.global? name with
  | some v => return v
  | none => fail (.name name)

def readSlot (f : Frame) (index : Nat) (name : String) (inClass : Bool) : Exec Value := do
  match ← heap (·.cell (f.cell (.slot index))) with
  | some v => return v
  | none =>
    match inClass, ← f.global? name with
    | true, some v => return v
    | _, _ => fail (.unboundLocal name)

def readCaptured (f : Frame) (index : Nat) (name : String) : Exec Value := do
  match ← heap (·.cell (f.cell (.capture index))) with
  | some v => return v
  | none => fail (.name name)

end Frame

def newFrame (slots : Nat) (captures : Array (Ref .cell)) (home : Ref .module) : Exec Frame :=
  return { base := ← newCells slots, captures, home }

inductive Flow where
  | next
  | returns (value : Value)
  | breaks
  | continues

end EmbedScript
