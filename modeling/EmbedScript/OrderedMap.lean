/-!
Maps that remember the order of insertion.

A key that is written again keeps its position; removing a key keeps the order of the others.
-/

namespace EmbedScript

structure OrderedMap (κ α : Type) where
  entries : Array (κ × α) := #[]

namespace OrderedMap

variable {κ α : Type} [BEq κ]

def empty : OrderedMap κ α := {}

def size (m : OrderedMap κ α) : Nat := m.entries.size

def isEmpty (m : OrderedMap κ α) : Bool := m.entries.isEmpty

def toList (m : OrderedMap κ α) : List (κ × α) := m.entries.toList

def keys (m : OrderedMap κ α) : List κ := m.toList.map (·.1)

def values (m : OrderedMap κ α) : List α := m.toList.map (·.2)

def get? (m : OrderedMap κ α) (key : κ) : Option α := (m.entries.find? (·.1 == key)).map (·.2)

def contains (m : OrderedMap κ α) (key : κ) : Bool := m.entries.any (·.1 == key)

def insert (m : OrderedMap κ α) (key : κ) (value : α) : OrderedMap κ α :=
  match m.entries.findIdx? (·.1 == key) with
  | some i => ⟨m.entries.modify i fun (k,_) => (k,value)⟩
  | none => ⟨m.entries.push (key,value)⟩

def insertNew (m : OrderedMap κ α) (key : κ) (value : α) : OrderedMap κ α :=
  if m.contains key then m else ⟨m.entries.push (key,value)⟩

def erase (m : OrderedMap κ α) (key : κ) : OrderedMap κ α :=
  match m.entries.findIdx? (·.1 == key) with
  | some i => ⟨m.entries.eraseIdxIfInBounds i⟩
  | none => m

def filterKeys (m : OrderedMap κ α) (keep : κ → Bool) : OrderedMap κ α :=
  ⟨m.entries.filter fun (k,_) => keep k⟩

def insertAll (m other : OrderedMap κ α) : OrderedMap κ α :=
  other.entries.foldl (fun m (k,v) => m.insert k v) m

def ofList (entries : List (κ × α)) : OrderedMap κ α := entries.foldl (fun m (k,v) => m.insert k v) {}

def sameKeys (m other : OrderedMap κ α) : Bool :=
  m.size == other.size && m.entries.all fun (k,_) => other.contains k

def within (m other : OrderedMap κ α) : Bool := m.entries.all fun (k,_) => other.contains k

end OrderedMap

end EmbedScript
