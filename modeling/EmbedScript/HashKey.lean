import EmbedScript.Fault
import EmbedScript.Number.Double
import EmbedScript.OrderedMap
import EmbedScript.Value

/-!
Keys of dicts and members of sets. Equal numbers share one key, containers that can change have
none, and all else is told apart by identity.
-/

namespace EmbedScript

inductive KeyAtom where
  | none
  | int (value : Int64)
  | float (bits : UInt64)
  | str (text : String)
  | type (key : String)
  | identity (typeKey : String) (id : Nat)
  deriving DecidableEq, Repr

inductive HashKey where
  | atom (atom : KeyAtom)
  | tuple (items : List HashKey)
  deriving Repr

namespace HashKey

mutual

def decEq : (a b : HashKey) → Decidable (a = b)
  | atom a, atom b =>
    if h : a = b then isTrue (by rw [h]) else isFalse (by intro e; injection e; contradiction)
  | tuple as, tuple bs =>
    match decEqs as bs with
    | isTrue h => isTrue (by rw [h])
    | isFalse h => isFalse (by intro e; injection e; contradiction)
  | atom _, tuple _ => isFalse (by intro e; injection e)
  | tuple _, atom _ => isFalse (by intro e; injection e)

def decEqs : (as bs : List HashKey) → Decidable (as = bs)
  | [], [] => isTrue rfl
  | [], _ :: _ => isFalse (by intro e; injection e)
  | _ :: _, [] => isFalse (by intro e; injection e)
  | a :: as, b :: bs =>
    match decEq a b, decEqs as bs with
    | isTrue h, isTrue h' => isTrue (by rw [h,h'])
    | isFalse h, _ => isFalse (by intro e; injection e; contradiction)
    | _, isFalse h => isFalse (by intro e; injection e; contradiction)

end

instance : DecidableEq HashKey := decEq

def wholeLimit : Float := 9.2e18

mutual

def ofValue : Value → Except Fault HashKey
  | .none => .ok (atom .none)
  | .bool b => .ok (atom (.int (if b then 1 else 0)))
  | .int n => .ok (atom (.int n))
  | .float x =>
    if Double.isWhole x && x.abs < wholeLimit then .ok (atom (.int x.toInt64))
    else .ok (atom (.float x.toBits))
  | .str text => .ok (atom (.str text))
  | .tuple _ items => do return tuple (← ofValues items)
  | .type key => .ok (atom (.type key))
  | .list _ => .error (.unhashable "list")
  | .dict _ => .error (.unhashable "dict")
  | .set _ => .error (.unhashable "set")
  | .range _ => .ok (atom (.identity "" 0))
  | .keyword tag _ _ => .ok (atom (.identity "keyword" tag))
  | .function r => .ok (atom (.identity "function" r.id))
  | .method tag _ _ => .ok (atom (.identity "method" tag))
  | .cls r => .ok (atom (.identity "class" r.id))
  | .object r _ => .ok (atom (.identity "object" r.id))
  | .super tag _ _ => .ok (atom (.identity "super" tag))
  | .module r => .ok (atom (.identity "module" r.id))
  | .generator r => .ok (atom (.identity "generator" r.id))
  | .iterator r => .ok (atom (.identity "iterator" r.id))
  | .native r _ => .ok (atom (.identity "native" r.id))
  | .nil tag _ _ _ _ => .ok (atom (.identity "nil" tag))

def ofValues : List Value → Except Fault (List HashKey)
  | [] => .ok []
  | v :: vs => do return (← ofValue v) :: (← ofValues vs)

end

end HashKey

/-- Entries in order of insertion; each keeps the key it was first written with. -/
structure Dict where
  entries : OrderedMap HashKey (Value × Value) := {}

namespace Dict

def size (d : Dict) : Nat := d.entries.size

def isEmpty (d : Dict) : Bool := d.entries.isEmpty

def items (d : Dict) : List (Value × Value) := d.entries.values

def keys (d : Dict) : List Value := d.items.map (·.1)

def values (d : Dict) : List Value := d.items.map (·.2)

def insertAt (d : Dict) (hash : HashKey) (key value : Value) : Dict :=
  match d.entries.get? hash with
  | some (first,_) => ⟨d.entries.insert hash (first,value)⟩
  | none => ⟨d.entries.insert hash (key,value)⟩

def insert (d : Dict) (key value : Value) : Except Fault Dict := do
  return d.insertAt (← HashKey.ofValue key) key value

def get? (d : Dict) (key : Value) : Except Fault (Option Value) := do
  return (d.entries.get? (← HashKey.ofValue key)).map (·.2)

def contains (d : Dict) (key : Value) : Except Fault Bool := do
  return d.entries.contains (← HashKey.ofValue key)

def remove (d : Dict) (key : Value) : Except Fault (Option Value × Dict) := do
  let hash ← HashKey.ofValue key
  return ((d.entries.get? hash).map (·.2),⟨d.entries.erase hash⟩)

def insertItems (d : Dict) (items : List (Value × Value)) : Except Fault Dict :=
  items.foldlM (fun d (k,v) => d.insert k v) d

def ofNames (entries : List (String × Value)) : Dict :=
  entries.foldl (fun d (name,v) => d.insertAt (.atom (.str name)) (.str name) v) {}

end Dict

/-- Members in order of insertion; an equal later item replaces the stored one in its place. -/
abbrev ValueSet := OrderedMap HashKey Value

namespace ValueSet

def add (s : ValueSet) (item : Value) : Except Fault ValueSet := do
  return s.insert (← HashKey.ofValue item) item

def ofValues (items : List Value) : Except Fault ValueSet := items.foldlM ValueSet.add {}

def has (s : ValueSet) (item : Value) : Except Fault Bool := do
  return s.contains (← HashKey.ofValue item)

end ValueSet

end EmbedScript
