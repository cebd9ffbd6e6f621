import EmbedScript.Heap

/-!
Plain data: trees of `None`, booleans, integers, texts, lists, tuples, sets and dicts. `Shows h v d`
reads a value as a tree, so the value holds no cycle, though parts of it may be shared.
-/

namespace EmbedScript

open HashKey

mutual

inductive Datum where
  | none
  | bool (value : Bool)
  | int (value : Int64)
  | str (text : String)
  | list (items : List Datum)
  | tuple (items : List Datum)
  | set (items : List Datum)
  | dict (entries : List Binding)

inductive Binding where
  | mk (key value : Datum)

end

namespace Binding

def key : Binding → Datum
  | mk k _ => k

def value : Binding → Datum
  | mk _ v => v

end Binding

namespace Datum

mutual

def depth : Datum → Nat
  | .list ds => depths ds + 1
  | .tuple ds => depths ds + 1
  | .set ds => depths ds + 1
  | .dict es => depthsOf es + 1
  | _ => 0

def depths : List Datum → Nat
  | [] => 0
  | d :: ds => max d.depth (depths ds)

def depthsOf : List Binding → Nat
  | [] => 0
  | .mk k v :: es => max (max k.depth v.depth) (depthsOf es)

end

mutual

def key? : Datum → Option HashKey
  | .none => some (.atom .none)
  | .bool b => some (.atom (.int (if b then 1 else 0)))
  | .int n => some (.atom (.int n))
  | .str text => some (.atom (.str text))
  | .tuple ds => (keys? ds).map .tuple
  | .list _ => Option.none
  | .set _ => Option.none
  | .dict _ => Option.none

def keys? : List Datum → Option (List HashKey)
  | [] => some []
  | d :: ds => d.key?.bind fun key => (keys? ds).map (key :: ·)

end

mutual

def All (p : Datum → Prop) : Datum → Prop
  | .list ds => p (.list ds) ∧ Each p ds
  | .tuple ds => p (.tuple ds) ∧ Each p ds
  | .set ds => p (.set ds) ∧ Each p ds
  | .dict es => p (.dict es) ∧ EachOf p es
  | d => p d

def Each (p : Datum → Prop) : List Datum → Prop
  | [] => True
  | d :: ds => d.All p ∧ Each p ds

def EachOf (p : Datum → Prop) : List Binding → Prop
  | [] => True
  | .mk k v :: es => (k.All p ∧ v.All p) ∧ EachOf p es

end

def Distinct (ds : List Datum) : Prop := ∃ keys, keys? ds = some keys ∧ keys.Nodup

-- Members of a set and keys of a dict tell their entries apart.
def Keyed : Datum → Prop
  | .set ds => Distinct ds
  | .dict es => Distinct (es.map Binding.key)
  | _ => True

-- An integer is written as its magnitude behind a sign, and the least one's is no integer.
def Writable : Datum → Prop
  | .int n => n ≠ Int64.minValue
  | _ => True

end Datum

mutual

inductive Shows (h : Heap) : Value → Datum → Prop where
  | none : Shows h .none .none
  | bool (b : Bool) : Shows h (.bool b) (.bool b)
  | int (n : Int64) : Shows h (.int n) (.int n)
  | str (text : String) : Shows h (.str text) (.str text)
  | list {r : Ref .list} {items : Array Value} {ds : List Datum}
      (stored : h.lists[r.id]? = some items) (shown : ShowsAll h items.toList ds) :
      Shows h (.list r) (.list ds)
  | tuple {tag : Nat} {items : List Value} {ds : List Datum} (shown : ShowsAll h items ds) :
      Shows h (.tuple tag items) (.tuple ds)
  -- Each member and entry is stored under its own hash key, and no hash key twice.
  | set {r : Ref .set} {s : ValueSet} {ds : List Datum}
      (stored : h.sets[r.id]? = some s) (shown : ShowsMembers h s.toList ds)
      (distinct : s.keys.Nodup) :
      Shows h (.set r) (.set ds)
  | dict {r : Ref .dict} {d : Dict} {es : List Binding}
      (stored : h.dicts[r.id]? = some d) (shown : ShowsEntries h d.entries.toList es)
      (distinct : d.entries.keys.Nodup) :
      Shows h (.dict r) (.dict es)

inductive ShowsAll (h : Heap) : List Value → List Datum → Prop where
  | nil : ShowsAll h [] []
  | cons {v : Value} {vs : List Value} {d : Datum} {ds : List Datum}
      (first : Shows h v d) (rest : ShowsAll h vs ds) : ShowsAll h (v :: vs) (d :: ds)

inductive ShowsMembers (h : Heap) : List (HashKey × Value) → List Datum → Prop where
  | nil : ShowsMembers h [] []
  | cons {key : HashKey} {v : Value} {members : List (HashKey × Value)} {d : Datum}
      {ds : List Datum} (hashed : ofValue v = .ok key) (first : Shows h v d)
      (rest : ShowsMembers h members ds) : ShowsMembers h ((key,v) :: members) (d :: ds)

inductive ShowsEntries (h : Heap) : List (HashKey × Value × Value) → List Binding → Prop where
  | nil : ShowsEntries h [] []
  | cons {hash : HashKey} {key v : Value} {entries : List (HashKey × Value × Value)}
      {k d : Datum} {es : List Binding} (hashed : ofValue key = .ok hash)
      (keyed : Shows h key k) (valued : Shows h v d) (rest : ShowsEntries h entries es) :
      ShowsEntries h ((hash,key,v) :: entries) (.mk k d :: es)

end

structure Heap.Extends (h h' : Heap) : Prop where
  lists : ∀ {i : Nat} {items : Array Value}, h.lists[i]? = some items → h'.lists[i]? = some items
  sets : ∀ {i : Nat} {s : ValueSet}, h.sets[i]? = some s → h'.sets[i]? = some s
  dicts : ∀ {i : Nat} {d : Dict}, h.dicts[i]? = some d → h'.dicts[i]? = some d

namespace Heap.Extends

theorem refl (h : Heap) : h.Extends h := ⟨id,id,id⟩

theorem trans {a : Heap} (first : a.Extends b) (second : b.Extends c) : a.Extends c :=
  ⟨second.lists ∘ first.lists,second.sets ∘ first.sets,second.dicts ∘ first.dicts⟩

end Heap.Extends

section Monotone

mutual

theorem Shows.mono (grown : h.Extends h') : Shows h v d → Shows h' v d
  | .none => .none
  | .bool b => .bool b
  | .int n => .int n
  | .str text => .str text
  | .list stored shown => .list (grown.lists stored) (shown.mono grown)
  | .tuple shown => .tuple (shown.mono grown)
  | .set stored shown nodup => .set (grown.sets stored) (shown.mono grown) nodup
  | .dict stored shown nodup => .dict (grown.dicts stored) (shown.mono grown) nodup

theorem ShowsAll.mono (grown : h.Extends h') : ShowsAll h vs ds → ShowsAll h' vs ds
  | .nil => .nil
  | .cons first rest => .cons (first.mono grown) (rest.mono grown)

theorem ShowsMembers.mono (grown : h.Extends h') :
    ShowsMembers h members ds → ShowsMembers h' members ds
  | .nil => .nil
  | .cons hashed first rest => .cons hashed (first.mono grown) (rest.mono grown)

theorem ShowsEntries.mono (grown : h.Extends h') :
    ShowsEntries h entries es → ShowsEntries h' entries es
  | .nil => .nil
  | .cons hashed keyed valued rest => .cons hashed (keyed.mono grown) (valued.mono grown) (rest.mono grown)

end

end Monotone

section Reading

mutual

theorem Shows.functional : Shows h v d → Shows h v d' → d = d'
  | .none, .none => rfl
  | .bool _, .bool _ => rfl
  | .int _, .int _ => rfl
  | .str _, .str _ => rfl
  | .list stored shown, .list stored' shown' => by
    have same := Option.some.inj (stored'.symm.trans stored)
    rw [shown.functional (same ▸ shown')]
  | .tuple shown, .tuple shown' => by rw [shown.functional shown']
  | .set stored shown _, .set stored' shown' _ => by
    have same := Option.some.inj (stored'.symm.trans stored)
    rw [shown.functional (same ▸ shown')]
  | .dict stored shown _, .dict stored' shown' _ => by
    have same := Option.some.inj (stored'.symm.trans stored)
    rw [shown.functional (same ▸ shown')]

theorem ShowsAll.functional : ShowsAll h vs ds → ShowsAll h vs ds' → ds = ds'
  | .nil, .nil => rfl
  | .cons first rest, .cons first' rest' => by rw [first.functional first',rest.functional rest']

theorem ShowsMembers.functional :
    ShowsMembers h members ds → ShowsMembers h members ds' → ds = ds'
  | .nil, .nil => rfl
  | .cons _ first rest, .cons _ first' rest' => by rw [first.functional first',rest.functional rest']

theorem ShowsEntries.functional
    : ShowsEntries h entries es → ShowsEntries h entries es' → es = es'
  | .nil, .nil => rfl
  | .cons _ keyed valued rest, .cons _ keyed' valued' rest' => by
    rw [keyed.functional keyed',valued.functional valued',rest.functional rest']

end

mutual

theorem Shows.key : Shows h v d → d.key? = (ofValue v).toOption
  | .none => rfl
  | .bool _ => rfl
  | .int _ => rfl
  | .str _ => rfl
  | .list .. => rfl
  | .set .. => rfl
  | .dict .. => rfl
  | @Shows.tuple _ _ items _ shown => by
    have keys := shown.keys
    simp only [Datum.key?,ofValue,keys]
    cases ofValues items <;> rfl

theorem ShowsAll.keys : ShowsAll h vs ds → Datum.keys? ds = (ofValues vs).toOption
  | .nil => rfl
  | @ShowsAll.cons _ v vs _ _ first rest => by
    simp only [Datum.keys?,ofValues,first.key,rest.keys]
    cases ofValue v <;> cases ofValues vs <;> rfl

end

theorem ShowsMembers.keys
    (shown : ShowsMembers h members ds) : Datum.keys? ds = some (members.map (·.1)) := by
  induction members generalizing ds with
  | nil =>
    cases shown
    rfl
  | cons mem members ih =>
    cases shown with
    | cons hashed first rest => simp [Datum.keys?,first.key,hashed,ih rest,Except.toOption]

theorem ShowsEntries.keys (shown : ShowsEntries h entries es) :
    Datum.keys? (es.map Binding.key) = some (entries.map (·.1)) := by
  induction entries generalizing es with
  | nil =>
    cases shown
    rfl
  | cons entry entries ih =>
    cases shown with
    | cons hashed keyed _ rest => simp [Datum.keys?,Binding.key,keyed.key,hashed,ih rest,Except.toOption]

mutual

theorem Shows.keyed : Shows h v d → d.All Datum.Keyed
  | .none => trivial
  | .bool _ => trivial
  | .int _ => trivial
  | .str _ => trivial
  | .list _ shown => ⟨trivial,shown.keyed⟩
  | .tuple shown => ⟨trivial,shown.keyed⟩
  | .set _ shown nodup => ⟨⟨_,shown.keys,nodup⟩,shown.keyed⟩
  | .dict _ shown nodup => ⟨⟨_,shown.keys,nodup⟩,shown.keyed⟩

theorem ShowsAll.keyed : ShowsAll h vs ds → Datum.Each Datum.Keyed ds
  | .nil => trivial
  | .cons first rest => ⟨first.keyed,rest.keyed⟩

theorem ShowsMembers.keyed : ShowsMembers h members ds → Datum.Each Datum.Keyed ds
  | .nil => trivial
  | .cons _ first rest => ⟨first.keyed,rest.keyed⟩

theorem ShowsEntries.keyed : ShowsEntries h entries es → Datum.EachOf Datum.Keyed es
  | .nil => trivial
  | .cons _ keyed valued rest => ⟨⟨keyed.keyed,valued.keyed⟩,rest.keyed⟩

end

end Reading

end EmbedScript
