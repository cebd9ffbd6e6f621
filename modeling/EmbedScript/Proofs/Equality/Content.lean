import EmbedScript.Proofs.Dict.Key
import EmbedScript.Proofs.Datum
import EmbedScript.Proofs.OrderedMap
import Mathlib.Data.List.Forall2
import Mathlib.Data.List.Nodup
import Mathlib.Data.List.Perm.Subperm

/-!
The content of data: what is left of a tree when order is forgotten where it does not matter.
-/

namespace EmbedScript

open List HashKey

-- Lists of entries, with each key once

section Entries

variable [BEq κ] [LawfulBEq κ] {l : List (κ × β)}

theorem mem_iff_lookup (nodup : (l.map (·.1)).Nodup) : (key,value) ∈ l ↔ l.lookup key = some value := by
  induction l with
  | nil => simp
  | cons first l ih =>
    rw [map_cons,nodup_cons] at nodup
    rw [lookup_cons]
    by_cases same : key = first.1
    · subst same
      have absent : (first.1,value) ∉ l := fun mem => nodup.1 (mem_map.mpr ⟨_,mem,rfl⟩)
      simp [absent,Prod.ext_iff,eq_comm]
    · have different : (key,value) ≠ first := fun equal => same (congrArg Prod.fst equal)
      simp [beq_eq_false_iff_ne.mpr same,different,ih nodup.2]

theorem length_and_subset_iff {bs : List α} (left : as.Nodup) (right : bs.Nodup) :
    as.length = bs.length ∧ as ⊆ bs ↔ as ⊆ bs ∧ bs ⊆ as := by
  constructor
  · rintro ⟨balanced,within⟩
    have all := (subperm_of_subset left within).perm_of_length_le (Nat.le_of_eq balanced.symm)
    exact ⟨within,all.symm.subset⟩
  · rintro ⟨within,covered⟩
    have shorter := (subperm_of_subset left within).length_le
    have longer := (subperm_of_subset right covered).length_le
    exact ⟨Nat.le_antisymm shorter longer,within⟩

theorem lookup_eq_iff (nodup : (l.map (·.1)).Nodup) (distinct' : (l'.map (·.1)).Nodup) :
    (fun key => l.lookup key) = (fun key => l'.lookup key) ↔ l ⊆ l' ∧ l' ⊆ l := by
  constructor
  · intro same
    have agree (e : κ × β) : e ∈ l ↔ e ∈ l' := by rw [mem_iff_lookup nodup,mem_iff_lookup distinct',congrFun same e.1]
    exact ⟨fun e => (agree e).mp,fun e => (agree e).mpr⟩
  · rintro ⟨within,covered⟩
    ext value
    rw [← mem_iff_lookup nodup,← mem_iff_lookup distinct']
    exact ⟨fun mem => within mem,fun mem => covered mem⟩

end Entries

inductive Content where
  | none
  | number (value : Int64)
  | text (text : String)
  | list (items : List Content)
  | tuple (items : List Content)
  | set (has : HashKey → Prop)
  | dict (find? : HashKey → Option Content)

namespace Datum

mutual

def content : Datum → Content
  | .none => .none
  | .bool b => .number (if b then 1 else 0)
  | .int n => .number n
  | .str text => .text text
  | .list ds => .list (contents ds)
  | .tuple ds => .tuple (contents ds)
  | .set ds => .set fun hash => hash ∈ (keys? ds).getD []
  | .dict es => .dict fun hash => (filed es).lookup hash

def contents : List Datum → List Content
  | [] => []
  | d :: ds => d.content :: contents ds

def filed : List Binding → List (HashKey × Content)
  | [] => []
  | .mk k v :: es =>
    match k.key? with
    | some hash => (hash,v.content) :: filed es
    | Option.none => filed es

end

end Datum

section Reading

mutual

theorem Shows.isKey {hash} : Shows h v d → ofValue v = .ok hash → v.IsKey
  | .none, _ => .none
  | .bool b, _ => .bool b
  | .int n, _ => .int n
  | .str text, _ => .str text
  | .tuple shown, hashed => by
    obtain ⟨_,each,_⟩ := ofValue_tuple_eq_ok hashed
    exact .tuple _ (shown.areKeys each)
  | .list .., hashed | .set .., hashed | .dict .., hashed => nomatch hashed

theorem ShowsAll.areKeys : ShowsAll h vs ds → ofValues vs = .ok hashes → ∀ v ∈ vs, v.IsKey
  | .nil, _ => fun _ mem => nomatch mem
  | .cons first rest, hashed => by
    obtain ⟨_,_,head,tail,_⟩ := ofValues_cons_eq_ok hashed
    rintro v mem
    rcases mem_cons.mp mem with rfl | mem
    · exact first.isKey head
    · exact rest.areKeys tail v mem

end

mutual

theorem Shows.height_le : Shows h v d → v.height ≤ d.depth
  | .none | .bool _ | .int _ | .str _ | .list .. | .set .. | .dict .. => Nat.zero_le _
  | .tuple shown => Nat.succ_le_succ shown.heights_le

theorem ShowsAll.heights_le : ShowsAll h vs ds → Value.heights vs ≤ Datum.depths ds
  | .nil => Nat.le_refl _
  | .cons first rest => by
    exact Nat.max_le.mpr ⟨Nat.le_trans first.height_le (Nat.le_max_left ..),Nat.le_trans rest.heights_le (Nat.le_max_right ..)⟩

end

def Value.IsData (h : Heap) (deep : Nat) (v : Value) : Prop := ∃ d, Shows h v d ∧ d.depth ≤ deep

def Value.Contains (h : Heap) (deep : Nat) (v : Value) (c : Content) : Prop := ∃ d, Shows h v d ∧ d.depth ≤ deep ∧ d.content = c

theorem Value.IsData.contains {v : Value} (data : v.IsData h deep) : ∃ c, v.Contains h deep c := by
  obtain ⟨d,shown,shallow⟩ := data
  exact ⟨_,d,shown,shallow,rfl⟩

theorem Value.IsData.isObject_eq_false {v : Value} (data : v.IsData h deep) : v.isObject = false := by
  obtain ⟨d,shown,_⟩ := data
  cases shown <;> rfl

structure Files (h : Heap) (deep : Nat) (entry : HashKey × Value × Value)
    (filed : HashKey × Content) : Prop where
  hash : entry.1 = filed.1
  hashed : ofValue entry.2.1 = .ok entry.1
  keyed : entry.2.1.IsData h deep
  valued : entry.2.2.Contains h deep filed.2

theorem ShowsAll.contents (shown : ShowsAll h vs ds) (shallow : Datum.depths ds ≤ deep) :
    Forall₂ (Value.Contains h deep) vs (Datum.contents ds) := by
  induction vs generalizing ds with
  | nil =>
    cases shown
    exact .nil
  | cons v vs ih =>
    cases shown with
    | cons first rest =>
      rw [Datum.depths,Nat.max_le] at shallow
      exact .cons ⟨_,first,shallow.1,rfl⟩ (ih rest shallow.2)

theorem ShowsMembers.data (shown : ShowsMembers h members ds) (shallow : Datum.depths ds ≤ deep) :
    ∀ mem ∈ members,ofValue mem.2 = .ok mem.1 ∧ mem.2.IsData h deep := by
  induction members generalizing ds with
  | nil => exact fun _ mem => nomatch mem
  | cons first members ih =>
    cases shown with
    | cons hashed first rest =>
      rw [Datum.depths,Nat.max_le] at shallow
      rintro mem (_ | ⟨_,mem⟩)
      · exact ⟨hashed,_,first,shallow.1⟩
      · exact ih rest shallow.2 _ mem

theorem ShowsEntries.files (shown : ShowsEntries h entries es) (shallow : Datum.depthsOf es ≤ deep) :
    Forall₂ (Files h deep) entries (Datum.filed es) := by
  induction entries generalizing es with
  | nil =>
    cases shown
    exact .nil
  | cons entry entries ih =>
    cases shown with
    | cons hashed keyed valued rest =>
      rw [Datum.depthsOf,Nat.max_le,Nat.max_le] at shallow
      have filed := keyed.key
      rw [hashed] at filed
      rw [Datum.filed,filed]
      exact .cons ⟨rfl,hashed,⟨_,keyed,shallow.1.1⟩,⟨_,valued,shallow.1.2,rfl⟩⟩ (ih rest shallow.2)

end Reading

section Filing

theorem Files.keys (files : Forall₂ (Files h deep) entries kept) : kept.map (·.1) = entries.map (·.1) := by
  induction files with
  | nil => rfl
  | cons first _ ih => rw [map_cons,map_cons,first.hash,ih]

theorem Files.lookup (files : Forall₂ (Files h deep) entries kept) (hash : HashKey) :
    (entries.lookup hash = none ∧ kept.lookup hash = none) ∨
      ∃ key value c, entries.lookup hash = some (key,value) ∧ kept.lookup hash = some c ∧
        value.Contains h deep c := by
  induction files with
  | nil => exact .inl ⟨rfl,rfl⟩
  | @cons entry found _ _ first _ ih =>
    rw [lookup_cons,lookup_cons,first.hash]
    cases hash == found.1 with
    | true => exact .inr ⟨_,_,_,rfl,rfl,first.valued⟩
    | false => exact ih

theorem Shows.exists_dict (shown : Shows h (.dict r) d) : ∃ es, d = .dict es := by
  cases shown
  exact ⟨_,rfl⟩

theorem Shows.exists_set (shown : Shows h (.set r) d) : ∃ ds, d = .set ds := by
  cases shown
  exact ⟨_,rfl⟩

theorem Shows.filed {r} (shown : Shows h (.dict r) (.dict es)) :
    Forall₂ (Files h (Datum.depthsOf es)) (h.dict r).entries.toList (Datum.filed es) ∧ ((Datum.filed es).map (·.1)).Nodup := by
  cases shown with
  | @dict _ d _ stored shown nodup =>
    have read : h.dict r = d := by
      rw [Heap.dict,stored]
      rfl
    have files := shown.files (Nat.le_refl _)
    refine ⟨read ▸ files,?_⟩
    rw [Files.keys files]
    exact nodup

theorem Shows.members (shown : Shows h (.set r) (.set ds)) :
    Datum.keys? ds = some (h.set r).keys ∧ (h.set r).keys.Nodup ∧ ∀ mem ∈ (h.set r).toList,
        ofValue mem.2 = .ok mem.1 ∧ mem.2.IsData h (Datum.depths ds) := by
  cases shown with
  | @set _ s _ stored shown nodup =>
    have read : h.set r = s := by
      rw [Heap.set,stored]
      rfl
    rw [read]
    exact ⟨shown.keys,nodup,shown.data (Nat.le_refl _)⟩

theorem Shows.dict_content_iff {r}
    (left : Shows h (.dict r) (.dict es)) (right : Shows h (.dict s) (.dict es')) :
    Datum.content (.dict es) = Datum.content (.dict es') ↔
      Datum.filed es ⊆ Datum.filed es' ∧ Datum.filed es' ⊆ Datum.filed es := by
  rw [← lookup_eq_iff left.filed.2 right.filed.2,Datum.content,Datum.content,Content.dict.injEq]

theorem Shows.set_content_iff (left : Shows h (.set r) (.set ds)) (right : Shows h (.set s) (.set es)) :
    Datum.content (.set ds) = Datum.content (.set es) ↔ (h.set r).keys ⊆ (h.set s).keys ∧ (h.set s).keys ⊆ (h.set r).keys := by
  rw [Datum.content,Datum.content,left.members.1,right.members.1,Content.set.injEq]
  constructor
  · intro same
    exact ⟨fun hash => (congrFun same hash).mp,fun hash => (congrFun same hash).mpr⟩
  · rintro ⟨within,covered⟩
    funext hash
    exact propext ⟨fun mem => within mem,fun mem => covered mem⟩

end Filing

end EmbedScript
