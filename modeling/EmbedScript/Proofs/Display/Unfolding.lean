import EmbedScript.Proofs.Dict.Key
import Mathlib.Data.Finset.Card
import Mathlib.Logic.Relation
import Mathlib.Tactic.Choose

/-!
Values that may hold themselves, unfolded into trees. Along a path only finitely many lists and
dicts can be entered, and between two of them lie only tuples and sets.
-/

namespace EmbedScript

open Relation List Heap

theorem le_of_mem_of_max {f : α → Nat} {g : List α → Nat}
    (cons : ∀ a as, g (a :: as) = max (f a) (g as)) (mem : a ∈ as) :
    f a ≤ g as := by
  induction as with
  | nil => contradiction
  | cons b bs ih =>
    rw [cons]
    rcases mem_cons.mp mem with rfl | mem
    · exact Nat.le_max_left ..
    · exact Nat.le_trans (ih mem) (Nat.le_max_right ..)

inductive Container where
  | list (ref : Ref .list)
  | dict (ref : Ref .dict)
  deriving DecidableEq

namespace Container

def value : Container → Value
  | list r => .list r
  | dict r => .dict r

def cut : Container → String
  | list _ => "[...]"
  | dict _ => "\x7b...\x7d"

end Container

inductive Bracket where
  | container (c : Container)
  | entry
  | tuple
  | set

namespace Bracket

def write : Bracket → List String → String
  | container (.list _), texts => "[" ++ ", ".intercalate texts ++ "]"
  | container (.dict _), texts => inBraces (", ".intercalate texts)
  | entry, texts => ": ".intercalate texts
  | tuple, [text] => "(" ++ text ++ ",)"
  | tuple, texts => "(" ++ ", ".intercalate texts ++ ")"
  | set, [] => "set()"
  | set, texts => inBraces (", ".intercalate texts)

def expands : Bracket → List Container
  | container c => [c]
  | _ => []

theorem eq_of_expands (expanded : c ∈ bracket.expands) : bracket = container c := by
  cases bracket with
  | container d => rw [mem_singleton.mp expanded]
  | entry | tuple | set => contradiction

end Bracket

inductive Display where
  | leaf (text : String)
  | again (c : Container)
  | node (bracket : Bracket) (parts : List Display)
  deriving Inhabited

namespace Display

mutual

def text : Display → String
  | leaf text => text
  | again c => c.cut
  | node bracket parts => bracket.write (texts parts)

def texts : List Display → List String
  | [] => []
  | t :: ts => text t :: texts ts

end

mutual

def depth : Display → Nat
  | node _ parts => depths parts + 1
  | _ => 0

def depths : List Display → Nat
  | [] => 0
  | t :: ts => max (depth t) (depths ts)

end

def container? : Display → Option Container
  | again c => some c
  | node (.container c) _ => some c
  | _ => none

def expands : Display → List Container
  | node bracket _ => bracket.expands
  | _ => []

/-- The places in a display, each with the containers that are expanded around it, the innermost
first. -/
inductive Place (t : Display) : List Container → Display → Prop where
  | root : Place t [] t
  | part {above : List Container} {bracket : Bracket} {parts : List Display} {part : Display}
      (holder : Place t above (.node bracket parts)) (member : part ∈ parts) :
      Place t (bracket.expands ++ above) part

theorem nodup_expands (t : Display) : t.expands.Nodup := by
  cases t with
  | leaf | again => exact .nil
  | node bracket =>
    cases bracket with
    | container c => exact nodup_singleton c
    | entry | tuple | set => exact .nil

theorem texts_eq_map (ts : List Display) : texts ts = ts.map text := by
  induction ts with
  | nil => rfl
  | cons t ts ih => rw [texts,ih,map_cons]

theorem text_node (bracket : Bracket) (parts : List α) (display : α → Display) :
    (node bracket (parts.map display)).text = bracket.write (parts.map fun part => (display part).text) := by
  rw [text,texts_eq_map,List.map_map]
  rfl

theorem depth_le_depths (mem : t ∈ ts) : t.depth ≤ depths ts := le_of_mem_of_max (fun _ _ => rfl) mem

theorem bracket_eq (shows : (node bracket parts).container? = some c) : bracket = .container c := by
  cases bracket with
  | container d =>
    cases shows
    rfl
  | entry | tuple | set => contradiction

end Display

def Value.isLeaf : Value → Bool
  | .tuple .. | .list _ | .dict _ | .set _ | .object .. | .native .. | .keyword .. | .method .. => false
  | _ => true

inductive Subject where
  | value (v : Value)
  | entry (key value : Value)

def Heap.parts (h : Heap) : Subject → Option (Bracket × List Subject)
  | .value (.list r) => some (.container (.list r),(h.list r).toList.map .value)
  | .value (.dict r) => some (.container (.dict r),(h.dict r).items.map fun e => .entry e.1 e.2)
  | .value (.tuple _ items) => some (.tuple,items.map .value)
  | .value (.set r) => some (.set,(h.set r).values.map .value)
  | .value _ => none
  | .entry key value => some (.entry,[.value key,.value value])

inductive Unfolds (h : Heap) : List Container → Subject → Display → Prop where
  | leaf {shown : List Container} {v : Value} (plain : v.isLeaf = true) :
      Unfolds h shown (.value v) (.leaf (h.plainText v))
  | again {shown : List Container} {p : Subject} {c : Container} {parts : List Subject}
      (made : h.parts p = some (.container c,parts)) (seen : c ∈ shown) :
      Unfolds h shown p (.again c)
  | node {shown : List Container} {p : Subject} {bracket : Bracket} {parts : List Subject}
      (made : h.parts p = some (bracket,parts)) (fresh : ∀ c ∈ bracket.expands, c ∉ shown)
      (display : Subject → Display)
      (each : ∀ q ∈ parts, Unfolds h (bracket.expands ++ shown) q (display q)) :
      Unfolds h shown p (.node bracket (parts.map display))

namespace Heap

def Holds (h : Heap) (p q : Subject) : Prop := ∃ bracket parts, h.parts p = some (bracket,parts) ∧ q ∈ parts

/-- A plain value, a container or an entry. What a set holds cannot change. -/
def Writable (h : Heap) : Subject → Prop
  | .value (.tuple ..) | .value (.list _) | .value (.dict _) | .entry .. => True
  | .value (.set r) => ∀ v ∈ (h.set r).values, v.mutable? = none
  | .value v => v.isLeaf = true

def AllWritable (h : Heap) (p : Subject) : Prop := ∀ q, ReflTransGen h.Holds p q → h.Writable q

mutual

def nesting (h : Heap) : Value → Nat
  | .tuple _ items => nestings h items + 1
  | .set r => Value.heights (h.set r).values + 1
  | _ => 0

def nestings (h : Heap) : List Value → Nat
  | [] => 0
  | v :: vs => max (nesting h v) (nestings h vs)

end

def weight (h : Heap) : Subject → Nat
  | .value v => h.nesting v
  | .entry key value => max (h.nesting key) (h.nesting value) + 1

def containers (h : Heap) : List Container := (range h.lists.size).map (.list ⟨·⟩) ++ (range h.dicts.size).map (.dict ⟨·⟩)

def hidden (h : Heap) (shown : List Container) : Nat := (h.containers.toFinset \ shown.toFinset).card

variable {h : Heap} {parts : List Subject}

theorem eq_of_parts (made : h.parts p = some (.container c,parts)) : p = .value c.value := by
  cases p with
  | entry => cases made
  | value v =>
    cases v with
    | list | dict =>
      cases made
      rfl
    | _ => cases made

theorem AllWritable.writable (all : h.AllWritable p) : h.Writable p := all p .refl

theorem allWritable_of_closed (inside : Subject → Prop)
    (closed : ∀ q, inside q → h.Writable q ∧ ∀ r, h.Holds q r → inside r) (start : inside p) :
    h.AllWritable p := by
  intro q path
  refine (closed q ?_).1
  induction path with
  | refl => exact start
  | tail _ step ih => exact (closed _ ih).2 _ step

mutual

theorem nesting_eq_height : (v : Value) → v.mutable? = none → h.nesting v = v.height
  | .tuple _ items, fixed => by rw [nesting,Value.height,nestings_eq_heights items fixed]
  | .none, _ | .bool _, _ | .int _, _ | .float _, _ | .str _, _ | .range _, _ | .keyword .., _
  | .function _, _ | .method .., _ | .cls _, _ | .object .., _ | .super .., _ | .type _, _
  | .module _, _ | .generator _, _ | .iterator _, _ | .native .., _ | .nil .., _ => rfl

theorem nestings_eq_heights : (vs : List Value) → Value.anyMutable? vs = none → h.nestings vs = Value.heights vs
  | [], _ => rfl
  | v :: vs, fixed => by
    rw [Value.anyMutable?,Option.or_eq_none_iff] at fixed
    rw [nestings,Value.heights,nesting_eq_height v fixed.1,nestings_eq_heights vs fixed.2]

end

theorem hidden_lt (there : c ∈ h.containers) (fresh : c ∉ shown) : h.hidden (c :: shown) < h.hidden shown := by
  refine Finset.card_lt_card ⟨?_,?_⟩
  · exact Finset.sdiff_subset_sdiff subset_rfl (by simp)
  · intro same
    have kept : c ∈ h.containers.toFinset \ shown.toFinset := by simp [there,fresh]
    simpa using same kept

theorem mem_containers (made : h.parts (.value c.value) = some (.container c,parts)) (mem : q ∈ parts) : c ∈ h.containers := by
  cases c with
  | list r =>
    cases made
    have size : r.id < h.lists.size := by
      by_contra outside
      simp [list,Array.getElem?_eq_none (Nat.le_of_not_lt outside)] at mem
    exact mem_append_left _ (mem_map.mpr ⟨r.id,mem_range.mpr size,rfl⟩)
  | dict r =>
    cases made
    have size : r.id < h.dicts.size := by
      by_contra outside
      simp [dict,Array.getElem?_eq_none (Nat.le_of_not_lt outside),Dict.items,OrderedMap.values,OrderedMap.toList] at mem
    exact mem_append_right _ (mem_map.mpr ⟨r.id,mem_range.mpr size,rfl⟩)

theorem weight_lt (writable : h.Writable p) (made : h.parts p = some (bracket,parts))
    (mem : q ∈ parts) (outside : bracket.expands = []) : h.weight q < h.weight p := by
  cases p with
  | entry key value =>
    cases made
    rcases mem_pair.mp mem with rfl | rfl
    · exact Nat.lt_succ_of_le (Nat.le_max_left ..)
    · exact Nat.lt_succ_of_le (Nat.le_max_right ..)
  | value v =>
    cases v with
    | tuple _ items =>
      cases made
      obtain ⟨v,inside,rfl⟩ := mem_map.mp mem
      exact Nat.lt_succ_of_le (le_of_mem_of_max (fun _ _ => rfl) inside)
    | set r =>
      cases made
      obtain ⟨v,inside,rfl⟩ := mem_map.mp mem
      have height : h.weight (.value v) = v.height := nesting_eq_height v (writable v inside)
      rw [height]
      exact Nat.lt_succ_of_le (Value.height_le_heights inside)
    | list | dict =>
      cases made
      contradiction
    | _ => cases made

-- Each step into a value enters a container, or goes deeper outside of containers.
theorem smaller (writable : h.Writable p) (made : h.parts p = some (bracket,parts)) (fresh : ∀ c ∈ bracket.expands, c ∉ shown)
    (mem : q ∈ parts) :
    Prod.Lex (· < ·) (· < ·) (h.hidden (bracket.expands ++ shown),h.weight q) (h.hidden shown,h.weight p) := by
  cases bracket with
  | container c =>
    cases eq_of_parts made
    exact .left _ _ (hidden_lt (mem_containers made mem) (fresh c (mem_singleton.mpr rfl)))
  | entry | tuple | set => exact .right _ (weight_lt writable made mem rfl)

theorem exists_plain (writable : h.Writable p) (empty : h.parts p = none) : ∃ v, p = .value v ∧ v.isLeaf = true := by
  cases p with
  | entry => cases empty
  | value v =>
    cases v with
    | tuple | list | dict | set => cases empty
    | _ => exact ⟨_,rfl,writable⟩

end Heap

theorem exists_unfolds (shown : List Container) (p : Subject) (all : h.AllWritable p) : ∃ t, Unfolds h shown p t := by
  match made : h.parts p with
  | none =>
    obtain ⟨v,rfl,plain⟩ := exists_plain all.writable made
    exact ⟨_,.leaf plain⟩
  | some (bracket,parts) =>
    by_cases seen : ∃ c ∈ bracket.expands, c ∈ shown
    · obtain ⟨c,expanded,seen⟩ := seen
      cases Bracket.eq_of_expands expanded
      exact ⟨_,.again made seen⟩
    · have fresh : ∀ c ∈ bracket.expands, c ∉ shown := fun c expanded inside => seen ⟨c,expanded,inside⟩
      have each : ∀ q ∈ parts, ∃ t, Unfolds h (bracket.expands ++ shown) q t := fun q mem =>
        exists_unfolds (bracket.expands ++ shown) q  fun last path => all last (.head ⟨bracket,parts,made,mem⟩ path)
      choose! display unfolds using each
      exact ⟨_,.node made fresh display unfolds⟩
termination_by (h.hidden shown,h.weight p)
decreasing_by exact smaller all.writable made fresh mem

namespace Unfolds

section

variable (unfolds : Unfolds h shown p t)

include unfolds

-- Of the containers that are being shown, only those inside a value count for its display.
theorem congr (same : ∀ c, ReflTransGen h.Holds p (.value c.value) → (c ∈ shown ↔ c ∈ others)) :
    Unfolds h others p t := by
  induction unfolds generalizing others with
  | leaf plain => exact .leaf plain
  | again made seen =>
    cases eq_of_parts made
    exact .again made ((same _ .refl).mp seen)
  | @node shown p bracket parts made fresh display each ih =>
    refine .node made ?_ display fun q mem => ih q mem fun c path => ?_
    · intro c expanded seen
      cases Bracket.eq_of_expands expanded
      cases eq_of_parts made
      exact fresh c expanded ((same c .refl).mpr seen)
    · rw [mem_append,mem_append,same c (.head ⟨bracket,parts,made,mem⟩ path)]

theorem eq_of_container (shows : t.container? = some c) : p = .value c.value := by
  cases unfolds with
  | leaf => contradiction
  | again made =>
    cases shows
    exact eq_of_parts made
  | node made =>
    cases Display.bracket_eq shows
    exact eq_of_parts made

theorem fresh : ∀ c ∈ t.expands, c ∉ shown := by
  cases unfolds with
  | leaf | again => nofun
  | node _ fresh => exact fresh

theorem cut_iff (shows : t.container? = some c) : t = .again c ↔ c ∈ shown := by
  cases unfolds with
  | leaf => contradiction
  | again _ seen =>
    cases shows
    exact ⟨fun _ => seen,fun _ => rfl⟩
  | node _ fresh =>
    cases Display.bracket_eq shows
    exact ⟨nofun,fun seen => absurd seen (fresh c (mem_singleton.mpr rfl))⟩

end

theorem once (here : Unfolds h (above ++ shown) p t) (nodup : above.Nodup) (hidden : ∀ c ∈ above, c ∉ shown) :
    (t.expands ++ above).Nodup ∧ ∀ c ∈ t.expands ++ above, c ∉ shown := by
  constructor
  · refine nodup_append.mpr ⟨t.nodup_expands,nodup,?_⟩
    rintro c expanded _ held rfl
    exact here.fresh c expanded (mem_append_left _ held)
  · intro c expanded
    rcases mem_append.mp expanded with expanded | expanded
    · exact fun seen => here.fresh c expanded (mem_append_right _ seen)
    · exact hidden c expanded

theorem place (unfolds : Unfolds h shown p t) (place : t.Place above part) :
    ∃ q, ReflTransGen h.Holds p q ∧ Unfolds h (above ++ shown) q part ∧ (above.Nodup ∧ ∀ c ∈ above, c ∉ shown) ∧
      ∀ c ∈ above, TransGen h.Holds (.value c.value) q := by
  induction place with
  | root => exact ⟨p,.refl,unfolds,⟨.nil,nofun⟩,nofun⟩
  | @part above bracket parts part holder mem ih =>
    obtain ⟨q,path,here,⟨nodup,hidden⟩,inside⟩ := ih
    have once := here.once nodup hidden
    cases here with
    | @node _ _ _ qs made fresh display each =>
      obtain ⟨inner,held,rfl⟩ := mem_map.mp mem
      have step : h.Holds q inner := ⟨bracket,qs,made,held⟩
      refine ⟨inner,path.tail step,?_,once,?_⟩
      · rw [append_assoc]
        exact each inner held
      · intro c expanded
        rcases mem_append.mp expanded with expanded | expanded
        · cases Bracket.eq_of_expands expanded
          cases eq_of_parts made
          exact .single step
        · exact (inside c expanded).tail step

theorem full (unfolds : Unfolds h shown p t) (place : t.Place above part) (shows : part.container? = some c)
    (outside : ¬ TransGen h.Holds (.value c.value) (.value c.value))
    (unseen : ∀ d ∈ shown, ¬ ReflTransGen h.Holds (.value c.value) (.value d.value)) :
    Unfolds h [] (.value c.value) part := by
  obtain ⟨q,-,here,-,inside⟩ := unfolds.place place
  cases here.eq_of_container shows
  refine here.congr fun d path => ⟨fun seen => ?_,nofun⟩
  rcases mem_append.mp seen with expanded | seen
  · exact absurd (.trans_right path (inside d expanded)) outside
  · exact absurd path (unseen d seen)

end Unfolds

end EmbedScript
