import EmbedScript.Proofs.Equality.Content

/-!
The order of data. It ties data of the same content alone.
-/

namespace EmbedScript

open Datum

mutual

inductive Datum.Compares : Datum → Datum → Ordering → Prop where
  | numbers {d e : Datum} {m n : Int64} (left : d.content = .number m)
      (right : e.content = .number n) : Compares d e (compare m.toInt n.toInt)
  | texts (a b : String) : Compares (.str a) (.str b) (compare a b)
  | lists {ds es : List Datum} {o : Ordering} (items : ComparesAll ds es o) :
      Compares (.list ds) (.list es) o
  | tuples {ds es : List Datum} {o : Ordering} (items : ComparesAll ds es o) :
      Compares (.tuple ds) (.tuple es) o

inductive Datum.ComparesAll : List Datum → List Datum → Ordering → Prop where
  | nil : ComparesAll [] [] .eq
  | shorter (e : Datum) (es : List Datum) : ComparesAll [] (e :: es) .lt
  | longer (d : Datum) (ds : List Datum) : ComparesAll (d :: ds) [] .gt
  | here {d e : Datum} {o : Ordering} (first : Compares d e o) (differ : o ≠ .eq)
      (ds es : List Datum) : ComparesAll (d :: ds) (e :: es) o
  | later {d e : Datum} {ds es : List Datum} {o : Ordering} (first : Compares d e .eq)
      (rest : ComparesAll ds es o) : ComparesAll (d :: ds) (e :: es) o

end

theorem compare_then [Ord α] [Std.TransOrd α] {c : α} (first : compare a b ≠ .gt)
    (second : compare b c ≠ .gt) : compare a c = (compare a b).then (compare b c) := by
  cases step : compare a b with
  | lt => exact Std.TransCmp.lt_of_lt_of_isLE step (Ordering.isLE_iff_ne_gt.mpr second)
  | eq => exact Std.TransCmp.congr_left step
  | gt => exact absurd step first

namespace Datum

mutual

theorem Compares.swap : Compares d e o → Compares e d o.swap
  | .numbers left right => by
    rw [← Std.OrientedOrd.eq_swap]
    exact .numbers right left
  | .texts a b => by
    rw [← Std.OrientedOrd.eq_swap]
    exact .texts b a
  | .lists items => .lists items.swap
  | .tuples items => .tuples items.swap

theorem ComparesAll.swap : ComparesAll ds es o → ComparesAll es ds o.swap
  | .nil => .nil
  | .shorter e es => .longer e es
  | .longer d ds => .shorter d ds
  | .here first differ ds es => .here first.swap (by simpa using differ) es ds
  | .later first rest => .later first.swap rest.swap

end

mutual

theorem Compares.trans {o} : Compares d e o → Compares e f p → o ≠ .gt → p ≠ .gt → Compares d f (o.then p)
  | .numbers left middle, .numbers middle' right, first, second => by
    cases middle.symm.trans middle'
    rw [← compare_then first second]
    exact .numbers left right
  | .texts a _, .texts _ c, first, second => by
    rw [← compare_then first second]
    exact .texts a c
  | .lists items, .lists items', first, second => .lists (items.trans items' first second)
  | .tuples items, .tuples items', first, second => .tuples (items.trans items' first second)

-- The first items that differ are found at the earlier one of two places.
theorem ComparesAll.trans :
    ComparesAll ds es o → ComparesAll es fs p → o ≠ .gt → p ≠ .gt → ComparesAll ds fs (o.then p)
  | .nil, items, _, _ => items
  | .shorter .., .here .., _, _ | .shorter .., .later .., _, _ => .shorter ..
  | .longer .., _, first, _ => absurd rfl first
  | _, .longer .., _, second => absurd rfl second
  | .here item differ _ _, .here item' _ _ _, first, second => .here (item.trans item' first second) (by simp [differ]) _ _
  | @ComparesAll.here _ _ o item differ _ _, .later item' _, first, _ => by
    have down : o = .lt := by cases o <;> trivial
    subst down
    exact .here (item.trans item' first (by decide)) differ _ _
  | @ComparesAll.later _ _ _ _ o item _, @ComparesAll.here _ _ p item' differ _ _, first, second => by
    have down : p = .lt := by cases p <;> trivial
    subst down
    have ahead : o.then .lt = .lt := by cases o <;> trivial
    rw [ahead]
    exact .here (item.trans item' (by decide) second) differ _ _
  | .later item rest, .later item' rest', first, second =>
    .later (item.trans item' (by decide) (by decide)) (rest.trans rest' first second)

end

mutual

theorem Compares.tie_iff : Compares d e o → (o = .eq ↔ d.content = e.content)
  | .numbers left right => by rw [Std.compare_eq_iff_eq,Int64.toInt_inj,left,right,Content.number.injEq]
  | .texts a b => by rw [Std.compare_eq_iff_eq,content,content,Content.text.injEq]
  | .lists items => by rw [items.tie_iff,content,content,Content.list.injEq]
  | .tuples items => by rw [items.tie_iff,content,content,Content.tuple.injEq]

theorem ComparesAll.tie_iff : ComparesAll ds es o → (o = .eq ↔ contents ds = contents es)
  | .nil => by simp
  | .shorter .. | .longer .. => by simp [contents]
  | .here first differ _ _ => by simp [contents,← first.tie_iff,differ]
  | .later first rest => by simp [contents,← first.tie_iff,rest.tie_iff]

end

def Orderable : Datum → Prop
  | .none | .set _ | .dict _ => False
  | _ => True

theorem compares_number (left : d.content = .number n)
    (right : e.content = .number n) : Compares d e .eq := by
  have tie : compare n.toInt n.toInt = .eq := Std.ReflCmp.compare_self
  rw [← tie]
  exact .numbers left right

mutual

theorem compares_of_content : {d e : Datum} → d.All Orderable → d.content = e.content → Compares d e .eq
  | .none, _, able, _ | .set _, _, ⟨able,_⟩, _ | .dict _, _, ⟨able,_⟩, _ => able.elim
  | .bool _, _, _, same => compares_number rfl same.symm
  | .int _, _, _, same => compares_number rfl same.symm
  | .str a, .str b, _, same => by
    cases same
    have tie : compare a a = .eq := Std.ReflCmp.compare_self
    rw [← tie]
    exact .texts a a
  | .list _, .list _, ⟨_,able⟩, same => .lists (comparesAll_of_contents able (Content.list.inj same))
  | .tuple _, .tuple _, ⟨_,able⟩, same => .tuples (comparesAll_of_contents able (Content.tuple.inj same))

theorem comparesAll_of_contents : {ds es : List Datum} → Each Orderable ds → contents ds = contents es → ComparesAll ds es .eq
  | [], [], _, _ => .nil
  | _ :: _, _ :: _, ⟨able,others⟩, same => .later (compares_of_content able (List.cons.inj same).1)
      (comparesAll_of_contents others (List.cons.inj same).2)

end

section Deciding

variable {d : Datum}

theorem compares_numbers_iff (left : d.content = .number m)
    (right : e.content = .number n) : d.Compares e o ↔ compare m.toInt n.toInt = o := by
  refine ⟨fun compared => ?_,fun same => same ▸ .numbers left right⟩
  cases compared with
  | numbers left' right' =>
    cases left.symm.trans left'
    cases right.symm.trans right'
    rfl
  | texts | lists | tuples => cases left

theorem compares_texts_iff : Compares (.str a) (.str b) o ↔ compare a b = o := by
  refine ⟨fun compared => ?_,fun same => same ▸ .texts a b⟩
  cases compared with
  | numbers left => cases left
  | texts => rfl

theorem compares_lists_iff : Compares (.list ds) (.list es) o ↔ ComparesAll ds es o := by
  refine ⟨fun compared => ?_,.lists⟩
  cases compared with
  | numbers left => cases left
  | lists items => exact items

theorem compares_tuples_iff : Compares (.tuple ds) (.tuple es) o ↔ ComparesAll ds es o := by
  refine ⟨fun compared => ?_,.tuples⟩
  cases compared with
  | numbers left => cases left
  | tuples items => exact items

theorem comparesAll_same (able : d.All Orderable) (same : d.content = e.content) :
    ComparesAll (d :: ds) (e :: es) o ↔ ComparesAll ds es o := by
  constructor
  · intro compared
    cases compared with
    | here first differ => exact absurd (first.tie_iff.mpr same) differ
    | later _ rest => exact rest
  · exact .later (compares_of_content able same)

theorem comparesAll_differ (differ : d.content ≠ e.content) : ComparesAll (d :: ds) (e :: es) o ↔ d.Compares e o := by
  constructor
  · intro compared
    cases compared with
    | here first => exact first
    | later first => exact absurd (first.tie_iff.mp rfl) differ
  · intro first
    exact .here first (mt first.tie_iff.mp differ) ds es

end Deciding

end Datum

end EmbedScript
