import EmbedScript.Eval.Statement
import EmbedScript.Proofs.Exec
import EmbedScript.Proofs.OrderedMap

/-!
Inheritance. As long as classes are only defined, what a class has under a name is what a walk
through it and its bases finds first, each class before its bases.
-/

namespace EmbedScript

open Exec OrderedMap List

variable {name : String} {g h : Heap} {own : Ref .cls → OrderedMap String Value}

namespace ClassInfo

def ownNames : List String := ["__name__","__module__","__bases__"]

theorem get?_inherit (inherited : List (OrderedMap String Value)) (own : OrderedMap String Value) (name : String) :
    (inherited.foldl (fun members base =>
      base.entries.foldl (fun members (name,v) => members.insertNew name v) members) own).get? name =
      (own.get? name).or (inherited.findSome? (·.get? name)) := by
  induction inherited generalizing own with
  | nil => simp
  | cons base inherited ih =>
    rw [foldl_cons,ih,← Array.foldl_toList,get?_foldl_insertNew,← toList,← get?_eq_lookup,Option.or_assoc]
    cases found : base.get? name with
    | none => rw [Option.none_or,findSome?_cons_of_isNone (by rw [found]; rfl)]
    | some v => rw [Option.some_or,findSome?_cons_of_isSome (by rw [found]; rfl),found]

theorem get?_define (ordinary : name ∉ ownNames) (label module : String)
    (bases : List (Ref .cls)) (tuple : Value) (own : OrderedMap String Value)
    (inherited : List (OrderedMap String Value)) :
    (define label module bases tuple own inherited).members.get? name =
      (own.get? name).or (inherited.findSome? (·.get? name)) := by
  simp only [ownNames,mem_cons,not_mem_nil,or_false,not_or] at ordinary
  obtain ⟨first,second,third⟩ := ordinary
  simp only [define]
  rw [get?_insert_of_ne (Ne.symm third),get?_insert_of_ne (Ne.symm second),get?_insert_of_ne (Ne.symm first),get?_inherit]

end ClassInfo

def World.parents (w : World) (bases : List (Ref .cls)) : List (Ref .cls) :=
  if bases.isEmpty then [w.objectClass] else bases

-- Class tables that definitions alone have made. The second argument tells what the body of each
-- class bound; the root is the one class without bases.
inductive World.Defined : World → (Ref .cls → OrderedMap String Value) → Prop
  | nothing {w own} (empty : w.heap.classes = #[]) : Defined w own
  | root {w left : World} {own r} {name module : String} {tuple : Value}
      {members : OrderedMap String Value} (before : Defined w own)
      (ran : newClass (ClassInfo.define name module [] tuple members []) w = .done r left) :
      Defined left fun c => if c = r then members else own c
  | derived {w left : World} {own r} {name module : String} {bases : List (Ref .cls)}
      {members : OrderedMap String Value} (before : Defined w own)
      (known : ∀ base ∈ w.parents bases, base.id < w.heap.classes.size)
      (ran : defineClass name module bases members w = .done r left) :
      Defined left fun c => if c = r then members else own c
  | other {w left : World} {own} (before : Defined w own)
      (kept : left.heap.classes = w.heap.classes) : Defined left own

namespace Heap

-- A walk through some classes, each followed by all that is below it.
inductive Preorder (h : Heap) : List (Ref .cls) → List (Ref .cls) → Prop
  | nil : Preorder h [] []
  | cons {r rs below rest} (down : Preorder h (h.cls r).bases below) (next : Preorder h rs rest) :
      Preorder h (r :: rs) (r :: (below ++ rest))

structure Derived (h : Heap) (own : Ref .cls → OrderedMap String Value) (r : Ref .cls) : Prop where
  older : ∀ base ∈ (h.cls r).bases, base.id < r.id
  defined : ∃ name module tuple, h.cls r = ClassInfo.define name module (h.cls r).bases tuple (own r)
    ((h.cls r).bases.map fun base => (h.cls base).members)

def Layered (h : Heap) (own : Ref .cls → OrderedMap String Value) : Prop :=
  ∀ r : Ref .cls, r.id < h.classes.size → h.Derived own r

theorem Layered.congr (same : g.classes = h.classes) (layered : h.Layered own) : g.Layered own := by
  intro r bound
  rw [same] at bound
  have derived := layered r bound
  have kept : g.cls = h.cls := funext fun r => by rw [cls,cls,same]
  exact ⟨by rw [kept]; exact derived.older,by rw [kept]; exact derived.defined⟩

theorem cls_push_older (pushed : g.classes = h.classes.push c)
    (older : r.id < h.classes.size) : g.cls r = h.cls r := by
  rw [cls,cls,pushed,Array.getElem?_push,if_neg (Nat.ne_of_lt older)]

theorem cls_push_new (pushed : g.classes = h.classes.push c) : g.cls ⟨h.classes.size⟩ = c := by simp [cls,pushed]

theorem Layered.push (layered : h.Layered own) {module}
    (known : ∀ base ∈ bases, base.id < h.classes.size)
    (pushed : g.classes = h.classes.push (ClassInfo.define name module bases tuple members
      (bases.map fun base => (h.cls base).members))) :
    g.Layered fun c => if c = ⟨h.classes.size⟩ then members else own c := by
  have inherited : ∀ {bases : List (Ref .cls)}, (∀ base ∈ bases, base.id < h.classes.size) →
      (bases.map fun base => (g.cls base).members) = bases.map fun base => (h.cls base).members := by
    intro bases known
    refine map_congr_left fun base mem => ?_
    rw [cls_push_older pushed (known base mem)]
  intro r bound
  rw [pushed,Array.size_push] at bound
  rcases Nat.lt_succ_iff_lt_or_eq.mp bound with older | new
  · have derived := layered r older
    obtain ⟨name,module,tuple,defined⟩ := derived.defined
    have different : r ≠ ⟨h.classes.size⟩ := fun same => Nat.ne_of_lt older (congrArg Ref.id same)
    have below := fun base mem => Nat.lt_trans (derived.older base mem) older
    refine ⟨by rw [cls_push_older pushed older]; exact derived.older,name,module,tuple,?_⟩
    rw [cls_push_older pushed older,if_neg different,inherited below]
    exact defined
  · have here : r = ⟨h.classes.size⟩ := congrArg Ref.mk new
    subst here
    refine ⟨by rw [cls_push_new pushed]; exact known,name,module,tuple,?_⟩
    rw [cls_push_new pushed,if_pos rfl]
    simp only [ClassInfo.define]
    rw [inherited known]

theorem Layered.get?_members (layered : h.Layered own) (bound : r.id < h.classes.size)
    (ordinary : name ∉ ClassInfo.ownNames) :
    (h.cls r).members.get? name =
      ((own r).get? name).or ((h.cls r).bases.findSome? fun base => (h.cls base).members.get? name) := by
  obtain ⟨label,module,tuple,defined⟩ := (layered r bound).defined
  rw [defined,ClassInfo.get?_define ordinary,findSome?_map]
  rfl

-- Bases are older, so a walk ends.
theorem Layered.exists_preorder (layered : h.Layered own) (within : limit ≤ h.classes.size) :
    ∀ rs, (∀ r ∈ rs, r.id < limit) → ∃ walk, h.Preorder rs walk := by
  induction limit using Nat.strongRecOn with
  | ind limit ih =>
    intro rs
    induction rs with
    | nil => exact fun _ => ⟨[],.nil⟩
    | cons r rs next =>
      intro bound
      have here : r.id < limit := bound r (.head _)
      have older := (layered r (Nat.lt_of_lt_of_le here within)).older
      obtain ⟨below,down⟩ := ih r.id here (Nat.le_trans (Nat.le_of_lt here) within) _ older
      obtain ⟨rest,walked⟩ := next fun r mem => bound r (.tail _ mem)
      exact ⟨r :: (below ++ rest),.cons down walked⟩

theorem Layered.findSome?_walk (layered : h.Layered own) (ordinary : name ∉ ClassInfo.ownNames)
    (walked : h.Preorder rs walk) (bound : ∀ r ∈ rs, r.id < h.classes.size) :
    (rs.findSome? fun r => (h.cls r).members.get? name) = walk.findSome? fun c => (own c).get? name := by
  induction walked with
  | nil => rfl
  | @cons r rs below rest _ _ down next =>
    have here : r.id < h.classes.size := bound r (.head _)
    have under := down fun base mem => Nat.lt_trans ((layered r here).older base mem) here
    have after := next fun r mem => bound r (.tail _ mem)
    have split := layered.get?_members here ordinary
    rw [under] at split
    simp only [findSome?_cons,findSome?_append,split,after]
    cases (own r).get? name with
    | some v => rfl
    | none => cases below.findSome? fun c => (own c).get? name <;> rfl

end Heap

theorem defineClass_apply (name module : String) (bases : List (Ref .cls)) (members : OrderedMap String Value) (w : World) :
    ∃ left, defineClass name module bases members w = .done ⟨w.heap.classes.size⟩ left ∧
      ∃ tuple, left.heap.classes = w.heap.classes.push (ClassInfo.define name module (w.parents bases)
        tuple members ((w.parents bases).map fun base => (w.heap.cls base).members)) := by
  cases bases with
  | nil => exact ⟨_,rfl,_,rfl⟩
  | cons base bases => exact ⟨_,rfl,_,rfl⟩

theorem World.Defined.layered {w : World} (defined : w.Defined own) : w.heap.Layered own := by
  induction defined with
  | nothing empty =>
    intro r bound
    simp [empty] at bound
  | root before ran ih =>
    cases ran
    exact ih.push (by simp) rfl
  | @derived w left own r name module bases members before known ran ih =>
    obtain ⟨left,made,tuple,pushed⟩ := defineClass_apply name module bases members w
    rw [made] at ran
    cases ran
    exact ih.push known pushed
  | other before kept ih => exact ih.congr kept

-- The table of a class answers as the walk through the class and what is below it does, and
-- `super` as the walk that starts behind the class.
theorem members_flatten {w : World} {own : Ref .cls → OrderedMap String Value}
    (defined : w.Defined own) {r : Ref .cls} (known : r.id < w.heap.classes.size) :
    ∃ below, w.heap.Preorder (w.heap.cls r).bases below ∧
      ∀ name ∉ ClassInfo.ownNames,
        classMember r name w = .done ((r :: below).findSome? fun c => (own c).get? name) w ∧
        (classMember r name w = .done none w ↔ ∀ c ∈ r :: below, (own c).get? name = none) ∧
        ∀ receiver, superAttr r receiver name w =
          (below.findSome? fun c => (own c).get? name).elim (fail (.noAttribute "super" name) w)
            fun member => bindMember receiver member w := by
  have layered := defined.layered
  have older := (layered r known).older
  have bound := fun base member => Nat.lt_trans (older base member) known
  obtain ⟨below, walked⟩ := layered.exists_preorder (Nat.le_of_lt known) _ older
  refine ⟨below, walked, fun name ordinary => ?_⟩
  have under := layered.findSome?_walk ordinary walked bound
  have whole := layered.findSome?_walk ordinary (.cons walked .nil)
    (List.forall_mem_singleton.mpr known)
  rw [List.findSome?_singleton, List.append_nil] at whole
  have found : classMember r name w =
      .done ((r :: below).findSome? fun c => (own c).get? name) w := by
    rw [classMember, heap_apply, whole]
  refine ⟨found, ?_, fun receiver => ?_⟩
  · rw [found, ← List.findSome?_eq_none_iff]
    exact ⟨fun same => (Outcome.done.inj same).1, fun none => by rw [none]⟩
  · rw [superAttr, bind_done (heap_apply _ w), under]
    cases below.findSome? fun c => (own c).get? name with
    | none => rfl
    | some member => rfl

-- `D(B, C)` where `B` and `C` derive from `A`: what `A` has comes before what `C` has.
def diamond : Exec (Ref .cls) := do
  let object ← newClass (ClassInfo.define "object" "builtins" [] .none {} [])
  modify fun w => { w with objectClass := object }
  let a ← defineClass "A" "test" [] ⟨#[("m",.int 1)]⟩
  let b ← defineClass "B" "test" [a] {}
  let c ← defineClass "C" "test" [a] ⟨#[("m",.int 2),("n",.int 3)]⟩
  defineClass "D" "test" [b,c] {}

theorem members_flatten_diamond :
    ∃ r w own, diamond { types := ⟨[]⟩, maxDepth := 0 } = .done r w ∧ w.Defined own ∧
      r.id < w.heap.classes.size ∧ classMember r "m" w = .done (some (.int 1)) w ∧
      ∃ below, w.heap.Preorder (w.heap.cls r).bases below ∧
        (r :: below).findSome? (fun c => (own c).get? "m") = some (.int 1) := by
  have object := World.Defined.root (@World.Defined.nothing { types := ⟨[]⟩, maxDepth := 0 }
    (fun _ => {}) rfl) (show newClass (ClassInfo.define "object" "builtins" [] .none {} []) _ =
      .done ⟨0⟩ _ from rfl)
  have a := object.derived (by decide)
    (show defineClass "A" "test" [] ⟨#[("m", .int 1)]⟩ _ = .done ⟨1⟩ _ from rfl)
  have b := a.derived (by decide) (show defineClass "B" "test" [⟨1⟩] {} _ = .done ⟨2⟩ _ from rfl)
  have c := b.derived (by decide)
    (show defineClass "C" "test" [⟨1⟩] ⟨#[("m", .int 2), ("n", .int 3)]⟩ _ = .done ⟨3⟩ _
      from rfl)
  have d := c.derived (by decide)
    (show defineClass "D" "test" [⟨2⟩, ⟨3⟩] {} _ = .done ⟨4⟩ _ from rfl)
  obtain ⟨below, walked, answers⟩ := members_flatten d (show (⟨4⟩ : Ref .cls).id < _ by decide)
  obtain ⟨found, _⟩ := answers "m" (by decide)
  have start : ∃ rest, below = ⟨2⟩ :: ⟨1⟩ :: rest := by
    change Heap.Preorder _ [⟨2⟩, ⟨3⟩] below at walked
    cases walked with
    | cons down next =>
      change Heap.Preorder _ [⟨1⟩] _ at down
      cases down with
      | cons deeper last => exact ⟨_, rfl⟩
  refine ⟨⟨4⟩, _, _, rfl, d, by decide, (and_iff_left_of_imp fun looked => ?_).mpr ?_⟩
  · exact ⟨below, walked, (Outcome.done.inj (found.symm.trans looked)).1⟩
  · obtain ⟨rest, rfl⟩ := start
    refine found.trans (congrArg (Outcome.done · _) ?_)
    simp [OrderedMap.get?_eq_lookup, OrderedMap.toList]

end EmbedScript
