import EmbedScript.Interpreter
import EmbedScript.Proofs.Equality.Content

/-!
Equality of data is sameness of their contents, so it is an equivalence.
-/

namespace EmbedScript

open Exec List OrderedMap HashKey

def Exec.Tells (x : Exec Bool) (w : World) (p : Prop) : Prop := ∃ answer, x w = .done answer w ∧ (answer = true ↔ p)

namespace Exec.Tells

variable {x y : Exec Bool} {w : World}

theorem congr (tells : x.Tells w p) (same : p ↔ q) : x.Tells w q := by
  obtain ⟨answer,ran,told⟩ := tells
  exact ⟨answer,ran,told.trans same⟩

theorem of_eq (tells : y.Tells w p) (same : x w = y w) : x.Tells w p := by
  obtain ⟨answer,ran,told⟩ := tells
  exact ⟨answer,same.trans ran,told⟩

theorem done_true (tells : x.Tells w p) : x w = .done true w ↔ p := by
  obtain ⟨answer,ran,told⟩ := tells
  rw [ran,← told]
  simp

theorem after_heap (tells : (f (g w.heap)).Tells w p) : (heap g >>= f).Tells w p :=
  tells.of_eq (bind_done (heap_apply g w) f)

theorem and_then (first : x.Tells w p) (second : y.Tells w q) : Exec.Tells (do if ← x then y else return false) w (p ∧ q) := by
  obtain ⟨answer,ran,told⟩ := first
  cases answer with
  | true =>
    refine (second.of_eq (bind_done ran _)).congr ?_
    simp [← told]
  | false => exact ⟨false,bind_done ran _,by simp [← told]⟩

end Exec.Tells

section Comparing

variable {k : Engine} {w : World} {fuel : Nat}

theorem allEqual_tells (left : Forall₂ (Value.Contains w.heap deep) as cs)
    (right : Forall₂ (Value.Contains w.heap far) bs cs') (balanced : as.length = bs.length)
    (each : ∀ {a b c c'}, a.Contains w.heap deep c → b.Contains w.heap far c' → (equal a b).Tells w (c = c')) :
    (allEqual equal as bs).Tells w (cs = cs') := by
  induction left generalizing bs cs' with
  | nil =>
    cases right with
    | nil => exact ⟨true,rfl,by simp⟩
    | cons => contradiction
  | cons first _ ih =>
    cases right with
    | nil => contradiction
    | cons second right =>
      refine ((each first second).and_then (ih right (Nat.succ.inj balanced))).congr ?_
      rw [List.cons.injEq]

theorem allM_tells {entries} (left : Forall₂ (Files w.heap deep) entries filed)
    (each : ∀ {entry filed}, Files w.heap deep entry filed → (test entry.2).Tells w (filed ∈ others)) :
    Exec.Tells ((entries.map (·.2)).allM test) w (filed ⊆ others) := by
  induction left with
  | nil => exact ⟨true,rfl,by simp⟩
  | cons first _ ih =>
    obtain ⟨answer,ran,told⟩ := each first
    cases answer with
    | true =>
      refine (ih.of_eq (bind_done ran _)).congr ?_
      simp [← told]
    | false => exact ⟨false,bind_done ran _,by simp [← told]⟩

theorem sameKeys_iff {t : ValueSet} (left : s.keys.Nodup) (right : t.keys.Nodup) :
    sameKeys s t = true ↔ s.keys ⊆ t.keys ∧ t.keys ⊆ s.keys := by
  have sizes : s.size = t.size ↔ s.keys.length = t.keys.length := by simp [size,OrderedMap.keys,toList]
  rw [← length_and_subset_iff left right,← sizes,sameKeys,Bool.and_eq_true,beq_iff_eq,← Array.all_toList,all_eq_true]
  simp only [contains_iff_mem_keys]
  exact and_congr_right fun _ => forall_mem_map.symm

theorem Dict.get?_hashed {d : Dict} {hash} (hashed : ofValue key = .ok hash) :
    d.get? key = .ok ((d.entries.toList.lookup hash).map (·.2)) := by
  rw [Dict.get?,hashed,← get?_eq_lookup]
  rfl

namespace Engine

theorem sameItems_tells (left : ShowsAll w.heap as ds) (right : ShowsAll w.heap bs es)
    (each : ∀ {a b c c'}, a.Contains w.heap (Datum.depths ds) c →
      b.Contains w.heap (Datum.depths es) c' → (k.equalsFrom fuel a b).Tells w (c = c')) :
    Exec.Tells (if as.length = bs.length then allEqual (k.equalsFrom fuel) as bs else return false) w
      (Datum.contents ds = Datum.contents es) := by
  have first := left.contents (Nat.le_refl _)
  have second := right.contents (Nat.le_refl _)
  by_cases balanced : as.length = bs.length
  · rw [if_pos balanced]
    exact allEqual_tells first second balanced each
  · rw [if_neg balanced]
    refine ⟨false,rfl,?_⟩
    have different : Datum.contents ds ≠ Datum.contents es := fun same => balanced (by rw [first.length_eq,second.length_eq,same])
    simp [different]

theorem dicts_tell
    (left : Shows w.heap (.dict r) (.dict es)) (right : Shows w.heap (.dict s) (.dict es'))
    (each : ∀ {a b c c'}, a.Contains w.heap (Datum.depthsOf es) c →
      b.Contains w.heap (Datum.depthsOf es') c' → (k.equalsFrom fuel a b).Tells w (c = c')) :
    (k.equalsFrom (fuel + 1) (.dict r) (.dict s)).Tells w (Datum.content (.dict es) = Datum.content (.dict es')) := by
  rw [equalsFrom]
  by_cases same : r = s
  · subst same
    rw [if_pos rfl,left.functional right]
    exact ⟨true,rfl,by simp⟩
  · rw [if_neg same]
    obtain ⟨files,keys⟩ := left.filed
    obtain ⟨files',keys'⟩ := right.filed
    have counted : (w.heap.dict r).items.length = (Datum.filed es).length := by
      rw [← files.length_eq]
      exact length_map ..
    have counted' : (w.heap.dict s).size = (Datum.filed es').length := files'.length_eq
    -- Only the left entries are looked up: the count stands for the other direction.
    rw [left.dict_content_iff right,← length_and_subset_iff keys.of_map keys'.of_map]
    refine .after_heap (.after_heap ?_)
    rw [counted,counted']
    by_cases balanced : (Datum.filed es).length = (Datum.filed es').length
    · rw [if_neg (not_not_intro balanced)]
      refine (allM_tells files ?_).congr (and_iff_right balanced).symm
      intro entry found file
      have asked : heapExcept (fun h => (h.dict s).get? entry.2.1) w =
          .done (((w.heap.dict s).entries.toList.lookup entry.1).map (·.2)) w := by
        rw [heapExcept,Dict.get?_hashed file.hashed]
        rfl
      have mem : found ∈ Datum.filed es' ↔ (Datum.filed es').lookup entry.1 = some found.2 := by
        rw [file.hash,← mem_iff_lookup keys']
      rcases Files.lookup files' entry.1 with ⟨missing,absent⟩ | ⟨_,_,_,there,present,held⟩
      · rw [missing] at asked
        exact ⟨false,bind_done asked _,by simp [mem,absent]⟩
      · rw [there] at asked
        refine ((each file.valued held).of_eq (bind_done asked _)).congr ?_
        rw [mem,present,Option.some.injEq]
        exact eq_comm
    · rw [if_pos balanced]
      exact ⟨false,rfl,by simp [balanced]⟩

theorem sets_tell {s} (left : Shows w.heap (.set r) (.set ds)) (right : Shows w.heap (.set s) (.set es)) :
    (k.equalsFrom (fuel + 1) (.set r) (.set s)).Tells w (Datum.content (.set ds) = Datum.content (.set es)) := by
  refine ⟨r == s || (w.heap.set r).sameKeys (w.heap.set s),rfl,?_⟩
  rw [left.set_content_iff right,Bool.or_eq_true,sameKeys_iff left.members.2.1 right.members.2.1,or_iff_right_of_imp]
  intro same
  cases eq_of_beq same
  exact ⟨fun _ => id,fun _ => id⟩

-- Equality of data is sameness of their contents; the fuel has to reach as deep as the left one.
theorem equalsFrom_tells (left : a.Contains w.heap deep c) (right : b.Contains w.heap far c')
    (enough : deep < fuel) : (k.equalsFrom fuel a b).Tells w (c = c') := by
  induction fuel generalizing a b c c' deep far with
  | zero => contradiction
  | succ fuel ih =>
    obtain ⟨d,shown,shallow,rfl⟩ := left
    obtain ⟨e,seen,_,rfl⟩ := right
    cases shown with
    | none | bool | int | str => cases seen <;> refine ⟨_,rfl,?_⟩ <;>
        simp [Heap.plainEquals,Value.isNumber,Value.sameNumber,Value.same,Value.asInt?,Datum.content]
    | @list r items ds stored shown =>
      cases seen with
      | @list s others es stored' shown' =>
        have within : Datum.depths ds < fuel := Nat.lt_of_succ_lt_succ (Nat.lt_of_le_of_lt shallow enough)
        rw [equalsFrom,Datum.content,Datum.content,Content.list.injEq]
        by_cases same : r = s
        · subst same
          rw [if_pos rfl]
          cases stored.symm.trans stored'
          rw [shown.functional shown']
          exact ⟨true,rfl,by simp⟩
        · rw [if_neg same]
          refine .after_heap (.after_heap ?_)
          rw [Heap.list,Heap.list,stored,stored']
          exact sameItems_tells shown shown' fun left right => ih left right within
      | _ => exact ⟨false,rfl,by simp [Datum.content]⟩
    | @tuple tag items ds shown =>
      cases seen with
      | @tuple tag' others es shown' =>
        have within : Datum.depths ds < fuel := Nat.lt_of_succ_lt_succ (Nat.lt_of_le_of_lt shallow enough)
        rw [Datum.content,Datum.content,Content.tuple.injEq]
        exact sameItems_tells shown shown' fun left right => ih left right within
      | _ => exact ⟨false,rfl,by simp [Datum.content]⟩
    | set stored shown nodup =>
      cases seen with
      | set stored' shown' distinct' => exact sets_tell (.set stored shown nodup) (.set stored' shown' distinct')
      | _ => exact ⟨false,rfl,by simp [Datum.content]⟩
    | dict stored shown nodup =>
      cases seen with
      | dict stored' shown' distinct' =>
        have within := Nat.lt_of_succ_lt_succ (Nat.lt_of_le_of_lt shallow enough)
        exact dicts_tell (.dict stored shown nodup) (.dict stored' shown' distinct') fun left right => ih left right within
      | _ => exact ⟨false,rfl,by simp [Datum.content]⟩

theorem equals_tells (left : a.Contains w.heap k.fuel c) (right : b.Contains w.heap k.fuel c') :
    (k.equals a b).Tells w (c = c') :=
  equalsFrom_tells left right (Nat.lt_succ_self _)

end Engine

end Comparing

def Engine.Equal (k : Engine) (w : World) (a b : Value) : Prop := k.equals a b w = .done true w

def Engine.Covered (k : Engine) (w : World) (entries others : List (Value × Value)) : Prop :=
  ∀ e ∈ entries, ∃ e' ∈ others, k.Equal w e.1 e'.1 ∧ k.Equal w e.2 e'.2

section Meaning

variable {k : Engine} {w : World} {a : Value}

theorem Value.Contains.mono (held : a.Contains h deep c) (within : deep ≤ far) : a.Contains h far c := by
  obtain ⟨d,shown,shallow,same⟩ := held
  exact ⟨d,shown,Nat.le_trans shallow within,same⟩

namespace Engine

theorem equal_iff (left : a.Contains w.heap k.fuel c) (right : b.Contains w.heap k.fuel c') : k.Equal w a b ↔ c = c' :=
  (equals_tells left right).done_true

theorem equal_iff_hash (left : a.IsData w.heap deep)
    (right : b.IsData w.heap far) (enough : deep ≤ k.fuel)
    (hashed : ofValue a = .ok first) (hashed' : ofValue b = .ok second) :
    k.Equal w a b ↔ first = second := by
  obtain ⟨d,shown,shallow⟩ := left
  obtain ⟨e,seen,_⟩ := right
  have key := shown.isKey hashed
  have key' := seen.isKey hashed'
  have reach : a.height ≤ k.fuel := Nat.le_trans shown.height_le (Nat.le_trans shallow enough)
  rw [← alike_iff key key' hashed hashed',Equal,equals_keys key key' reach]
  simp

theorem equal_entry_iff
    (left : Files w.heap deep entry f) (right : Files w.heap far other g) (enough : deep ≤ k.fuel)
    (enough' : far ≤ k.fuel) :
    k.Equal w entry.2.1 other.2.1 ∧ k.Equal w entry.2.2 other.2.2 ↔ f = g := by
  rw [equal_iff_hash left.keyed right.keyed enough left.hashed right.hashed,
    equal_iff (left.valued.mono enough) (right.valued.mono enough'),left.hash,right.hash]
  exact Prod.ext_iff.symm

theorem exists_equal_entry_iff
    (left : Files w.heap deep entry f) (right : Forall₂ (Files w.heap far) others found)
    (enough : deep ≤ k.fuel) (enough' : far ≤ k.fuel) :
    (∃ e ∈ others.map (·.2), k.Equal w entry.2.1 e.1 ∧ k.Equal w entry.2.2 e.2) ↔ f ∈ found := by
  induction right with
  | nil => simp
  | cons first _ ih => rw [map_cons,exists_mem_cons_iff,ih,mem_cons,equal_entry_iff left first enough enough']

theorem covered_iff {entries} (left : Forall₂ (Files w.heap deep) entries kept)
    (right : Forall₂ (Files w.heap far) others found) (enough : deep ≤ k.fuel)
    (enough' : far ≤ k.fuel) :
    k.Covered w (entries.map (·.2)) (others.map (·.2)) ↔ kept ⊆ found := by
  induction left with
  | nil => simp [Covered]
  | cons first _ ih =>
    rw [cons_subset,← ih,← exists_equal_entry_iff first right enough enough']
    exact forall_mem_cons

theorem members_covered_iff {members others : List (HashKey × Value)}
    (left : ∀ m ∈ members, ofValue m.2 = .ok m.1 ∧ m.2.IsData w.heap deep)
    (right : ∀ m ∈ others, ofValue m.2 = .ok m.1 ∧ m.2.IsData w.heap far)
    (enough : deep ≤ k.fuel) :
    (∀ v ∈ members.map (·.2), ∃ v' ∈ others.map (·.2), k.Equal w v v') ↔ members.map (·.1) ⊆ others.map (·.1) := by
  have paired : ∀ m ∈ members, ∀ m' ∈ others, (k.Equal w m.2 m'.2 ↔ m.1 = m'.1) := by
    intro m here m' there
    exact equal_iff_hash (left m here).2 (right m' there).2 enough (left m here).1 (right m' there).1
  constructor
  · intro covered hash mem
    obtain ⟨m,here,rfl⟩ := mem_map.mp mem
    obtain ⟨_,other,equal⟩ := covered m.2 (mem_map_of_mem here)
    obtain ⟨m',there,rfl⟩ := mem_map.mp other
    rw [(paired m here m' there).mp equal]
    exact mem_map_of_mem there
  · intro within v mem
    obtain ⟨m,here,rfl⟩ := mem_map.mp mem
    obtain ⟨m',there,same⟩ := mem_map.mp (within (mem_map_of_mem here))
    exact ⟨m'.2,mem_map_of_mem there,(paired m here m' there).mpr same.symm⟩

theorem equal_dicts_iff (left : Value.IsData w.heap k.fuel (.dict r))
    (right : Value.IsData w.heap k.fuel (.dict s)) :
    k.Equal w (.dict r) (.dict s) ↔ k.Covered w (w.heap.dict r).items (w.heap.dict s).items ∧
        k.Covered w (w.heap.dict s).items (w.heap.dict r).items := by
  obtain ⟨_,shown,shallow⟩ := left
  obtain ⟨_,seen,shallow'⟩ := right
  obtain ⟨es,rfl⟩ := shown.exists_dict
  obtain ⟨es',rfl⟩ := seen.exists_dict
  have reach : Datum.depthsOf es ≤ k.fuel := Nat.le_of_succ_le shallow
  have reach' : Datum.depthsOf es' ≤ k.fuel := Nat.le_of_succ_le shallow'
  rw [equal_iff ⟨_,shown,shallow,rfl⟩ ⟨_,seen,shallow',rfl⟩,shown.dict_content_iff seen]
  exact and_congr (covered_iff shown.filed.1 seen.filed.1 reach reach').symm
    (covered_iff seen.filed.1 shown.filed.1 reach' reach).symm

theorem equal_sets_iff {r s} (left : Value.IsData w.heap k.fuel (.set r))
    (right : Value.IsData w.heap k.fuel (.set s)) :
    k.Equal w (.set r) (.set s) ↔ (∀ v ∈ (w.heap.set r).values, ∃ v' ∈ (w.heap.set s).values, k.Equal w v v') ∧
        ∀ v ∈ (w.heap.set s).values, ∃ v' ∈ (w.heap.set r).values, k.Equal w v v' := by
  obtain ⟨_,shown,shallow⟩ := left
  obtain ⟨_,seen,shallow'⟩ := right
  obtain ⟨ds,rfl⟩ := shown.exists_set
  obtain ⟨es,rfl⟩ := seen.exists_set
  have reach : Datum.depths ds ≤ k.fuel := Nat.le_of_succ_le shallow
  have reach' : Datum.depths es ≤ k.fuel := Nat.le_of_succ_le shallow'
  rw [equal_iff ⟨_,shown,shallow,rfl⟩ ⟨_,seen,shallow',rfl⟩,shown.set_content_iff seen]
  exact and_congr (members_covered_iff shown.members.2.2 seen.members.2.2 reach).symm
    (members_covered_iff seen.members.2.2 shown.members.2.2 reach').symm

end Engine

end Meaning

/-- What equality of data obeys, as deep as the fuel reaches. -/
structure EqualityLaws (k : Engine) (w : World) : Prop where
  answered : ∀ {a b : Value}, a.IsData w.heap k.fuel → b.IsData w.heap k.fuel →
    ∃ answer, k.equals a b w = .done answer w ∧
      (w.extensions.get? a.typeKey "__eq__" = none →
        k.binary .eq a b w = .done (.bool answer) w)
  meaning : ∀ {a b : Value} {d e : Datum}, Shows w.heap a d → Shows w.heap b e →
    d.depth ≤ k.fuel → e.depth ≤ k.fuel → (k.Equal w a b ↔ d.content = e.content)
  equivalence : Equivalence fun a b : { v : Value // v.IsData w.heap k.fuel } => k.Equal w a.1 b.1
  dicts : ∀ {r s : Ref .dict}, Value.IsData w.heap k.fuel (.dict r) →
    Value.IsData w.heap k.fuel (.dict s) →
      (k.Equal w (.dict r) (.dict s) ↔
        k.Covered w (w.heap.dict r).items (w.heap.dict s).items ∧
          k.Covered w (w.heap.dict s).items (w.heap.dict r).items)
  sets : ∀ {r s : Ref .set}, Value.IsData w.heap k.fuel (.set r) →
    Value.IsData w.heap k.fuel (.set s) →
      (k.Equal w (.set r) (.set s) ↔
        (∀ v ∈ (w.heap.set r).values, ∃ v' ∈ (w.heap.set s).values, k.Equal w v v') ∧
          ∀ v ∈ (w.heap.set s).values, ∃ v' ∈ (w.heap.set r).values, k.Equal w v v')

theorem equality_laws (k : Engine) (w : World) : EqualityLaws k w where
  answered left right := by
    obtain ⟨_, held⟩ := left.contains
    obtain ⟨_, held'⟩ := right.contains
    obtain ⟨answer, ran, _⟩ := Engine.equals_tells (k := k) held held'
    refine ⟨answer, ran, fun silent => ?_⟩
    rw [Engine.binary_silent .eq left.isObject_eq_false right.isObject_eq_false silent]
    exact Engine.settled_eq ran
  meaning shown seen shallow shallow' :=
    Engine.equal_iff ⟨_, shown, shallow, rfl⟩ ⟨_, seen, shallow', rfl⟩
  equivalence := by
    refine ⟨?_, ?_, ?_⟩
    · rintro ⟨a, data⟩
      obtain ⟨_, held⟩ := data.contains
      exact (Engine.equal_iff held held).mpr rfl
    · rintro ⟨a, left⟩ ⟨b, right⟩ equal
      obtain ⟨_, held⟩ := left.contains
      obtain ⟨_, held'⟩ := right.contains
      exact (Engine.equal_iff held' held).mpr ((Engine.equal_iff held held').mp equal).symm
    · rintro ⟨a, left⟩ ⟨b, middle⟩ ⟨c, right⟩ equal equal'
      obtain ⟨_, held⟩ := left.contains
      obtain ⟨_, between⟩ := middle.contains
      obtain ⟨_, held'⟩ := right.contains
      exact (Engine.equal_iff held held').mpr
        (((Engine.equal_iff held between).mp equal).trans
          ((Engine.equal_iff between held').mp equal'))
  dicts := Engine.equal_dicts_iff
  sets := Engine.equal_sets_iff

-- The dicts {1: [1, 2], "a": ()} and {"a": (), True: [True, 2]}.
def twoOrders : World :=
  { World.blank with
    heap :=
      { lists := #[#[.int 1,.int 2],#[.bool true,.int 2]]
        dicts := #[⟨⟨#[(.atom (.int 1),.int 1,.list ⟨0⟩),(.atom (.str "a"),.str "a",.tuple 0 [])]⟩⟩,
          ⟨⟨#[(.atom (.str "a"),.str "a",.tuple 1 []),(.atom (.int 1),.bool true,.list ⟨1⟩)]⟩⟩] } }

theorem twoOrders_first : Value.IsData twoOrders.heap 2 (.dict ⟨0⟩) :=
  ⟨_,.dict rfl (.cons rfl (.int 1) (.list rfl (.cons (.int 1) (.cons (.int 2) .nil)))
    (.cons rfl (.str "a") (.tuple .nil) .nil)) (by decide),by decide⟩

theorem twoOrders_second : Value.IsData twoOrders.heap 2 (.dict ⟨1⟩) := ⟨_,.dict rfl (.cons rfl (.str "a") (.tuple .nil)
    (.cons rfl (.bool true) (.list rfl (.cons (.bool true) (.cons (.int 2) .nil))) .nil)) (by decide),by decide⟩

theorem equality_laws_twoOrders :
    Value.IsData twoOrders.heap 2 (.dict ⟨0⟩) ∧ Value.IsData twoOrders.heap 2 (.dict ⟨1⟩) ∧
      (engine 3).Equal twoOrders (.dict ⟨0⟩) (.dict ⟨1⟩) ∧
      (engine 3).Equal twoOrders (.dict ⟨1⟩) (.dict ⟨0⟩) ∧
      (engine 3).Covered twoOrders (twoOrders.heap.dict ⟨1⟩).items
        (twoOrders.heap.dict ⟨0⟩).items := by
  have laws := equality_laws (engine 3) twoOrders
  have equal : (engine 3).Equal twoOrders (.dict ⟨0⟩) (.dict ⟨1⟩) := rfl
  have back := laws.equivalence.symm (x := ⟨_, twoOrders_first⟩) (y := ⟨_, twoOrders_second⟩) equal
  exact ⟨twoOrders_first, twoOrders_second, equal, back,
    ((laws.dicts twoOrders_first twoOrders_second).mp equal).2⟩

end EmbedScript
