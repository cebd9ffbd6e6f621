import EmbedScript.Interpreter
import EmbedScript.Proofs.Sequence.Calls
import EmbedScript.Proofs.Sequence.Sort
import EmbedScript.Proofs.Typing.Operators

/-!
Sorting as scripts ask for it, by keys and in either direction. A list that is sorted in place is
not touched before all calls have succeeded.
-/

namespace EmbedScript

open Exec List Engine

def Sequence.sortBy {m : Type → Type} [Monad m] {α κ : Type} (keyOf : α → m κ)
    (less : κ → κ → m Bool) (reverse : Bool) (items : List α) : m (List α) := do
  let keyed ← items.mapM fun item => do return (← keyOf item,item)
  let sorted ← mergeSort (fun a b => if reverse then less b.1 a.1 else less a.1 b.1) keyed
  return sorted.map (·.2)

def Sequence.byKey {α κ : Type} (reverse : Bool) (lt : κ → κ → Bool) (a b : κ × α) : Bool :=
  if reverse then lt b.1 a.1 else lt a.1 b.1

namespace Engine

def sortKey (k : Engine) (key : Option Value) (item : Value) : Exec Value :=
  match key with
  | none => pure item
  | some .none => pure item
  | some f => k.call f [item]

def less (k : Engine) (a b : Value) : Exec Bool := do k.truthy (← k.binary .lt a b)

def keyed (k : Engine) (key : Option Value) (items : List Value) : Exec (List (Value × Value)) :=
  items.mapM fun item => do return (← k.sortKey key item,item)

theorem sort_eq (k : Engine) (items : List Value) (key : Option Value) (reverse : Bool) :
    k.sort items key reverse = Sequence.sortBy (k.sortKey key) k.less reverse items := by
  cases key with
  | none => rfl
  | some f => cases f <;> rfl

theorem keyed_items {k : Engine} {items pairs} (ran : k.keyed key items w = .done pairs left) :
    pairs.map (·.2) = items := by
  induction items generalizing pairs w with
  | nil =>
    cases ran
    rfl
  | cons item items ih =>
    rw [keyed,mapM_cons] at ran
    obtain ⟨pair,middle,first,rest⟩ := bind_eq_done ran
    obtain ⟨others,_,following,last⟩ := bind_eq_done rest
    obtain ⟨found,_,_,made⟩ := bind_eq_done first
    cases made
    cases last
    rw [map_cons,ih following]

end Engine

inductive SortCall where
  | key (item : Value)
  | less (a b : Value)

def SortCall.perform (k : Engine) (key : Option Value) : SortCall → Exec Unit
  | .key item => discard (k.sortKey key item)
  | .less a b => discard (k.less a b)

namespace Engine

variable {k : Engine}

def sortNoting (k : Engine) (items : List Value) (key : Option Value) (reverse : Bool) : Noting SortCall (List Value) :=
  Sequence.sortBy (fun item => .call (.key item) (k.sortKey key item)) (fun a b => .call (.less a b) (k.less a b)) reverse items

def sortCalls (k : Engine) (items : List Value) (key : Option Value) (reverse : Bool) (w : World) :
    List (SortCall × World) := (k.sortNoting items key reverse w).2

theorem sort_linked (k : Engine) (items : List Value) (key : Option Value) (reverse : Bool)
    (w : World) : Linked (SortCall.perform k key) w (k.sortCalls items key reverse w) (k.sort items key reverse w) := by
  have keys (item : Value) : Notes (SortCall.perform k key)
      (.call (.key item) (k.sortKey key item)) (k.sortKey key item) := .call rfl
  have comparisons (a b : Value) : Notes (SortCall.perform k key) (.call (.less a b) (k.less a b)) (k.less a b) := .call rfl
  have notes : Notes (SortCall.perform k key) (k.sortNoting items key reverse)
      (Sequence.sortBy (k.sortKey key) k.less reverse items) := by
    refine .bind (.mapM (fun item => (keys item).bind fun found => .pure _) items) fun pairs =>
      .bind (.mergeSort (fun a b => ?_) pairs) fun sorted => .pure _
    cases reverse
    · exact comparisons a.1 b.1
    · exact comparisons b.1 a.1
  rw [sort_eq]
  exact (notes w).2

end Engine

-- The laws of sorting

open Sequence (WeakOrder Decides Arranged byKey)

theorem Sequence.decides_byKey {pairs : List (κ × α)}
    {less} (decides : Decides still (pairs.map (·.1)) less lt)
    (reverse : Bool) :
    Decides still pairs (fun a b => if reverse then less b.1 a.1 else less a.1 b.1) (byKey reverse lt) := by
  intro a first b second w holds
  cases reverse with
  | false => exact decides _ (mem_map_of_mem first) _ (mem_map_of_mem second) w holds
  | true => exact decides _ (mem_map_of_mem second) _ (mem_map_of_mem first) w holds

theorem Sequence.weakOrder_byKey {pairs : List (κ × α)}
    (order : WeakOrder (pairs.map (·.1)) lt) (reverse : Bool) :
    WeakOrder pairs (byKey reverse lt) := by
  cases reverse with
  | false => exact order.comap
  | true => exact order.comap.swap

structure SortLaws (k : Engine) : Prop where
  /-- Merge sort by a strict weak order. -/
  sorts {α : Type} {less : α → α → Exec Bool} {lt : α → α → Bool} {items : List α}
    {still : World → Prop} {w : World} (order : WeakOrder items lt)
    (decides : Decides still items less lt) (holds : still w) :
    ∃ sorted after, Sequence.mergeSort less items w = .done sorted after ∧
      Arranged lt items sorted
  /-- Sorting by keys, upward or downward. -/
  sortsByKey {items : List Value} {key : Option Value} {pairs : List (Value × Value)}
    {lt : Value → Value → Bool} {still : World → Prop} {w middle : World}
    (keyed : k.keyed key items w = .done pairs middle) (order : WeakOrder (pairs.map (·.1)) lt)
    (decides : Decides still (pairs.map (·.1)) k.less lt) (holds : still middle) (reverse : Bool) :
    pairs.map (·.2) = items ∧
      ∃ sorted after, k.sort items key reverse w = .done (sorted.map (·.2)) after ∧
        Arranged (byKey reverse lt) pairs sorted
  /-- A sort fails just when one of its calls does, and with its error. -/
  fails {items : List Value} {key : Option Value} {reverse : Bool} {w left : World} {e : Fault} :
    k.sort items key reverse w = .fault e left ↔
      ∃ call ∈ k.sortCalls items key reverse w, call.1.perform k key call.2 = .fault e left
  /-- A sort in place that has read its options stores what the sort gives. -/
  stores {r : Ref .list} {arguments : List Value} {options : SortOptions} {w middle after : World}
    {sorted : List Value}
    (read : k.sortOptions "sort" (splitKeywords arguments).2 w = .done options middle)
    (ran : k.sort (middle.heap.list r).toList options.key options.reverse middle =
      .done sorted after) (there : r.id < after.heap.lists.size) :
    ∃ left, k.performList .sort (.list r) arguments w = .done .none left ∧
      (left.heap.list r).toList = sorted
  /-- It fails as the sort does, -/
  failsInPlace {r : Ref .list} {arguments : List Value} {options : SortOptions}
    {w middle left : World} {e : Fault}
    (read : k.sortOptions "sort" (splitKeywords arguments).2 w = .done options middle) :
    k.performList .sort (.list r) arguments w = .fault e left ↔
      ∃ call ∈ k.sortCalls (middle.heap.list r).toList options.key options.reverse middle,
        call.1.perform k options.key call.2 = .fault e left
  /-- and then the list is as the calls left it. -/
  untouched {r : Ref .list} {arguments : List Value} {options : SortOptions}
    {w middle left : World} {e : Fault}
    (read : k.sortOptions "sort" (splitKeywords arguments).2 w = .done options middle)
    (failed : k.performList .sort (.list r) arguments w = .fault e left) :
    Linked (SortCall.perform k options.key) middle
      (k.sortCalls (middle.heap.list r).toList options.key options.reverse middle)
      (.fault e left : Outcome (List Value)) ∧
    ((∀ call ∈ k.sortCalls (middle.heap.list r).toList options.key options.reverse middle,
      ∀ after, (call.1.perform k options.key).Leaves call.2 after →
        after.heap.list r = call.2.heap.list r) →
      left.heap.list r = middle.heap.list r)

variable {k : Engine}

theorem performList_sort (read : k.sortOptions "sort" (splitKeywords arguments).2 w = .done options middle) :
    k.performList .sort (.list r) arguments w = (k.sort (middle.heap.list r).toList options.key options.reverse >>= fun sorted =>
        setList r sorted.toArray >>= fun _ => pure .none) middle := by
  exact bind_done read _

theorem performList_sort_fault
    (read : k.sortOptions "sort" (splitKeywords arguments).2 w = .done options middle) :
    k.performList .sort (.list r) arguments w = .fault e left ↔
      k.sort (middle.heap.list r).toList options.key options.reverse middle = .fault e left := by
  rw [performList_sort read,bind_apply]
  cases k.sort (middle.heap.list r).toList options.key options.reverse middle with
  | done sorted after => exact iff_of_false (fun failed => nomatch failed) fun failed => nomatch failed
  | fault e after => exact Iff.intro (fun same => by cases same; rfl) fun same => by cases same; rfl
  | halt h => exact iff_of_false (fun failed => nomatch failed) fun failed => nomatch failed

theorem sort_laws (k : Engine) : SortLaws k where
  sorts order decides holds := by
    obtain ⟨sorted, after, ran, _, arranged⟩ :=
      Sequence.mergeSort_arranges decides order (List.Subset.refl _) holds
    exact ⟨sorted, after, ran, arranged⟩
  sortsByKey := by
    intro items key pairs lt still w middle keyed order decides holds reverse
    obtain ⟨sorted, after, ran, _, arranged⟩ :=
      Sequence.mergeSort_arranges (Sequence.decides_byKey decides reverse)
        (Sequence.weakOrder_byKey order reverse) (List.Subset.refl _) holds
    refine ⟨Engine.keyed_items keyed, sorted, after, ?_, arranged⟩
    rw [Engine.sort_eq, Sequence.sortBy]
    exact (bind_done keyed _).trans (bind_done ran _)
  fails := (Engine.sort_linked ..).fault_iff
  stores := by
    intro r arguments options w middle after sorted read ran there
    refine ⟨{ after with heap.lists := after.heap.lists.modify r.id fun _ => sorted.toArray },
      ?_, ?_⟩
    · rw [performList_sort read, bind_done ran]
      rfl
    · simp [Heap.list, there, Array.getElem_modify]
  failsInPlace read := (performList_sort_fault read).trans (Engine.sort_linked ..).fault_iff
  untouched := by
    intro r arguments options w middle left e read failed
    have linked := Engine.sort_linked k (middle.heap.list r).toList options.key options.reverse middle
    rw [(performList_sort_fault read).mp failed] at linked
    exact ⟨linked, linked.keeps rfl⟩

-- Integers and their magnitudes

theorem Sequence.weakOrder_measure (f : α → Int) : WeakOrder among fun a b => decide (f a < f b) where
  irrefl a _ := by simp
  trans a _ b _ c _ left right := by
    rw [decide_eq_true_iff] at *
    omega
  tied a _ b _ c _ left right before after := by
    rw [decide_eq_false_iff_not] at *
    omega

def Value.lowerInt (a b : Value) : Bool := decide ((a.asInt?.getD 0).toInt < (b.asInt?.getD 0).toInt)

theorem Engine.less_int (silent : w.extensions.Silent "int") (a b : Int64) :
    k.less (.int a) (.int b) w = .done (decide (a.toInt < b.toInt)) w := by
  have compared : k.binary .lt (.int a) (.int b) w =
      .done (.bool (BinaryOp.lt.holds (compare a.toInt b.toInt))) w := binary_int .lt a b silent
  have holds : BinaryOp.lt.holds (compare a.toInt b.toInt) = decide (a.toInt < b.toInt) := by
    rw [Bool.eq_iff_iff,decide_eq_true_iff,← Int.compare_eq_lt]
    exact beq_iff_eq
  rw [less,bind_done compared,holds]
  rfl

theorem Engine.decides_ints (ints : ∀ v ∈ among, ∃ n, v = .int n) :
    Decides (fun w => w.extensions.Silent "int") among k.less Value.lowerInt := by
  intro a first b second w silent
  obtain ⟨x,rfl⟩ := ints a first
  obtain ⟨y,rfl⟩ := ints b second
  exact ⟨w,less_int silent x y,silent⟩

def magnitudes : World :=
  { types := ⟨[]⟩, maxDepth := 1
    heap.functions := #[⟨"abs","abs","builtins",.builtin .abs,false⟩]
    heap.lists := #[#[.str "a",.int 1]] }

def magnitude : Value := .function ⟨0⟩

theorem call_magnitude (arguments : List Value) : (engine 1).call magnitude arguments magnitudes =
      inCall (.builtin "abs") ((engine 0).numeric .abs arguments) magnitudes := rfl

theorem sortKey_magnitude (made : Word.abs? n = some m) :
    (engine 1).sortKey (some magnitude) (.int n) magnitudes = .done (.int m) magnitudes := by
  have applied (w : World) : (engine 0).numeric .abs [.int n] w = .done (.int m) w := by
    simp only [numeric,absolute,made]
    rfl
  refine (call_magnitude [.int n]).trans ?_
  simp only [inCall,inCode,applied]
  rfl

theorem keyed_magnitude : (engine 1).keyed (some magnitude) [.int (-2),.int 1,.int 2,.int (-1)] magnitudes =
      .done [(.int 2,.int (-2)),(.int 1,.int 1),(.int 2,.int 2),(.int 1,.int (-1))]
        magnitudes := by
  have two : Word.abs? (-2) = some 2 := by decide
  have one : Word.abs? 1 = some 1 := by decide
  have twice : Word.abs? 2 = some 2 := by decide
  have once : Word.abs? (-1) = some 1 := by decide
  simp only [keyed,mapM_cons,mapM_nil,bind_apply,pure_apply,
    sortKey_magnitude two,sortKey_magnitude one,sortKey_magnitude twice,sortKey_magnitude once]

def noMagnitude : Fault := .type "bad operand type for abs(): 'str'"

def afterNoMagnitude : World := { magnitudes with raised := some (noMagnitude,[.builtin "abs"]) }

theorem sortKey_no_magnitude : (engine 1).sortKey (some magnitude) (.str "a") magnitudes =
      .fault noMagnitude afterNoMagnitude := by
  have applied (w : World) : (engine 0).numeric .abs [.str "a"] w = fail noMagnitude w := by
    simp only [numeric,absolute]
    rfl
  refine (call_magnitude [.str "a"]).trans ?_
  simp only [inCall,inCode,applied,fail]
  rfl

theorem sortCalls_no_magnitude (items : List Value) (reverse : Bool) :
    (engine 1).sortCalls (.str "a" :: items) (some magnitude) reverse magnitudes = [(.key (.str "a"),magnitudes)] := by
  have first : Noting.call (.key (.str "a")) ((engine 1).sortKey (some magnitude) (.str "a"))
      magnitudes = (.fault noMagnitude afterNoMagnitude,[(SortCall.key (.str "a"),magnitudes)]) := by
    rw [Noting.call,sortKey_no_magnitude]
  rw [sortCalls,sortNoting,Sequence.sortBy,mapM_cons]
  rw [Noting.bind_fault (Noting.bind_fault (Noting.bind_fault first _) _) _]

theorem sort_laws_magnitudes :
    (∃ (sorted : List (Value × Value)) (after : World),
      (engine 1).sort [.int (-2), .int 1, .int 2, .int (-1)] (some magnitude) true magnitudes =
        .done (sorted.map (·.2)) after ∧
      Arranged (byKey true Value.lowerInt)
        [(.int 2, .int (-2)), (.int 1, .int 1), (.int 2, .int 2), (.int 1, .int (-1))] sorted) ∧
    ∃ left, (engine 1).performList .sort (.list ⟨0⟩) [.keyword 0 "key" magnitude] magnitudes =
        .fault noMagnitude left ∧
      left.heap.list ⟨0⟩ = magnitudes.heap.list ⟨0⟩ := by
  have laws := sort_laws (engine 1)
  constructor
  · refine (laws.sortsByKey keyed_magnitude (Sequence.weakOrder_measure _)
      (Engine.decides_ints ?_) ⟨fun _ => rfl, fun _ => rfl⟩ true).2
    simp
  · have read : (engine 1).sortOptions "sort" (splitKeywords [.keyword 0 "key" magnitude]).2
        magnitudes = .done { key := some magnitude } magnitudes := rfl
    have calls : (engine 1).sortCalls (magnitudes.heap.list ⟨0⟩).toList (some magnitude) false
        magnitudes = [(.key (.str "a"), magnitudes)] := sortCalls_no_magnitude [.int 1] false
    have failed : SortCall.perform (engine 1) (some magnitude) (.key (.str "a")) magnitudes =
        .fault noMagnitude afterNoMagnitude := by
      rw [SortCall.perform, discard_apply, bind_apply, sortKey_no_magnitude]
    have ended := (laws.failsInPlace (r := ⟨0⟩) read).mpr
      ⟨(.key (.str "a"), magnitudes), by rw [calls]; exact List.mem_singleton_self _, failed⟩
    refine ⟨afterNoMagnitude, ended, (laws.untouched read ended).2 fun call member after left => ?_⟩
    rw [calls, List.mem_singleton] at member
    subst member
    rw [Leaves, failed] at left
    rcases left with ⟨_, ran⟩ | ⟨_, ran⟩
    · cases ran
    · cases ran
      rfl

end EmbedScript
