import EmbedScript.Proofs.Exec
import EmbedScript.Sequence

/-!
Merge sort by a comparison that runs scripts and answers by a strict weak order.
-/

namespace EmbedScript.Sequence

open List

variable {among : List α}

structure WeakOrder (among : List α) (lt : α → α → Bool) : Prop where
  irrefl : ∀ a ∈ among, lt a a = false
  trans : ∀ a ∈ among, ∀ b ∈ among, ∀ c ∈ among, lt a b = true → lt b c = true → lt a c = true
  -- Of two values that tie with a third, neither is less.
  tied : ∀ a ∈ among, ∀ b ∈ among, ∀ c ∈ among, lt a b = false → lt b a = false →
    lt b c = false → lt c b = false → lt a c = false

def ties (lt : α → α → Bool) (a b : α) : Bool := !lt a b && !lt b a

theorem ties_comm (lt : α → α → Bool) (a b : α) : ties lt a b = ties lt b a := Bool.and_comm ..

theorem ties_iff : ties lt a b = true ↔ lt a b = false ∧ lt b a = false := by
  simp only [ties,Bool.and_eq_true,Bool.not_eq_true']

structure Arranged (lt : α → α → Bool) (items sorted : List α) : Prop where
  perm : sorted.Perm items
  ordered : sorted.Pairwise fun a b => lt b a = false
  stable : ∀ a ∈ items, sorted.filter (ties lt a) = items.filter (ties lt a)

namespace WeakOrder

variable (order : WeakOrder among lt)
include order

section

variable (first : a ∈ among) (second : b ∈ among)

include first second

theorem lt_of_lt_of_not_lt (third : c ∈ among) (below : lt b a = true) (above : lt c a = false) : lt b c = true := by
  cases apart : lt b c with
  | true => rfl
  | false =>
    have back : lt c b = false := Bool.eq_false_iff.mpr fun less => by
      rw [order.trans c third b second a first less below] at above
      contradiction
    have ahead : lt a c = false := Bool.eq_false_iff.mpr fun less => by
      rw [order.trans b second a first c third below less] at apart
      contradiction
    rw [order.tied b second c third a first apart back above ahead] at below
    contradiction

theorem not_lt_trans (third : c ∈ among) (left : lt b a = false) (right : lt c b = false) : lt c a = false :=
  Bool.eq_false_iff.mpr fun less => by
    rw [order.lt_of_lt_of_not_lt first third second less left] at right
    contradiction

theorem not_lt_of_lt (less : lt a b = true) : lt b a = false := Bool.eq_false_iff.mpr fun back => by
    have self := order.trans a first b second a first less back
    rw [order.irrefl a first] at self
    contradiction

theorem ties_trans (third : c ∈ among) (left : ties lt a b = true) (right : ties lt b c = true) : ties lt a c = true := by
  rw [ties_iff] at left right ⊢
  exact ⟨order.tied a first b second c third left.1 left.2 right.1 right.2,
    order.tied c third b second a first right.2 right.1 left.2 left.1⟩

theorem ties_congr (third : c ∈ among) (tie : ties lt a b = true) : ties lt a c = ties lt b c := by
  rw [Bool.eq_iff_iff]
  constructor
  · exact order.ties_trans second first third (ties_comm lt a b ▸ tie)
  · exact order.ties_trans first second third tie

end

omit order in
theorem swap (order : WeakOrder among lt) : WeakOrder among fun a b => lt b a where
  irrefl := order.irrefl
  trans a first b second c third left right := order.trans c third b second a first right left
  tied a first b second c third left right before after := order.tied c third b second a first before after left right

omit order in
theorem comap (order : WeakOrder (items.map f) lt) :
    WeakOrder items fun a b => lt (f a) (f b) where
  irrefl _ first := order.irrefl _ (mem_map_of_mem first)
  trans _ first _ second _ third := order.trans _ (mem_map_of_mem first) _ (mem_map_of_mem second) _ (mem_map_of_mem third)
  tied _ first _ second _ third := order.tied _ (mem_map_of_mem first) _ (mem_map_of_mem second) _ (mem_map_of_mem third)

end WeakOrder

def leftFirst (lt : α → α → Bool) (a b : α) : Bool := !lt b a

section Merging

variable (order : WeakOrder among lt)
include order

theorem merge_ordered (inLeft : left ⊆ among) (inRight : right ⊆ among) (first : left.Pairwise fun a b => lt b a = false)
    (second : right.Pairwise fun a b => lt b a = false) :
    (left.merge right (leftFirst lt)).Pairwise fun a b => lt b a = false := by
  fun_induction List.merge left right (leftFirst lt) with
  | case1 right => exact second
  | case2 left => exact first
  | case3 a left b right before ih =>
    rw [leftFirst,Bool.not_eq_true'] at before
    obtain ⟨least,rest⟩ := pairwise_cons.mp first
    obtain ⟨inA,inRest⟩ := cons_subset.mp inLeft
    obtain ⟨inB,_⟩ := cons_subset.mp inRight
    refine pairwise_cons.mpr ⟨fun c mem => ?_,ih inRest inRight rest second⟩
    rcases mem_merge.mp mem with mem | mem
    · exact least c mem
    · rcases mem_cons.mp mem with rfl | mem
      · exact before
      · exact order.not_lt_trans inA inB (inRight (.tail _ mem)) before ((pairwise_cons.mp second).1 c mem)
  | case4 a left b right before ih =>
    rw [leftFirst,Bool.not_eq_true',Bool.not_eq_false] at before
    obtain ⟨least,rest⟩ := pairwise_cons.mp second
    obtain ⟨inA,_⟩ := cons_subset.mp inLeft
    obtain ⟨inB,inRest⟩ := cons_subset.mp inRight
    have behind := order.not_lt_of_lt inB inA before
    refine pairwise_cons.mpr ⟨fun c mem => ?_,ih inLeft inRest first rest⟩
    rcases mem_merge.mp mem with mem | mem
    · rcases mem_cons.mp mem with rfl | mem
      · exact behind
      · exact order.not_lt_trans inB inA (inLeft (.tail _ mem)) behind ((pairwise_cons.mp first).1 c mem)
    · exact least c mem

theorem no_tie (inX : x ∈ among) (inLeft : a :: left ⊆ among) (inB : b ∈ among)
    (first : (a :: left).Pairwise fun a b => lt b a = false) (before : lt b a = true)
    (tie : ties lt x b = true) : (a :: left).filter (ties lt x) = [] := by
  rw [filter_eq_nil_iff]
  intro c mem other
  rw [ties_iff] at tie other
  have inA := inLeft (.head _)
  have above : lt c a = false := by
    rcases mem_cons.mp mem with rfl | mem
    · exact order.irrefl c inA
    · exact (pairwise_cons.mp first).1 c mem
  have less := order.lt_of_lt_of_not_lt inA inB (inLeft mem) before above
  rw [order.tied b inB x inX c (inLeft mem) tie.2 tie.1 other.1 other.2] at less
  contradiction

theorem merge_stable (inX : x ∈ among) (inLeft : left ⊆ among) (inRight : right ⊆ among)
    (first : left.Pairwise fun a b => lt b a = false) :
    (left.merge right (leftFirst lt)).filter (ties lt x) = left.filter (ties lt x) ++ right.filter (ties lt x) := by
  fun_induction List.merge left right (leftFirst lt) with
  | case1 right => rfl
  | case2 left => simp
  | case3 a left b right before ih =>
    have rest := ih (cons_subset.mp inLeft).2 inRight (pairwise_cons.mp first).2
    rw [filter_cons,filter_cons,rest]
    split <;> rfl
  | case4 a left b right before ih =>
    rw [leftFirst,Bool.not_eq_true',Bool.not_eq_false] at before
    obtain ⟨inB,inRest⟩ := cons_subset.mp inRight
    have rest := ih inLeft inRest first
    rw [filter_cons,@List.filter_cons _ b right,rest]
    split
    case isTrue tie =>
      rw [no_tie order inX inLeft inB first before tie]
      rfl
    case isFalse => rfl

theorem Arranged.stable_among (arranged : Arranged lt items sorted)
    (inside : items ⊆ among) (inX : x ∈ among) :
    sorted.filter (ties lt x) = items.filter (ties lt x) := by
  by_cases none : ∃ y ∈ items, ties lt x y = true
  · obtain ⟨y,mem,tie⟩ := none
    have same {z} (there : z ∈ items) : ties lt x z = ties lt y z := order.ties_congr inX (inside mem) (inside there) tie
    rw [filter_congr fun z there => same (arranged.perm.subset there),filter_congr fun z there => same there]
    exact arranged.stable y mem
  · have alone {some} (subset : some ⊆ items) : some.filter (ties lt x) = [] :=
      filter_eq_nil_iff.mpr fun y there tie => none ⟨y,subset there,tie⟩
    rw [alone (Subset.refl items),alone arranged.perm.subset]

theorem arranged_merge (inLeft : left ⊆ among) (inRight : right ⊆ among)
    (first : Arranged lt left left') (second : Arranged lt right right') :
    Arranged lt (left ++ right) (left'.merge right' (leftFirst lt)) := by
  have inLeft' := Subset.trans first.perm.subset inLeft
  have inRight' := Subset.trans second.perm.subset inRight
  constructor
  · exact (merge_perm_append _).trans (first.perm.append second.perm)
  · exact merge_ordered order inLeft' inRight' first.ordered second.ordered
  · intro x mem
    have inX : x ∈ among := by
      rcases mem_append.mp mem with mem | mem
      · exact inLeft mem
      · exact inRight mem
    rw [merge_stable order inX inLeft' inRight' first.ordered,filter_append,
      first.stable_among order inLeft inX,second.stable_among order inRight inX]

end Merging

theorem arranged_short (short : items.length ≤ 1) : Arranged lt items items where
  perm := .refl items
  ordered := by
    match items, short with
    | [], _ => exact .nil
    | [a], _ => exact pairwise_singleton ..
  stable _ _ := rfl

-- Comparisons that run

-- A comparison answers by an order, whatever else it does to the world.
def Decides (still : World → Prop) (among : List α) (less : α → α → Exec Bool) (lt : α → α → Bool) : Prop :=
  ∀ a ∈ among, ∀ b ∈ among, ∀ w, still w → ∃ after, less a b w = .done (lt a b) after ∧ still after

section Running

variable (decides : Decides still among less lt)
include decides

theorem merge_run (done : List α) (inLeft : left ⊆ among)
    (inRight : right ⊆ among) (holds : still w) :
    ∃ after, merge less done left right w = .done (done.reverse ++ left.merge right (leftFirst lt)) after ∧ still after := by
  fun_induction merge less done left right generalizing w with
  | case1 done right => exact ⟨w,by rw [nil_merge]; rfl,holds⟩
  | case2 done left nonempty => exact ⟨w,by rw [merge_right]; rfl,holds⟩
  | case3 done a left b right onRight onLeft =>
    obtain ⟨inA,restLeft⟩ := cons_subset.mp inLeft
    obtain ⟨inB,restRight⟩ := cons_subset.mp inRight
    obtain ⟨middle,compared,kept⟩ := decides b inB a inA w holds
    rw [Exec.bind_done compared]
    cases before : lt b a with
    | true =>
      obtain ⟨after,merged,stays⟩ := onRight inLeft restRight kept
      refine ⟨after,merged.trans ?_,stays⟩
      have later : ¬ leftFirst lt a b = true := by simp [leftFirst,before]
      rw [cons_merge_cons,if_neg later,reverse_cons,append_assoc,singleton_append]
    | false =>
      obtain ⟨after,merged,stays⟩ := onLeft restLeft inRight kept
      refine ⟨after,merged.trans ?_,stays⟩
      have first : leftFirst lt a b = true := by simp [leftFirst,before]
      rw [cons_merge_cons,if_pos first,reverse_cons,append_assoc,singleton_append]

theorem mergeSort_arranges (order : WeakOrder among lt) (inside : items ⊆ among) {w} (holds : still w) :
    ∃ sorted after, mergeSort less items w = .done sorted after ∧ still after ∧
      Arranged lt items sorted := by
  fun_induction mergeSort less items generalizing w with
  | case1 items short => exact ⟨items,w,rfl,holds,arranged_short short⟩
  | case2 items long half onLeft onRight =>
    have inLeft : items.take half ⊆ among := Subset.trans (take_subset ..) inside
    have inRight : items.drop half ⊆ among := Subset.trans (drop_subset ..) inside
    obtain ⟨left,middle,first,kept,sortedLeft⟩ := onLeft inLeft holds
    obtain ⟨right,later,second,keptOn,sortedRight⟩ := onRight inRight kept
    have givenLeft := Subset.trans sortedLeft.perm.subset inLeft
    have givenRight := Subset.trans sortedRight.perm.subset inRight
    obtain ⟨after,merged,stays⟩ := merge_run decides [] givenLeft givenRight keptOn
    refine ⟨left.merge right (leftFirst lt),after,?_,stays,?_⟩
    · rw [Exec.bind_done first,Exec.bind_done second,merged]
      rfl
    · have whole := arranged_merge order inLeft inRight sortedLeft sortedRight
      rwa [take_append_drop] at whole

end Running

end EmbedScript.Sequence
