import EmbedScript.Interpreter
import EmbedScript.Proofs.Datum.Text
import EmbedScript.Proofs.Display.Unfolding

/-!
The text of values that may hold themselves. Along each path of a display a list or a dict is
expanded once, and one that does not hold itself is never cut.
-/

namespace EmbedScript

open Exec Relation World

theorem Exec.mapM_done {f : α → Exec β} {items : List α}
    (each : ∀ a ∈ items, f a w = .done (g a) w) : items.mapM f w = .done (items.map g) w := by
  induction items with
  | nil => rfl
  | cons a rest ih =>
    have others := ih fun b mem => each b (.tail _ mem)
    rw [List.mapM_cons,bind_done (each a (.head _)),bind_done others]
    rfl

namespace World

def shown (w : World) : List Container := w.shownLists.map .list ++ w.shownDicts.map .dict

def entering (w : World) : Container → World
  | .list r => { w with shownLists := r :: w.shownLists }
  | .dict r => { w with shownDicts := r :: w.shownDicts }

variable {w : World}

theorem list_mem_shown : .list r ∈ w.shown ↔ r ∈ w.shownLists := by simp [shown]

theorem dict_mem_shown : .dict r ∈ w.shown ↔ r ∈ w.shownDicts := by simp [shown]

theorem heap_entering : (w.entering c).heap = w.heap := by cases c <;> rfl

end World

namespace Engine

variable (k : Engine) {fuel : Nat} {w : World} {texts : Value → String}

theorem textFrom_plain (plain : v.isLeaf = true) :
    k.textFrom (fuel + 1) false v w = .done (w.heap.plainText v) w := by
  cases v with
  | tuple | list | dict | set | object | native | keyword | method => contradiction
  | _ => rfl

theorem textFrom_again (seen : c ∈ w.shown) : k.textFrom (fuel + 1) false c.value w = .done c.cut w := by
  cases c with
  | list r =>
    have shown : w.shownLists.contains r = true := by simpa using list_mem_shown.mp seen
    change showingList r _ w = _
    rw [showingList,bind_done (look_apply ..),shown]
    rfl
  | dict r =>
    have shown : w.shownDicts.contains r = true := by simpa using dict_mem_shown.mp seen
    change showingDict r _ w = _
    rw [showingDict,bind_done (look_apply ..),shown]
    rfl

section Items

variable {items : List Value} (each : ∀ v ∈ items, k.textFrom fuel false v w = .done (texts v) w)
include each

theorem textFrom_joined : (do return ", ".intercalate (← items.mapM (k.textFrom fuel false))) w =
      .done (", ".intercalate (items.map texts)) w :=
  bind_done (mapM_done each) _

theorem textFrom_items (tag : Nat) : k.textFrom (fuel + 1) false (.tuple tag items) w =
      .done (Bracket.tuple.write (items.map texts)) w := by
  have joined := k.textFrom_joined each
  match items with
  | [] => rfl
  | [v] => exact bind_done (each v (.head _)) _
  | _ :: _ :: _ => exact bind_done joined _

theorem textFrom_members (held : (w.heap.set r).values = items) :
    k.textFrom (fuel + 1) false (.set r) w = .done (Bracket.set.write (items.map texts)) w := by
  have joined := k.textFrom_joined each
  rw [textFrom,bind_done (heap_apply ..),held]
  cases items with
  | nil => rfl
  | cons v vs => exact bind_done joined _

end Items

theorem textFrom_expanded_list (fresh : .list r ∉ w.shown) (each : ∀ v ∈ (w.heap.list r).toList,
      k.textFrom fuel false v (w.entering (.list r)) = .done (texts v) (w.entering (.list r))) :
    k.textFrom (fuel + 1) false (.list r) w =
      .done ((Bracket.container (.list r)).write ((w.heap.list r).toList.map texts)) w := by
  have joined := k.textFrom_joined each
  exact showingList_done (fun seen => fresh (list_mem_shown.mpr seen)) (bind_done joined _)

theorem textFrom_expanded_dict {texts} (fresh : .dict r ∉ w.shown)
    (each : ∀ e ∈ (w.heap.dict r).items, ∃ key value,
      k.textFrom fuel false e.1 (w.entering (.dict r)) = .done key (w.entering (.dict r)) ∧
      k.textFrom fuel false e.2 (w.entering (.dict r)) = .done value (w.entering (.dict r)) ∧
      texts e = Bracket.entry.write [key,value]) :
    k.textFrom (fuel + 1) false (.dict r) w =
      .done ((Bracket.container (.dict r)).write ((w.heap.dict r).items.map texts)) w := by
  refine showingDict_done (fun seen => fresh (dict_mem_shown.mpr seen)) ?_
  refine bind_done (mapM_done fun e mem => ?_) _
  obtain ⟨key,value,first,second,written⟩ := each e mem
  rw [written]
  exact (bind_done first _).trans (bind_done second _)

end Engine

namespace Unfolds

variable {w : World} {shown : List Container} {c : Container} {t : Display}

theorem entering (unfolds : Unfolds w.heap (c :: w.shown) p t) : Unfolds (w.entering c).heap (w.entering c).shown p t := by
  rw [heap_entering]
  refine unfolds.congr fun d _ => ?_
  cases c <;> cases d <;> simp [entering,list_mem_shown,dict_mem_shown]

theorem of_entry (unfolds : Unfolds h shown (.entry key value) t) :
    ∃ first second, t = .node .entry [first,second] ∧ Unfolds h shown (.value key) first ∧
      Unfolds h shown (.value value) second := by
  cases unfolds with
  | again made => cases made
  | node made _ display each =>
    cases made
    exact ⟨_,_,rfl,each _ (by simp),each _ (by simp)⟩

-- By induction on the fuel. The parts of a container are shown in the world that has entered it.
theorem textFrom (k : Engine) (fuel : Nat) (unfolds : Unfolds w.heap w.shown (.value v) t)
    (enough : t.depth < fuel) : k.textFrom fuel false v w = .done t.text w := by
  induction fuel generalizing w v t with
  | zero => exact absurd enough (Nat.not_lt_zero _)
  | succ fuel ih =>
    cases unfolds with
    | leaf plain => exact k.textFrom_plain plain
    | again made seen =>
      cases Heap.eq_of_parts made
      exact k.textFrom_again seen
    | @node _ _ bracket parts made fresh display each =>
      have shallow (q : Subject) (mem : q ∈ parts) : (display q).depth < fuel :=
        Nat.lt_of_le_of_lt (Display.depth_le_depths (List.mem_map_of_mem mem)) (Nat.lt_of_succ_lt_succ enough)
      have part {u} (mem : .value u ∈ parts) (outside : bracket.expands = []) :
          k.textFrom fuel false u w = .done (display (.value u)).text w := by
        have unfolds := each _ mem
        rw [outside] at unfolds
        exact ih unfolds (shallow _ mem)
      rw [Display.text_node]
      cases v with
      | tuple tag items =>
        cases made
        rw [List.map_map]
        exact k.textFrom_items (fun u mem => part (List.mem_map_of_mem mem) rfl) tag
      | set r =>
        cases made
        rw [List.map_map]
        exact k.textFrom_members (fun u mem => part (List.mem_map_of_mem mem) rfl) rfl
      | list r =>
        cases made
        rw [List.map_map]
        refine k.textFrom_expanded_list (fresh _ (by simp [Bracket.expands])) fun u mem => ?_
        have held : Subject.value u ∈ _ := List.mem_map_of_mem mem
        exact ih (each _ held).entering (shallow _ held)
      | dict r =>
        cases made
        rw [List.map_map]
        refine k.textFrom_expanded_dict (fresh _ (by simp [Bracket.expands])) fun e mem => ?_
        have held : Subject.entry e.1 e.2 ∈ (w.heap.dict r).items.map fun e => .entry e.1 e.2 := List.mem_map.mpr ⟨e,mem,rfl⟩
        obtain ⟨first,second,written,ofKey,ofValue⟩ := (each _ held).of_entry
        have deep := shallow _ held
        rw [written] at deep
        have near {u} (mem : u ∈ [first,second]) : u.depth < fuel :=
          Nat.lt_of_le_of_lt (Display.depth_le_depths mem) (Nat.lt_of_succ_lt deep)
        refine ⟨first.text,second.text,ih ofKey.entering (near (by simp)),ih ofValue.entering (near (by simp)),?_⟩
        exact congrArg Display.text written
      | _ => cases made

end Unfolds

structure Displayed (w : World) (v : Value) (t : Display) : Prop where
  unfolds : Unfolds w.heap w.shown (.value v) t
  written : ∀ k : Engine, t.depth < k.fuel → k.repr v w = .done t.text w
  once : ∀ {above part}, t.Place above part →
    (part.expands ++ above).Nodup ∧ ∀ c ∈ part.expands ++ above, c ∉ w.shown
  cut : ∀ {above part c}, t.Place above part → part.container? = some c →
    (part = .again c ↔ c ∈ above ++ w.shown)
  full : ∀ {above part c}, t.Place above part → part.container? = some c →
    ¬ TransGen w.heap.Holds (.value c.value) (.value c.value) →
    (∀ d ∈ w.shown, ¬ ReflTransGen w.heap.Holds (.value c.value) (.value d.value)) →
    part ≠ .again c ∧ ∀ (k : Engine) (alone : World), alone.heap = w.heap → alone.shown = [] →
      part.depth < k.fuel → k.repr c.value alone = .done part.text alone

theorem exists_displayed {w : World} {v : Value} (writable : w.heap.AllWritable (.value v)) :
    ∃ t, Displayed w v t := by
  obtain ⟨t, unfolds⟩ := exists_unfolds w.shown (.value v) writable
  refine ⟨t, unfolds, ?_, ?_, ?_, ?_⟩
  · intro k enough
    exact unfolds.textFrom k k.fuel enough
  · intro above part place
    obtain ⟨q, -, here, ⟨distinct, hidden⟩, -⟩ := unfolds.place place
    exact here.once distinct hidden
  · intro above part c place shows
    obtain ⟨q, -, here, -, -⟩ := unfolds.place place
    exact here.cut_iff shows
  · intro above part c place shows outside unseen
    have alone := unfolds.full place shows outside unseen
    refine ⟨fun cut => List.not_mem_nil ((alone.cut_iff shows).mp cut), ?_⟩
    intro k w' same nothing enough
    rw [← same, ← nothing] at alone
    exact alone.textFrom k k.fuel enough

-- A dict that holds itself, twice in a list that holds itself too.
def selfHolding : World :=
  { blank with
    heap :=
      { lists := #[#[.dict ⟨0⟩,.tuple 0 [.dict ⟨0⟩,.set ⟨0⟩],.list ⟨0⟩]]
        dicts := #[⟨⟨#[(.atom (.str "me"),.str "me",.dict ⟨0⟩)]⟩⟩]
        sets := #[⟨#[(.atom (.int 1),.int 1)]⟩] } }

def selfHoldingParts : List Subject := [.value (.list ⟨0⟩),.value (.dict ⟨0⟩),.value (.tuple 0 [.dict ⟨0⟩,.set ⟨0⟩]),
    .value (.set ⟨0⟩),.entry (.str "me") (.dict ⟨0⟩),.value (.str "me"),.value (.int 1)]

theorem selfHolding_writable : selfHolding.heap.AllWritable (.value (.list ⟨0⟩)) := by
  refine Heap.allWritable_of_closed (· ∈ selfHoldingParts) ?_ (.head _)
  intro q mem
  simp only [selfHoldingParts,List.mem_cons,List.not_mem_nil,or_false] at mem
  constructor
  · rcases mem with rfl | rfl | rfl | rfl | rfl | rfl | rfl
    case inr.inr.inr.inl => exact List.forall_mem_singleton.mpr rfl
    all_goals trivial
  · rintro inner ⟨bracket,parts,made,held⟩
    rcases mem with rfl | rfl | rfl | rfl | rfl | rfl | rfl
    all_goals cases made
    all_goals
      simp [selfHolding,Heap.list,Heap.dict,Heap.set,Dict.items,OrderedMap.values,OrderedMap.toList] at held
      simp only [selfHoldingParts,List.mem_cons]
      grind

theorem exists_displayed_selfHolding :
    selfHolding.heap.AllWritable (.value (.list ⟨0⟩)) ∧
      (∃ t, Displayed selfHolding (.list ⟨0⟩) t) ∧
      (engine 9).repr (.list ⟨0⟩) selfHolding =
        .done "[\x7b'me': \x7b...\x7d\x7d, (\x7b'me': \x7b...\x7d\x7d, \x7b1\x7d), [...]]"
          selfHolding :=
  ⟨selfHolding_writable, exists_displayed selfHolding_writable, by with_unfolding_all rfl⟩

end EmbedScript
