import EmbedScript.Proofs.Engine.Growth
import EmbedScript.Proofs.Iteration.Cursor

/-!
Walks through generators. Whoever asks for the items of a generator walks through its source from
the start, and makes an element of each item or leaves it out.
-/

namespace EmbedScript

open Exec

inductive ElementPlan.Tests (k : Engine) (p : ElementPlan) (f : Frame) (w : World) :
    Bool → World → Prop where
  | always (free : p.condition = none) : Tests k p f w true w
  | asked {condition : Code} {v : Value} {middle left : World} {answer : Bool}
      (bound : p.condition = some condition) (ran : condition.eval k f w = .done v middle)
      (truth : k.truthy v middle = .done answer left) : Tests k p f w answer left

/-- What a comprehension makes of an item. Its target is bound in a frame of its own; there the
condition is asked, and the element evaluated if it holds. -/
inductive ElementPlan.Makes (k : Engine) (p : ElementPlan) (captures : Array (Ref .cell))
    (home : Ref .module) (item : Value) (w : World) : Option Value → World → Prop where
  | element {f : Frame} {opened bound tested left : World} {v : Value}
      (frame : newFrame p.slots captures home w = .done f opened)
      (put : p.store.put k f item opened = .done () bound) (holds : p.Tests k f bound true tested)
      (made : p.element.eval k f tested = .done v left) :
      Makes k p captures home item w (some v) left
  | nothing {f : Frame} {opened bound left : World}
      (frame : newFrame p.slots captures home w = .done f opened)
      (put : p.store.put k f item opened = .done () bound) (fails : p.Tests k f bound false left) :
      Makes k p captures home item w none left

namespace Engine

variable {p : ElementPlan}

theorem bind_tests_iff {rest : Bool → Exec α} : (match p.condition with
      | some condition => do rest (← k.truthy (← condition.eval k f))
      | none => do rest (← pure true)) w = .done a left ↔
      ∃ answer tested, p.Tests k f w answer tested ∧ rest answer tested = .done a left := by
  constructor
  · intro ran
    cases bound : p.condition with
    | none =>
      rw [bound] at ran
      exact ⟨true,w,.always bound,ran⟩
    | some condition =>
      rw [bound] at ran
      obtain ⟨v,middle,evaluated,ran⟩ := bind_eq_done ran
      obtain ⟨answer,tested,truth,ran⟩ := bind_eq_done ran
      exact ⟨answer,tested,.asked bound evaluated truth,ran⟩
  · rintro ⟨answer,tested,tests,ran⟩
    cases tests with
    | always free =>
      rw [free]
      exact ran
    | asked bound evaluated truth =>
      rw [bound]
      exact (bind_done evaluated _).trans ((bind_done truth _).trans ran)

theorem generatorStep_iff (planned : w.plans.elements[(w.heap.generator g).plan]? = some p) :
    k.generatorStep g item w = .done result left ↔
      p.Makes k (w.heap.generator g).captures (w.heap.generator g).home item w result left := by
  rw [generatorStep,bind_done (heap_apply ..),bind_done (look_apply ..),planned]
  constructor
  · intro ran
    obtain ⟨f,opened,frame,ran⟩ := bind_eq_done ran
    obtain ⟨_,bound,put,ran⟩ := bind_eq_done ran
    obtain ⟨answer,tested,tests,ran⟩ := bind_tests_iff.mp ran
    cases answer with
    | true =>
      obtain ⟨v,last,made,ended⟩ := bind_eq_done ran
      cases ended
      exact .element frame put tests made
    | false =>
      cases ran
      exact .nothing frame put tests
  · intro makes
    cases makes with
    | element frame put holds made =>
      refine (bind_done frame _).trans ((bind_done put _).trans (bind_tests_iff.mpr ?_))
      exact ⟨true,_,holds,bind_done made _⟩
    | nothing frame put fails =>
      refine (bind_done frame _).trans ((bind_done put _).trans (bind_tests_iff.mpr ?_))
      exact ⟨false,_,fails,rfl⟩

end Engine

structure World.Walks (w : World) (g : Ref .generator) (inner outer : Ref .cursor)
    (rest : List Value) : Prop where
  mapped : (w.heap.cursor outer).cursor = .mapped inner g
  has : (w.heap.cursor inner).cursor.Has w.heap rest

/-- A walk to its end, with what is made of each item. Nothing raises an error, and after each item
the source has still to give what it had before. -/
inductive Engine.Collects (k : Engine) (makes : Value → World → Option Value → World → Prop)
    (g : Ref .generator) (inner outer : Ref .cursor) :
    World → List Value → List (Option Value) → World → Prop where
  | ended {w left : World} (walks : w.Walks g inner outer [])
      (past : k.advance inner w = .done none left) : Collects k makes g inner outer w [] [] left
  | item {w middle left last : World} {item : Value} {items : List Value} {result : Option Value}
      {results : List (Option Value)} (walks : w.Walks g inner outer (item :: items))
      (taken : k.advance inner w = .done (some item) middle) (made : makes item middle result left)
      (rest : Collects k makes g inner outer left items results last) :
      Collects k makes g inner outer w (item :: items) (result :: results) last

namespace Engine

variable {k : Engine}
  {start : World}
  {items : List Value}

theorem advanceFrom_inner {inner} (fuel : 0 < k.fuel) (inside : inner.id < w.heap.cursors.size)
    (walks : w.Walks g inner outer items)
    (taken : k.advance inner w = .done next middle) (other : Nat) :
    k.advanceFrom (other + 1) inner w = .done next middle := by
  obtain ⟨n,more⟩ := Nat.exists_eq_succ_of_ne_zero (Nat.ne_of_gt fuel)
  obtain ⟨cursors,ran,-,-,-⟩ := advanceFrom_has inside walks.has
  rw [advance,more,ran] at taken
  rw [ran,taken]

theorem advanceFrom_mapped {inner} (mapped : (w.heap.cursor outer).cursor = .mapped inner g) (fuel : Nat) :
    k.advanceFrom (fuel + 1) outer w = (do
      match ← k.advanceFrom fuel inner with
      | none => return none
      | some item =>
        match ← k.step g item with
        | some element => return some element
        | none => k.advanceFrom fuel outer) w := by
  have read : heap (fun h => (h.cursor outer).cursor) w = .done (.mapped inner g) w := by rw [heap_apply,mapped]
  exact bind_done read _

theorem advanceFrom_ended {inner} (positive : 0 < k.fuel) (inside : inner.id < w.heap.cursors.size)
    (walks : w.Walks g inner outer []) (past : k.advance inner w = .done none left) (fuel : Nat) :
    k.advanceFrom (fuel + 2) outer w = .done none left := by
  rw [advanceFrom_mapped walks.mapped,bind_done (advanceFrom_inner positive inside walks past fuel)]
  rfl

theorem advanceFrom_item {inner} (positive : 0 < k.fuel) (inside : inner.id < w.heap.cursors.size)
    (walks : w.Walks g inner outer (item :: items))
    (taken : k.advance inner w = .done (some item) middle)
    (made : k.step g item middle = .done result left) (fuel : Nat) :
    k.advanceFrom (fuel + 2) outer w = result.elim (k.advanceFrom (fuel + 1) outer left) fun v => .done (some v) left := by
  rw [advanceFrom_mapped walks.mapped,bind_done (advanceFrom_inner positive inside walks taken fuel)]
  dsimp only
  rw [bind_done made]
  cases result <;> rfl

theorem Gives.of_advance_eq (gives : k.Gives c left items last)
    (same : k.advance c w = k.advance c left) : k.Gives c w items last := by
  cases gives with
  | ended past => exact .ended (same.trans past)
  | item next rest => exact .item (same.trans next) rest

-- Where nothing is made of an item, the walk goes on with less fuel: so any fuel is as good as all of
-- it, if there is enough for the items that are left. What is made is what a step makes, because the
-- walk never leaves the states that follow its start.
theorem gives_of_collects {inner} [growing.Engines k k] (inside : inner.id < start.heap.cursors.size)
    (steps : ∀ ⦃item w result left⦄, start.Grows w → makes item w result left → k.step g item w = .done result left)
    (reached : start.Grows w) (collects : k.Collects makes g inner outer w items results last)
    (enough : items.length + 2 ≤ k.fuel) :
    k.Gives outer w (results.filterMap id) last ∧
      ∀ fuel, items.length + 2 ≤ fuel → k.advanceFrom fuel outer w = k.advance outer w := by
  have positive : 0 < k.fuel := by omega
  induction collects with
  | @ended w left walks past =>
    have present := Nat.lt_of_lt_of_le inside reached.heap.cursors
    have advanced (fuel : Nat) (enough : 2 ≤ fuel) : k.advanceFrom fuel outer w = .done none left := by
      obtain ⟨m,rfl⟩ := Nat.exists_eq_add_of_le' enough
      exact advanceFrom_ended positive present walks past m
    have now : k.advance outer w = .done none left := advanced k.fuel enough
    exact ⟨.ended now,fun fuel enough => (advanced fuel enough).trans now.symm⟩
  | @item w middle left last item items result results walks taken made rest ih =>
    have present := Nat.lt_of_lt_of_le inside reached.heap.cursors
    have advances : growing.Quiet true (k.advance inner) := Accord.rel_advance inner
    have onward : start.Grows middle := reached.trans (advances.done taken)
    have stepped := steps onward made
    have stepping : growing.Quiet true (k.step g item) := Accord.Engines.step nofun
    have beyond : start.Grows left := onward.trans (stepping.done stepped)
    obtain ⟨gives,same⟩ := ih beyond (Nat.le_of_succ_le (Nat.succ_add .. ▸ enough))
    have advanced (fuel : Nat) (enough : items.length + 1 + 2 ≤ fuel) : k.advanceFrom fuel outer w =
          result.elim (k.advance outer left) fun v => .done (some v) left := by
      obtain ⟨m,rfl⟩ := Nat.exists_eq_add_of_le' (Nat.le_trans (Nat.le_add_left 2 _) enough)
      rw [advanceFrom_item positive present walks taken stepped,same (m + 1) (by omega)]
    have now : k.advance outer w = _ := advanced k.fuel enough
    refine ⟨?_,fun fuel enough => (advanced fuel enough).trans now.symm⟩
    cases result with
    | some v => exact .item now gives
    | none => exact gives.of_advance_eq now

theorem Collects.length_eq {inner} (collects : k.Collects makes g inner outer w items results last) : items.length = results.length := by
  induction collects with
  | ended => rfl
  | item _ _ _ _ ih => rw [List.length_cons,List.length_cons,ih]

end Engine

-- Consuming a generator

def World.walking (w : World) (r : Ref .list) (g : Ref .generator) : World :=
  w.withCursors ((w.heap.cursors.push ⟨.list r 0,false⟩).push ⟨.mapped ⟨w.heap.cursors.size⟩ g,false⟩)

theorem World.size_walking (w : World) (r : Ref .list) (g : Ref .generator) :
    (w.walking r g).heap.cursors.size = w.heap.cursors.size + 2 := by
  simp [walking,withCursors]

def Engine.Consumes (k : Engine) (makes : Value → World → Option Value → World → Prop)
    (g : Ref .generator) (r : Ref .list) (w : World) (results : List (Option Value)) (last : World) :
    Prop :=
  k.Collects makes g ⟨w.heap.cursors.size⟩ ⟨w.heap.cursors.size + 1⟩ (w.walking r g) (w.heap.list r).toList results last

namespace Engine

section

variable {k : Engine}

theorem iter_generator (source : (w.heap.generator g).source = .list r) (enough : 2 ≤ k.fuel) :
    k.iter (.generator g) w = .done ⟨w.heap.cursors.size + 1⟩ (w.walking r g) := by
  obtain ⟨n,more⟩ := Nat.exists_eq_add_of_le' enough
  have inner : k.iterFrom (n + 1) (.list r) w =
      .done ⟨w.heap.cursors.size⟩ (w.withCursors (w.heap.cursors.push ⟨.list r 0,false⟩)) := rfl
  have outer : newCursor (.mapped ⟨w.heap.cursors.size⟩ g) (w.withCursors (w.heap.cursors.push ⟨.list r 0,false⟩)) =
      .done ⟨(w.heap.cursors.push ⟨.list r 0,false⟩).size⟩ (w.walking r g) := rfl
  rw [Array.size_push] at outer
  rw [iter,more,iterFrom,bind_done (heap_apply ..),source,bind_done inner,outer]

end

theorem gives_generator (made : w.heap.generators[g.id]? = some info) (source : info.source = .list r)
    (planned : w.plans.elements[info.plan]? = some p)
    (consumes : (engine (n + 1)).Consumes (p.Makes (engine n) info.captures info.home) g r w results last)
    (enough : results.length + 2 ≤ n) :
    (engine (n + 1)).iter (.generator g) w = .done ⟨w.heap.cursors.size + 1⟩ (w.walking r g) ∧
      (engine (n + 1)).Gives ⟨w.heap.cursors.size + 1⟩ (w.walking r g) (results.filterMap id) last := by
  obtain ⟨bound,-⟩ := Array.getElem?_eq_some_iff.mp made
  have same : w.heap.generator g = info := by rw [Heap.generator,made,Option.getD_some]
  have pushed (now : World) (info : CursorInfo) :
      now.Grows (now.withCursors (now.heap.cursors.push info)) := ⟨.push_cursor info,List.prefix_rfl⟩
  have entered : w.Grows (w.walking r g) := (pushed w _).trans (pushed _ _)
  have inside : w.heap.cursors.size < (w.walking r g).heap.cursors.size := by
    rw [w.size_walking]
    omega
  have steps ⦃item v result left⦄ (reached : (w.walking r g).Grows v)
      (makes : p.Makes (engine n) info.captures info.home item v result left) :
      (engine (n + 1)).step g item v = .done result left := by
    have still : v.heap.generator g = info := ((entered.trans reached).generator bound).trans same
    have planned := (entered.trans reached).element planned
    rw [← still] at planned makes
    exact (generatorStep_iff planned).mpr makes
  constructor
  · exact iter_generator (same ▸ source) (Nat.le_trans (Nat.le_add_left ..) enough)
  · exact (gives_of_collects inside steps (.refl _) consumes (consumes.length_eq ▸ enough)).1

theorem items_generator (made : w.heap.generators[g.id]? = some info) (source : info.source = .list r)
    (planned : w.plans.elements[info.plan]? = some p)
    (consumes : (engine (n + 1)).Consumes (p.Makes (engine n) info.captures info.home) g r w results last)
    (enough : results.length + 2 ≤ n) :
    (engine (n + 1)).items (.generator g) w = .done (results.filterMap id) last := by
  obtain ⟨begun,gives⟩ := gives_generator made source planned consumes enough
  have fewer : (results.filterMap id).length < (engine (n + 1)).fuel :=
    Nat.lt_of_le_of_lt (List.length_filterMap_le ..) (Nat.lt_of_lt_of_le (Nat.lt_add_of_pos_right (by decide)) enough)
  have drained := drainFrom_gives gives fewer #[]
  refine (bind_done begun _).trans ((bind_done drained _).trans ?_)
  rw [pure_apply,Array.empty_append]

end Engine

end EmbedScript
