import EmbedScript.Proofs.Engine.Evaluation

/-!
What lasts while a program runs: cursors, cells, and generators with the plans of their elements.
-/

namespace EmbedScript

open Exec World

variable {x : Exec α}

def Outcome.Follows (w : World) : Outcome α → Prop
  | .done _ left | .fault _ left => w.Grows left
  | .halt _ => True

theorem Outcome.Follows.after {w} {o : Outcome α} (rest : o.Follows middle)
    (first : w.Grows middle) : o.Follows w := by
  cases o with
  | done | fault => exact first.trans rest
  | halt => trivial

def Exec.Lasting (x : Exec α) : Prop := ∀ w, (x w).Follows w

namespace Exec.Lasting

theorem bind {f : α → Exec β} (first : x.Lasting) (rest : ∀ a, (f a).Lasting) : (x >>= f).Lasting := by
  intro w
  have begun := first w
  rw [bind_apply]
  cases ran : x w with
  | done a middle =>
    rw [ran] at begun
    exact (rest a middle).after begun
  | fault | halt =>
    rw [ran] at begun
    exact begun

variable (c : Call)

theorem restoring (inside : x.Lasting) (kept : ∀ w : World, w.Grows (undo w)) : (restoring undo x).Lasting := by
  intro w
  have ends := inside w
  unfold Exec.restoring
  cases ran : x w with
  | done _ left | fault _ left =>
    rw [ran] at ends
    exact Grows.trans ends (kept left)
  | halt => trivial

theorem onFault (reword : Fault → Fault) (inside : x.Lasting)
    (kept : ∀ w : World, w.Grows (undo w)) : (onFault reword undo x).Lasting := by
  intro w
  have ends := inside w
  unfold Exec.onFault
  cases ran : x w with
  | done =>
    rw [ran] at ends
    exact ends
  | fault _ left =>
    rw [ran] at ends
    exact Grows.trans ends (kept left)
  | halt => trivial

theorem excusing (mark : Nat) (handles : Fault → Bool) (instead : α) (inside : x.Lasting) :
    (excusing mark handles instead x).Lasting := by
  intro w
  have ends := inside w
  unfold Exec.excusing
  cases ran : x w with
  | done =>
    rw [ran] at ends
    exact ends
  | fault e left =>
    rw [ran] at ends
    dsimp only
    split
    · exact Grows.trans ends (.of_eq rfl rfl)
    · exact ends
  | halt => trivial

theorem inCode (inside : x.Lasting) : (inCode c x).Lasting := by
  intro w
  have ends := (inside { w with calls := c :: w.calls }).after (w := w) (.of_eq rfl rfl)
  unfold Exec.inCode
  cases ran : x { w with calls := c :: w.calls } with
  | done _ left =>
    rw [ran] at ends
    exact Grows.trans ends (.of_eq rfl rfl)
  | fault _ left =>
    rw [ran] at ends
    refine Grows.trans ends ?_
    unfold recordCall
    split <;> exact .of_eq rfl rfl
  | halt => trivial

theorem inCall (inside : x.Lasting) : (inCall c x).Lasting := by
  intro w
  unfold Exec.inCall
  split
  · exact .of_eq rfl rfl
  · have deeper : (Exec.restoring (fun left => { left with depth := left.depth - 1 }) (Exec.inCode c x)).Lasting :=
      (inside.inCode c).restoring fun _ => .of_eq rfl rfl
    exact (deeper { w with depth := w.depth + 1 }).after (.of_eq rfl rfl)

theorem inModule (r : Ref .module) (inside : x.Lasting) : (inModule r x).Lasting := by
  intro w
  have within : (Exec.restoring (fun left => { left with running := left.running.tail }) x).Lasting :=
    inside.restoring fun _ => .of_eq rfl rfl
  exact (within { w with running := r :: w.running }).after (.of_eq rfl rfl)

end Exec.Lasting

def growing : Accord where
  tidy := False
  rel _ x _ := x.Lasting
  rel_bind first rest := first.bind fun a => rest a nofun
  quiet_still still w := by
    obtain ⟨a,left,ended⟩ := still w nofun
    rw [ended.ran]
    exact ended.grows
  quiet_fail _ _ := .of_eq rfl rfl
  quiet_stop _ _ := trivial
  quiet_setLine _ _ := .of_eq rfl rfl
  rel_setBusy c busy inside := inside.restoring (Accord.grows_setBusy c busy)
  rel_showingList r inside w := by
    rw [showingList,bind_done (look_apply ..)]
    split
    · exact .refl w
    · have within : (restoring (fun w => { w with shownLists := w.shownLists.erase r }) _).Lasting :=
        inside.restoring fun _ => .of_eq rfl rfl
      exact (within _).after (.of_eq rfl rfl)
  rel_showingDict r inside w := by
    rw [showingDict,bind_done (look_apply ..)]
    split
    · exact .refl w
    · have within : (restoring (fun w => { w with shownDicts := w.shownDicts.erase r }) _).Lasting :=
        inside.restoring fun _ => .of_eq rfl rfl
      exact (within _).after (.of_eq rfl rfl)
  rel_excusing handles _ _ first rest w := by
    rw [bind_done (look_apply ..)]
    exact first.bind (fun a => (rest a nofun).excusing _ handles _) w

namespace Accord

theorem lasting_importPath [growing.Engines k k] (path : String) :
    growing.Quiet m (k.importPath path) := by
  refine rel_importing path fun r code => ?_
  have runs : growing.Quiet true (k.runInstrs r code) := rel_runInstrs r code
  exact .onFault id ((runs.inCode .module).inModule r) fun _ => .of_eq rfl rfl

instance growing_engine (n : Nat) : growing.Engines (engine n) (engine n) := by
  induction n with
  | zero => exact {
      fuel := rfl
      call _ _ := growing.quiet_stop _
      step _ := growing.quiet_stop _
      importModule _ := growing.quiet_stop _
      importBelow _ _ := growing.quiet_stop _
      enter _ inside := inside.inCall _ }
  | succ n below => exact {
      fuel := rfl
      call _ _ := rel_callValue id ..
      step given := rel_generatorStep _ given
      importModule path := lasting_importPath path
      importBelow reword path := .onFault reword (lasting_importPath (m := true) path) fun w => .refl w
      enter _ inside := inside.inCall _ }

end Accord

theorem Exec.Lasting.done (lasting : x.Lasting) (ran : x w = .done a left) : w.Grows left := by
  have ends := lasting w
  rw [ran] at ends
  exact ends

namespace World.Grows

variable {w : World}

theorem generator (grows : w.Grows left) (made : g.id < w.heap.generators.size) :
    left.heap.generator g = w.heap.generator g := by
  obtain ⟨more,split⟩ := grows.heap.generators
  rw [Heap.generator,Heap.generator,← Array.getElem?_toList,← split,List.getElem?_append_left made,Array.getElem?_toList]

theorem element (grows : w.Grows left) {plan : Nat}
    (planned : w.plans.elements[plan]? = some p) : left.plans.elements[plan]? = some p := by
  obtain ⟨more,split⟩ := grows.elements
  obtain ⟨bound,-⟩ := Array.getElem?_eq_some_iff.mp planned
  rw [← Array.getElem?_toList,← split,List.getElem?_append_left bound,Array.getElem?_toList,planned]

end World.Grows

end EmbedScript
