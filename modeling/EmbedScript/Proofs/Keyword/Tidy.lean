import EmbedScript.Proofs.Engine.Evaluation

/-!
Runs that keep keyword arguments out of data, unless the first engine has halted.
-/

namespace EmbedScript

open Exec

variable [Plainness α] [Plainness β]

inductive Tidied (h : Halt) : Outcome α → Outcome α → Prop where
  | done {a : α} {left : World} (value : plain a) (state : plain left) :
    Tidied h (.done a left) (.done a left)
  | fault {left : World} (e : Fault) (state : plain left) : Tidied h (.fault e left) (.fault e left)
  | halt (other : Halt) : Tidied h (.halt other) (.halt other)
  | astray (o : Outcome α) : Tidied h (.halt h) o

structure Tidy (h : Halt) (x y : Exec α) : Prop where
  run (w : World) : plain w → Tidied h (x w) (y w)

variable {y : Exec α}

namespace Tidy

theorem bind {g : α → Exec β} (first : Tidy h x y) (rest : ∀ a, plain a → Tidy h (f a) (g a)) : Tidy h (x >>= f) (y >>= g) := by
  refine ⟨fun w state => ?_⟩
  have ends := first.run w state
  rw [bind_apply,bind_apply]
  generalize x w = o, y w = o' at ends
  cases ends with
  | done value state => exact (rest _ value).run _ state
  | fault e state => exact .fault e state
  | halt other => exact .halt other
  | astray => exact .astray _

theorem modify (keeps : ∀ w, plain w → plain (f w)) : Tidy h (modify f) (modify f) :=
  ⟨fun w state => .done rfl (keeps w state)⟩

variable (c : Call)

theorem restoring (inside : Tidy h x y)
    (keeps : ∀ w, plain w → plain (undo w)) : Tidy h (restoring undo x) (restoring undo y) := by
  refine ⟨fun w state => ?_⟩
  have ends := inside.run w state
  unfold Exec.restoring
  generalize x w = o, y w = o' at ends
  cases ends with
  | done value state => exact .done value (keeps _ state)
  | fault e state => exact .fault e (keeps _ state)
  | halt other => exact .halt other
  | astray => exact .astray _

theorem onFault (inside : Tidy h x y) (keeps : ∀ w, plain w → plain (undo w)) :
    Tidy h (onFault reword undo x) (onFault reword undo y) := by
  refine ⟨fun w state => ?_⟩
  have ends := inside.run w state
  unfold Exec.onFault
  generalize x w = o, y w = o' at ends
  cases ends with
  | done value state => exact .done value state
  | fault e state => exact .fault _ (keeps _ state)
  | halt other => exact .halt other
  | astray => exact .astray _

theorem excusing (mark : Nat) (inside : Tidy h x y) (value : plain instead) :
    Tidy h (excusing mark handles instead x) (excusing mark handles instead y) := by
  refine ⟨fun w state => ?_⟩
  have ends := inside.run w state
  unfold Exec.excusing
  generalize x w = o, y w = o' at ends
  cases ends with
  | done value state => exact .done value state
  | fault e state =>
    dsimp only
    split
    · exact .done value state
    · exact .fault e state
  | halt other => exact .halt other
  | astray => exact .astray _

theorem inCode (inside : Tidy h x y) : Tidy h (inCode c x) (inCode c y) := by
  refine ⟨fun w state => ?_⟩
  have ends := inside.run { w with calls := c :: w.calls } state
  unfold Exec.inCode
  generalize x _ = o, y _ = o' at ends
  cases ends with
  | done value state => exact .done value state
  | @fault left e state =>
    refine .fault e ?_
    have same : (recordCall c left).heap = left.heap := by
      unfold recordCall
      split <;> rfl
    rw [same]
    exact state
  | halt other => exact .halt other
  | astray => exact .astray _

theorem inCall (inside : Tidy h x y) : Tidy h (inCall c x) (inCall c y) := by
  refine ⟨fun w state => ?_⟩
  unfold Exec.inCall
  split
  · exact .fault _ state
  · have deeper : Tidy h (Exec.restoring (fun left => { left with depth := left.depth - 1 }) (Exec.inCode c x))
        (Exec.restoring (fun left => { left with depth := left.depth - 1 }) (Exec.inCode c y)) :=
      restoring (inCode c inside) fun _ state => state
    exact deeper.run { w with depth := w.depth + 1 } state

theorem inModule (r : Ref .module) (inside : Tidy h x y) : Tidy h (inModule r x) (inModule r y) := by
  refine ⟨fun w state => ?_⟩
  have within : Tidy h (Exec.restoring (fun left => { left with running := left.running.tail }) x)
      (Exec.restoring (fun left => { left with running := left.running.tail }) y) :=
    restoring inside fun _ state => state
  exact within.run { w with running := r :: w.running } state

end Tidy

def tidying (h : Halt) : Accord where
  tidy := True
  rel _ x y := Tidy h x y
  rel_bind first rest := first.bind fun a value => rest a fun _ => value
  quiet_still still := by
    refine ⟨fun w state => ?_⟩
    obtain ⟨a,left,ended⟩ := still w fun _ => state
    rw [ended.ran]
    exact .done (ended.value trivial) (ended.state trivial)
  quiet_fail e := ⟨fun _ state => .fault e state⟩
  quiet_stop other := ⟨fun _ _ => .halt other⟩
  quiet_setLine _ := ⟨fun _ state => .done rfl state⟩
  rel_setBusy c busy inside := inside.restoring (Accord.plain_setBusy c busy)
  rel_showingList r inside := by
    refine ⟨fun w state => ?_⟩
    rw [showingList,showingList,bind_done (look_apply ..),bind_done (look_apply ..)]
    split
    · exact .done rfl state
    · refine Tidy.run ?_ w state
      exact .bind (.modify fun _ state => state) fun _ _ => .restoring inside fun _ state => state
  rel_showingDict r inside := by
    refine ⟨fun w state => ?_⟩
    rw [showingDict,showingDict,bind_done (look_apply ..),bind_done (look_apply ..)]
    split
    · exact .done rfl state
    · refine Tidy.run ?_ w state
      exact .bind (.modify fun _ state => state) fun _ _ => .restoring inside fun _ state => state
  rel_excusing handles _ value first rest := by
    refine ⟨fun w state => ?_⟩
    rw [bind_done (look_apply ..),bind_done (look_apply ..)]
    refine (first.bind fun a known => ?_).run w state
    exact (rest a fun _ => known).excusing _ (value trivial)

end EmbedScript
