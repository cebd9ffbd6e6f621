import EmbedScript.Exec

/-!
Computations are a lawful monad; `bind_done` runs the first part of one whose result is known.
-/

namespace EmbedScript.Exec

theorem pure_apply (a : α) (w : World) : (pure a : Exec α) w = .done a w := rfl

theorem bind_apply (x : Exec α) (f : α → Exec β) (w : World) : (x >>= f) w = match x w with
      | .done a left => f a left
      | .fault e left => .fault e left
      | .halt h => .halt h := rfl

variable {x : Exec α}

theorem bind_done (ran : x w = .done a left) (f : α → Exec β) : (x >>= f) w = f a left := by rw [bind_apply,ran]

theorem discard_apply (x : Exec α) (w : World) : discard x w = (x >>= fun _ => pure ()) w := rfl

theorem fail_bind (e : Fault) (f : α → Exec β) : (fail e >>= f) = fail e := rfl

theorem bind_eq_done (ran : (x >>= f) w = .done b left) :
    ∃ a middle, x w = .done a middle ∧ f a middle = .done b left := by
  rw [bind_apply] at ran
  split at ran
  case h_1 a middle first => exact ⟨a,middle,first,ran⟩
  all_goals contradiction

theorem bind_eq {g : α → Exec β} (first : x w = y w)
    (rest : ∀ a left, y w = .done a left → f a left = g a left) : (x >>= f) w = (y >>= g) w := by
  rw [bind_apply,bind_apply,first]
  cases ran : y w with
  | done a left => exact rest a left ran
  | fault | halt => rfl

theorem ofExcept_eq_done (ran : ofExcept r w = .done a left) : r = .ok a ∧ left = w := by
  cases r with
  | error e => contradiction
  | ok b =>
    cases ran
    exact ⟨rfl,rfl⟩

@[simp] theorem look_apply (f : World → α) (w : World) : look f w = .done (f w) w := rfl

@[simp] theorem heap_apply (f : Heap → α) (w : World) : heap f w = .done (f w.heap) w := rfl

@[simp] theorem modify_apply (f : World → World) (w : World) : (modify f : Exec Unit) w = .done () (f w) := rfl

@[simp] theorem setLine_apply (line : Nat) (w : World) : setLine line w = .done () { w with line } := rfl

theorem restoring_done (ran : x w = .done a left)
    (restore : World → World) : restoring restore x w = .done a (restore left) := by
  simp [restoring,ran]

instance : LawfulMonad Exec := by
  refine LawfulMonad.mk' Exec ?_ ?_ ?_
  · intro α x
    funext w
    change Exec.bind x Exec.pure w = x w
    unfold Exec.bind
    cases x w <;> rfl
  · intro α β a f
    rfl
  · intro α β γ x f g
    funext w
    change Exec.bind (Exec.bind x f) g w = Exec.bind x (fun a => Exec.bind (f a) g) w
    unfold Exec.bind
    cases x w <;> rfl

end EmbedScript.Exec
