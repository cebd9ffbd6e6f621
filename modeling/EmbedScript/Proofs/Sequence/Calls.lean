import EmbedScript.Proofs.Exec
import EmbedScript.Sequence

/-!
The calls that sorting makes. `Linked` says how they follow one another and what comes of them.
-/

namespace EmbedScript

open List

variable {Q α : Type}

def Noting (Q α : Type) : Type := World → Outcome α × List (Q × World)

namespace Noting

protected def pure (a : α) : Noting Q α := fun w => (.done a w,[])

protected def bind (x : Noting Q α) (f : α → Noting Q β) : Noting Q β := fun w =>
  match x w with
  | (.done a left,calls) => ((f a left).1,calls ++ (f a left).2)
  | (.fault e left,calls) => (.fault e left,calls)
  | (.halt h,calls) => (.halt h,calls)

instance : Monad (Noting Q) where
  pure := Noting.pure
  bind := Noting.bind

instance : LawfulMonad (Noting Q) := by
  refine LawfulMonad.mk' (Noting Q) ?_ ?_ ?_
  · intro α x
    funext w
    change Noting.bind x Noting.pure w = x w
    unfold Noting.bind
    obtain ⟨o,calls⟩ := x w
    cases o with
    | done a left => exact congrArg (Prod.mk _) (append_nil calls)
    | fault | halt => rfl
  · intro α β a f
    rfl
  · intro α β γ x f g
    funext w
    change Noting.bind (Noting.bind x f) g w = Noting.bind x (fun a => Noting.bind (f a) g) w
    unfold Noting.bind
    obtain ⟨o,calls⟩ := x w
    cases o with
    | done a left =>
      dsimp only
      obtain ⟨o,more⟩ := f a left
      cases o with
      | done b later => exact congrArg (Prod.mk _) (append_assoc ..)
      | fault | halt => rfl
    | fault | halt => rfl

theorem bind_fault (failed : x w = (.fault e left,calls)) (f : α → Noting Q β) :
    (x >>= f) w = (.fault e left,calls) := by
  change Noting.bind x f w = _
  rw [Noting.bind,failed]

def call (q : Q) (x : Exec α) : Noting Q α := fun w => (x w,[(q,w)])

end Noting

def Exec.Leaves (x : Exec α) (w after : World) : Prop := (∃ a, x w = .done a after) ∨ ∃ e, x w = .fault e after

inductive Linked (perform : Q → Exec Unit) : World → List (Q × World) → Outcome α → Prop
  | done (a : α) (w : World) : Linked perform w [] (.done a w)
  | next {q : Q} {w middle : World} {calls : List (Q × World)} {o : Outcome α}
      (ran : perform q w = .done () middle) (rest : Linked perform middle calls o) :
      Linked perform w ((q,w) :: calls) o
  | fault {q : Q} {w left : World} {e : Fault} (failed : perform q w = .fault e left) :
      Linked perform w [(q,w)] (.fault e left)
  | halt {q : Q} {w : World} {h : Halt} (stopped : perform q w = .halt h) :
      Linked perform w [(q,w)] (.halt h)

namespace Linked

theorem append (first : Linked perform w calls (.done a middle))
    (rest : Linked perform middle more o) : Linked perform w (calls ++ more) o := by
  generalize ended : (Outcome.done a middle) = outcome at first
  induction first with
  | done a w =>
    cases ended
    exact rest
  | next ran _ ih => exact .next ran (ih ended)
  | fault | halt => cases ended

theorem fault_cast (linked : Linked perform w calls (.fault e left : Outcome α)) :
    Linked perform w calls (.fault e left : Outcome β) := by
  generalize ended : (Outcome.fault e left) = outcome at linked
  induction linked with
  | next ran _ ih => exact .next ran (ih ended)
  | fault failed =>
    cases ended
    exact .fault failed
  | done | halt => cases ended

theorem halt_cast (linked : Linked perform w calls (.halt h : Outcome α)) :
    Linked perform w calls (.halt h : Outcome β) := by
  generalize ended : (Outcome.halt h) = outcome at linked
  induction linked with
  | next ran _ ih => exact .next ran (ih ended)
  | halt stopped =>
    cases ended
    exact .halt stopped
  | done | fault => cases ended

theorem fault_iff (linked : Linked perform w calls o) :
    o = .fault e left ↔ ∃ call ∈ calls, perform call.1 call.2 = .fault e left := by
  induction linked with
  | done a w => simp
  | @next q w middle calls o ran rest ih =>
    rw [ih]
    simp [ran]
  | fault failed => simp [failed]
  | halt stopped => simp [stopped]

theorem keeps {part : World → β} (linked : Linked perform w calls o) (ended : o = .fault e left)
    (kept : ∀ call ∈ calls, ∀ after, (perform call.1).Leaves call.2 after → part after = part call.2) :
    part left = part w := by
  induction linked with
  | next ran _ ih =>
    have rest := ih ended fun call mem => kept call (.tail _ mem)
    rw [rest]
    exact kept _ (.head _) _ (.inl ⟨(),ran⟩)
  | fault failed =>
    cases ended
    exact kept _ (.head _) _ (.inr ⟨e,failed⟩)
  | done | halt => cases ended

end Linked

def Notes (perform : Q → Exec Unit) (x : Noting Q α) (y : Exec α) : Prop := ∀ w, (x w).1 = y w ∧ Linked perform w (x w).2 (y w)

namespace Notes

theorem pure (a : α) : Notes perform (Pure.pure a) (Pure.pure a) := fun w => ⟨rfl,.done a w⟩

theorem call (performed : perform q = discard x) : Notes perform (.call q x) x := by
  intro w
  refine ⟨rfl,?_⟩
  have ran : perform q w = (x >>= fun _ => Pure.pure ()) w := by rw [performed,Exec.discard_apply]
  rw [Exec.bind_apply] at ran
  cases ended : x w with
  | done a left =>
    rw [ended] at ran
    exact .next ran (.done a left)
  | fault e left =>
    rw [ended] at ran
    exact .fault ran
  | halt h =>
    rw [ended] at ran
    exact .halt ran

theorem bind (first : Notes perform x y) (rest : ∀ a, Notes perform (f a) (g a)) :
    Notes perform (x >>= f) (y >>= g) := by
  intro w
  obtain ⟨same,linked⟩ := first w
  change (Noting.bind x f w).1 = _ ∧ Linked perform w (Noting.bind x f w).2 _
  rw [Exec.bind_apply,Noting.bind]
  cases ran : x w with
  | mk o calls =>
    rw [ran] at same linked
    subst same
    cases ended : y w with
    | done a left =>
      rw [ended] at linked
      exact ⟨(rest a left).1,linked.append (rest a left).2⟩
    | fault e left =>
      rw [ended] at linked
      exact ⟨rfl,linked.fault_cast⟩
    | halt h =>
      rw [ended] at linked
      exact ⟨rfl,linked.halt_cast⟩

theorem mapM (each : ∀ a, Notes perform (f a) (g a))
    (items : List α) : Notes perform (items.mapM f) (items.mapM g) := by
  induction items with
  | nil =>
    exact pure []
  | cons a items ih =>
    rw [mapM_cons,mapM_cons]
    exact bind (each a) fun b => bind ih fun bs => pure (b :: bs)

theorem merge (each : ∀ a b, Notes perform (f a b) (g a b)) (done left right : List α) :
    Notes perform (Sequence.merge f done left right) (Sequence.merge g done left right) := by
  fun_induction Sequence.merge g done left right with
  | case1 done right =>
    rw [Sequence.merge]
    exact pure _
  | case2 done left nonempty =>
    rw [Sequence.merge]
    · exact pure _
    · exact nonempty
  | case3 done a left b right onRight onLeft =>
    rw [Sequence.merge]
    refine bind (each b a) fun before => ?_
    cases before with
    | true => exact onRight
    | false => exact onLeft

theorem mergeSort (each : ∀ a b, Notes perform (f a b) (g a b)) (items : List α) :
    Notes perform (Sequence.mergeSort f items) (Sequence.mergeSort g items) := by
  fun_induction Sequence.mergeSort g items with
  | case1 items short =>
    rw [Sequence.mergeSort,dif_pos short]
    exact pure _
  | case2 items long half onLeft onRight =>
    rw [Sequence.mergeSort,dif_neg long]
    exact bind onLeft fun left => bind onRight fun right => merge each [] left right

end Notes

end EmbedScript
