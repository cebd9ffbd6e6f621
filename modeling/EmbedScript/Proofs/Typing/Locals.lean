import EmbedScript.Proofs.Code.Statements
import EmbedScript.Proofs.Typing.Steady

/-!
A variable holds a value of its kind, if any, whenever a statement starts, unless a value of no known
kind was stored in it before its kind was known.
-/

namespace EmbedScript

open Exec Compile List Instr Code

-- Where a run comes

-- A turn of a loop starts: `enter` tells whether there is another one.
inductive Engine.Turns (enter : Exec Bool) (body : Exec Flow) : World → World → Prop where
  | first {w start : World} (entered : enter w = .done true start) : Turns enter body w start
  | again {w middle left start : World} {flow : Flow} (entered : enter w = .done true middle)
      (ran : body middle = .done flow left) (goes : flow = .next ∨ flow = .continues)
      (later : Turns enter body left start) : Turns enter body w start

def Store.take (k : Engine) (f : Frame) (store : Store) (c : Ref .cursor) : Exec Bool := do
  match ← k.advance c with
  | none => return false
  | some item =>
    store.put k f item
    return true

section

variable (k : Engine) (f : Frame)

inductive Instr.Chooses : List BranchCode → World → List Instr → World → Prop where
  | first {condition : Code} {body : List Instr} {branches : List BranchCode} {w start : World}
      (holds : condition.test k f w = .done true start) :
      Chooses (.mk condition body :: branches) w body start
  | later {condition : Code} {other body : List Instr} {branches : List BranchCode} {w left start : World}
      (fails : condition.test k f w = .done false left) (chosen : Chooses branches left body start) :
      Chooses (.mk condition other :: branches) w body start

inductive InstrKind.Enters : InstrKind → World → List Instr → World → Prop where
  | branch {branches : List BranchCode} {otherwise body : List Instr} {w start : World}
      (chosen : Chooses k f branches w body start) : Enters (.cond branches otherwise) w body start
  | otherwise {branches : List BranchCode} {otherwise : List Instr} {w start : World}
      (ran : execBranches k f branches w = .done none start) :
      Enters (.cond branches otherwise) w otherwise start
  | whileLoop {condition : Code} {body : List Instr} {w start : World}
      (turn : Engine.Turns (condition.test k f) (execBlock k f body) w start) :
      Enters (.whileLoop condition body) w body start
  | forLoop {source : Code} {store : Store} {body : List Instr} {c : Ref .cursor} {w left start : World}
      (ran : source.iterate k f w = .done c left)
      (turn : Engine.Turns (store.take k f c) (execBlock k f body) left start) :
      Enters (.forLoop source store body) w body start

-- Running the statements, a statement among them or inside them starts in a state.
inductive Instr.Reaches : List Instr → World → Instr → World → Prop where
  | here {instr : Instr} {code : List Instr} {w : World} : Reaches (instr :: code) w instr w
  | behind {instr p : Instr} {code : List Instr} {w left x : World} (ran : instr.exec k f w = .done .next left)
      (later : Reaches code left p x) : Reaches (instr :: code) w p x
  | inside {line : Nat} {kind : InstrKind} {p : Instr} {code body : List Instr} {w start x : World}
      (entered : kind.Enters k f { w with line } body start) (within : Reaches body start p x) :
      Reaches (.mk line kind :: code) w p x

end

section

variable {calm : World → Prop} {k : Engine} {f : Frame} {i : Nat} {kind : Kind}

variable {body : List Instr} {w start : World}

theorem Engine.Turns.holds {enter body}
    (turn : Turns enter body w start) (tests : Holds inv enter fun _ => True)
    (runs : Holds inv body fun _ => True) (before : inv w) : inv start := by
  induction turn with
  | first entered => exact (tests before entered).1
  | again entered ran _ _ ih => exact ih (runs (tests before entered).1 ran).1

theorem Code.Offers.take_holds {source : Code} (offers : source.Offers calm k kind c)
    (quiet : f.Calm calm) (known : kind ≠ .dynamic) (spares : Exec.Spares calm f i (k.advance c)) {store : Store}
    (stored : store.Undisturbed calm k f i) (gives : ∀ write ∈ store.writes source.elements?, write.Gives i kind) :
    Holds (f.Steady calm i kind) (store.take k f c) fun _ => True := by
  refine (offers.advance_holds spares).bind fun item shown => ?_
  cases item with
  | none => exact .pure trivial
  | some v => exact (store.put_holds quiet known _ (shown v rfl) stored gives).bind fun _ _ => .pure trivial

theorem Instr.Chooses.holds
    (chosen : Chooses k f branches w body start) (undisturbed : UndisturbedBranches calm k f i branches)
    (gives : ∀ write ∈ writesOfBranches branches, write.Gives i kind) (before : f.Steady calm i kind w) :
    f.Steady calm i kind start ∧ UndisturbedAll calm k f i body ∧ ∀ write ∈ writesAll body, write.Gives i kind := by
  induction chosen with
  | first holds => exact ⟨(undisturbed.1.holds before holds).1,undisturbed.2.1,(forall_mem_append.mp gives).1⟩
  | later fails _ ih => exact ih undisturbed.2.2 (forall_mem_append.mp gives).2 (undisturbed.1.holds before fails).1

theorem InstrKind.Enters.holds (quiet : f.Calm calm) (known : kind ≠ .dynamic) {instr : InstrKind} (entered : instr.Enters k f w body start)
    (undisturbed : instr.Undisturbed calm k f i) (gives : ∀ write ∈ instr.writes, write.Gives i kind)
    (before : f.Steady calm i kind w) :
    f.Steady calm i kind start ∧ UndisturbedAll calm k f i body ∧ ∀ write ∈ writesAll body, write.Gives i kind := by
  cases entered with
  | branch chosen => exact chosen.holds undisturbed.1 (forall_mem_append.mp gives).1 before
  | otherwise ran =>
    obtain ⟨first,last⟩ := forall_mem_append.mp gives
    exact ⟨(execBranches_holds quiet known _ undisturbed.1 first before ran).1,undisturbed.2,last⟩
  | whileLoop turn => exact ⟨turn.holds undisturbed.1.holds (execBlock_holds quiet known body undisturbed.2 gives) before,
      undisturbed.2,gives⟩
  | forLoop ran turn =>
    obtain ⟨spared,steps,honest,stored,inside⟩ := undisturbed
    obtain ⟨first,last⟩ := forall_mem_append.mp gives
    obtain ⟨started,offers⟩ := iterate_holds spared honest before ran
    exact ⟨turn.holds (offers.take_holds quiet known (steps _) stored first)
      (execBlock_holds quiet known body inside last) started,inside,last⟩

-- By induction on the way to the statement. A block that is entered inherits what is asked of the
-- statement around it.
theorem Instr.Reaches.holds (quiet : f.Calm calm) (known : kind ≠ .dynamic) {code}
    (reached : Reaches k f code w p x) (undisturbed : UndisturbedAll calm k f i code)
    (gives : ∀ write ∈ writesAll code, write.Gives i kind) (before : f.Steady calm i kind w) :
    f.Steady calm i kind x := by
  induction reached with
  | here => exact before
  | behind ran _ ih =>
    obtain ⟨first,last⟩ := forall_mem_append.mp gives
    exact ih undisturbed.2 last (exec_holds quiet known _ undisturbed.1 first before ran).1
  | @inside line instr _ _ _ w _ _ entered _ ih =>
    obtain ⟨first,_⟩ := forall_mem_append.mp gives
    have moved : f.Steady calm i kind { w with line } := ⟨quiet.line w line before.calm,before.held⟩
    obtain ⟨started,undisturbed,gives⟩ := entered.holds quiet known undisturbed.1 first moved
    exact ih undisturbed gives started

end

theorem Compile.InRoutine.slotKind (inside : InRoutine st s) (j : Nat) : st.slotKind j = s.slotKind j := by
  rw [CompileState.slotKind,inside.innermost]
  rfl

theorem Compile.InRoutine.within (inside : InRoutine st s) :
    st.Within s.slotKind := fun j _ => (inside.slotKind j).symm

section

variable {calm : World → Prop} {k : Engine} {f : Frame} {i : Nat}

end

-- A variable that is checked, and one that is not

end EmbedScript
