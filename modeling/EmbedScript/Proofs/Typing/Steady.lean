import EmbedScript.Proofs.Typing.Augment
import EmbedScript.Proofs.Typing.Writes

/-!
What statements do to one variable of their routine. `Undisturbed` says that nothing else that runs
changes it.
-/

namespace EmbedScript

open Exec Compile List Store

-- Invariants of computations

def Exec.Holds (inv : World → Prop) (x : Exec α) (Q : α → Prop) : Prop :=
  ∀ ⦃w a left⦄, inv w → x w = .done a left → inv left ∧ Q a

namespace Exec.Holds

theorem pure (holds : P a) : Holds inv (Pure.pure a) P := by
  intro w b left start ran
  cases ran
  exact ⟨start,holds⟩

theorem bind (first : Holds inv x P) (rest : ∀ a, P a → Holds inv (f a) Q) : Holds inv (x >>= f) Q := by
  intro w b left start ran
  obtain ⟨a,middle,ran₁,ran₂⟩ := bind_eq_done ran
  obtain ⟨kept,holds⟩ := first start ran₁
  exact rest a holds kept ran₂

theorem fail (e : Fault) : Holds inv (fail e) P := by
  intro w a left _ ran
  cases ran

theorem stop (h : Halt) : Holds inv (stop h) P := by
  intro w a left _ ran
  cases ran

theorem forIn {f} {items : List α} (each : ∀ a ∈ items, ∀ b, Holds inv (f a b) fun _ => True) (b : β) :
    Holds inv (ForIn.forIn items b f) fun _ => True := by
  induction items generalizing b with
  | nil =>
    exact pure trivial
  | cons item items ih =>
    rw [forIn_cons]
    obtain ⟨first,others⟩ := forall_mem_cons.mp each
    refine (first b).bind fun step _ => ?_
    cases step with
    | done b => exact pure trivial
    | yield b => exact ih others b

theorem repeatWhile (tested : Holds inv test fun _ => True)
    (ran : Holds inv body fun _ => True) (fuel : Nat) :
    Holds inv (Engine.repeatWhile test body fuel) fun _ => True := by
  induction fuel with
  | zero => exact stop _
  | succ fuel ih =>
    refine tested.bind fun again _ => ?_
    cases again with
    | false => exact pure trivial
    | true =>
      refine ran.bind fun flow _ => ?_
      cases flow with
      | next | continues => exact ih
      | breaks | returns => exact pure trivial

theorem repeatFor {next} {P : Value → Prop} (advanced : Holds inv next fun item => ∀ v ∈ item, P v)
    (ran : ∀ v, P v → Holds inv (body v) fun _ => True) (fuel : Nat) :
    Holds inv (Engine.repeatFor next body fuel) fun _ => True := by
  induction fuel with
  | zero => exact stop _
  | succ fuel ih =>
    refine advanced.bind fun item known => ?_
    cases item with
    | none => exact pure trivial
    | some v =>
      refine (ran v (known v rfl)).bind fun flow _ => ?_
      cases flow with
      | next | continues => exact ih
      | breaks | returns => exact pure trivial

end Exec.Holds

-- What a run may ask for

def Frame.slot? (f : Frame) (w : World) (i : Nat) : Option Value := w.heap.cell (f.cell (.slot i))

section

variable (calm : World → Prop) (k : Engine) (f : Frame) (i : Nat)

def Exec.Spares (x : Exec α) : Prop := ∀ ⦃w a left⦄, calm w → x w = .done a left → calm left ∧ f.slot? left i = f.slot? w i

-- States stay calm when the routine itself moves on and stores values.
structure Frame.Calm : Prop where
  line : ∀ w n, calm w → calm { w with line := n }
  store : ∀ j v w left, calm w → setCell (f.cell (.slot j)) v w = .done () left → calm left

mutual

def Store.Undisturbed : Store → Prop
  | .cell (.slot _) .. => True
  | .tuple parts => (∀ v, Exec.Spares calm f i (k.items v)) ∧ UndisturbedAll parts
  | store => ∀ v, Exec.Spares calm f i (store.put k f v)

def Store.UndisturbedAll : List Store → Prop
  | [] => True
  | store :: stores => store.Undisturbed ∧ UndisturbedAll stores

end

mutual

def Deletion.Undisturbed : Deletion → Prop
  | .cell (.slot _) _ => True
  | .tuple items => Deletion.UndisturbedAll items
  | deletion => Exec.Spares calm f i (deletion.run k f)

def Deletion.UndisturbedAll : List Deletion → Prop
  | [] => True
  | item :: items => item.Undisturbed ∧ Deletion.UndisturbedAll items

end

end

def Engine.makeClass (k : Engine) (f : Frame) (decorators bases : List Code) (plan : ClassPlan)
    (body : List Instr) : Exec Value := do
  let decorators ← Code.evalAll k f decorators
  let bases ← Code.evalBases k f bases
  let inner ← newFrame plan.slots (f.captured plan.captures) f.home
  discard (Instr.execBlock k inner body)
  let own ← inner.members plan
  let module ← heap fun h => (h.module f.home).name
  let cls ← defineClass plan.name module bases own
  setCell (inner.cell (.slot plan.classSlot)) (some (.cls cls))
  k.decorate decorators (.cls cls)

def Code.test (k : Engine) (f : Frame) (c : Code) : Exec Bool := do k.truthy (← c.eval k f)

def Code.iterate (k : Engine) (f : Frame) (c : Code) : Exec (Ref .cursor) := do k.iter (← c.eval k f)

section

variable (calm : World → Prop) (k : Engine) (f : Frame) (i : Nat)

-- The elements that the cursor gives are of the kind, if the code that it comes from shows it.
def Code.Offers (source : Code) (kind : Kind) (c : Ref .cursor) : Prop :=
  source.elements? = some kind → ∀ ⦃w v left⦄, calm w → k.advance c w = .done (some v) left → v.kind = kind

def Code.Honest (source : Code) : Prop :=
  ∀ ⦃w c left⦄, calm w → source.iterate k f w = .done c left → ∀ kind, source.Offers calm k kind c

mutual

def Instr.Undisturbed : Instr → Prop
  | .mk _ kind => kind.Undisturbed

def InstrKind.Undisturbed : InstrKind → Prop
  | .assign value stores => Exec.Spares calm f i (value.eval k f) ∧ UndisturbedAll calm k f i stores
  | .augment current op value store => Exec.Spares calm f i (current.eval k f) ∧ Exec.Spares calm f i (value.eval k f) ∧
      (∀ a b, Exec.Spares calm f i (k.augment op a b)) ∧ store.Undisturbed calm k f i
  | .cond branches otherwise => Instr.UndisturbedBranches branches ∧ Instr.UndisturbedAll otherwise
  | .whileLoop condition body => Exec.Spares calm f i (condition.test k f) ∧ Instr.UndisturbedAll body
  | .forLoop source store body => Exec.Spares calm f i (source.iterate k f) ∧ (∀ c, Exec.Spares calm f i (k.advance c)) ∧
      source.Honest calm k f ∧ store.Undisturbed calm k f i ∧ Instr.UndisturbedAll body
  | .classDef decorators bases plan body store =>
    Exec.Spares calm f i (k.makeClass f decorators bases plan body) ∧ store.Undisturbed calm k f i
  | .deletes targets => Deletion.UndisturbedAll calm k f i targets
  | .importModule path store => Exec.Spares calm f i (k.importModule path) ∧ store.Undisturbed calm k f i
  | .importNames path names stores => Exec.Spares calm f i (k.importNames path names) ∧ UndisturbedAll calm k f i stores
  | kind => Exec.Spares calm f i (kind.exec k f)

def Instr.UndisturbedBranches : List BranchCode → Prop
  | [] => True
  | .mk condition body :: branches =>
    Exec.Spares calm f i (condition.test k f) ∧ Instr.UndisturbedAll body ∧ Instr.UndisturbedBranches branches

def Instr.UndisturbedAll : List Instr → Prop
  | [] => True
  | instr :: instrs => instr.Undisturbed ∧ Instr.UndisturbedAll instrs

end

end

-- What statements keep

section

variable {f : Frame} {kind : Kind}

structure Frame.Steady (calm : World → Prop) (f : Frame) (i : Nat) (kind : Kind) (w : World) : Prop where
  calm : calm w
  held : ∀ v, f.slot? w i = some v → v.kind = kind

-- The write puts only values of the kind in the slot. What the value shows counts only where nothing
-- is checked, since a check can turn it into a value of another kind.
def Write.Gives (i : Nat) (kind : Kind) (write : Write) : Prop :=
  write.slot = i → write.check = kind ∨ write.check = .dynamic ∧ write.evident = some kind

theorem Exec.Spares.holds (spares : Spares calm f i x) : Holds (f.Steady calm i kind) x fun _ => True := by
  intro w a left start ran
  obtain ⟨still,same⟩ := spares start.calm ran
  refine ⟨⟨still,?_⟩,trivial⟩
  intro v held
  exact start.held v (same ▸ held)

theorem Kind.coerce_gives {name} (known : kind ≠ .dynamic)
    (ran : kind.coerce name v w = .done u left) : u.kind = kind ∧ left = w := by
  unfold Kind.coerce at ran
  split at ran
  case isTrue accepted =>
    cases ran
    simp only [Kind.accepts,Bool.or_eq_true,beq_iff_eq,known,false_or] at accepted
    exact ⟨accepted.symm,rfl⟩
  case isFalse =>
    split at ran
    · cases ran
      exact ⟨rfl,rfl⟩
    · cases ran
      exact ⟨rfl,rfl⟩
    · obtain ⟨_,_,_,failed⟩ := bind_eq_done ran
      cases failed

theorem setSlot_holds (quiet : f.Calm calm) (j : Nat) (given : j = i → ∀ u ∈ v, u.kind = kind) :
    Holds (f.Steady calm i kind) (setCell (f.cell (.slot j)) v) fun _ => True := by
  intro w _ left start ran
  refine ⟨⟨quiet.store j v w left start.calm ran,?_⟩,trivial⟩
  intro u held
  cases ran
  by_cases same : j = i
  · subst same
    simp only [Frame.slot?,Heap.cell,Frame.cell,Array.getElem?_modify] at held
    cases old : w.heap.cells[f.base + j]? with
    | none => simp [old] at held
    | some _ =>
      simp only [old,if_true,Option.map_some,Option.getD_some] at held
      exact given rfl u held
  · have other : f.base + j ≠ f.base + i := fun equal => same (Nat.add_left_cancel equal)
    simp only [Frame.slot?,Heap.cell,Frame.cell,Array.getElem?_modify,if_neg other] at held
    exact start.held u held

theorem Store.put_cell (place : CellAt) (name : String) (check : Kind) (v : Value) : (cell place name check).put k f v =
      (if check = .dynamic then pure v else check.coerce name v) >>= fun u => setCell (f.cell place) (some u) := by
  unfold put
  split <;> rfl

mutual

theorem Store.put_holds (quiet : f.Calm calm) (known : kind ≠ .dynamic) (evident : Option Kind) {v}
    (shown : evident = some kind → v.kind = kind) : (store : Store) → store.Undisturbed calm k f i →
      (∀ write ∈ store.writes evident, write.Gives i kind) →
      Holds (f.Steady calm i kind) (store.put k f v) fun _ => True
  | .cell (.slot j) name check, _, gives => by
    have given := gives ⟨j,check,evident⟩ (mem_singleton.mpr rfl)
    have checked : Holds (f.Steady calm i kind)
        (if check = .dynamic then pure v else check.coerce name v) fun u => j = i → u.kind = kind := by
      split
      case isTrue unchecked =>
        refine .pure ?_
        intro same
        rcases given same with checks | ⟨_,evident⟩
        · exact absurd (checks.symm.trans unchecked) known
        · exact shown evident
      case isFalse checks =>
        intro w u left start ran
        obtain ⟨result,rfl⟩ := Kind.coerce_gives checks ran
        refine ⟨start,?_⟩
        intro same
        rcases given same with now | ⟨unchecked,_⟩
        · exact result.trans now
        · exact absurd unchecked checks
    rw [put_cell]
    exact checked.bind fun u result => setSlot_holds quiet j fun same _ held => by
      cases held
      exact result same
  | .cell (.capture _) .., spares, _ | .global _, spares, _ | .attribute .., spares, _ | .index .., spares, _ => (spares v).holds
  | .tuple parts, undisturbed, gives => by
    refine (undisturbed.1 v).holds.bind fun vs _ => ?_
    split
    · exact putAll_holds quiet known parts vs undisturbed.2 gives
    · exact .fail _

theorem Store.putAll_holds (quiet : f.Calm calm) (known : kind ≠ .dynamic) : (stores : List Store) →
      (vs : List Value) → UndisturbedAll calm k f i stores →
      (∀ write ∈ writesAll stores, write.Gives i kind) →
      Holds (f.Steady calm i kind) (putAll k f stores vs) fun _ => True
  | [], _, _, _ | _ :: _, [], _, _ => .pure trivial
  | store :: stores, v :: vs, undisturbed, gives => by
    obtain ⟨first,others⟩ := forall_mem_append.mp gives
    refine (put_holds quiet known none nofun store undisturbed.1 first).bind fun _ _ => ?_
    exact putAll_holds quiet known stores vs undisturbed.2 others

end

mutual

theorem Deletion.run_holds (quiet : f.Calm calm) : (deletion : Deletion) → deletion.Undisturbed calm k f i →
    Holds (f.Steady calm i kind) (deletion.run k f) fun _ => True
  | .cell (.slot j) name, _ => by
    have read : Holds (f.Steady calm i kind) (heap (·.cell (f.cell (.slot j)))) fun _ => True := by
      intro w v left start ran
      cases ran
      exact ⟨start,trivial⟩
    refine read.bind fun found _ => ?_
    split
    · exact .fail _
    · exact setSlot_holds quiet j nofun
  | .cell (.capture _) _, spares | .global _, spares | .attribute .., spares | .index .., spares => spares.holds
  | .tuple items, undisturbed => Deletion.runAll_holds quiet items undisturbed

theorem Deletion.runAll_holds (quiet : f.Calm calm) : (items : List Deletion) → Deletion.UndisturbedAll calm k f i items →
    Holds (f.Steady calm i kind) (Deletion.runAll k f items) fun _ => True
  | [], _ => .pure trivial
  | item :: items, undisturbed =>
    (item.run_holds quiet undisturbed.1).bind fun _ _ => Deletion.runAll_holds quiet items undisturbed.2

end

theorem Store.undisturbed_of_mem (all : UndisturbedAll calm k f i stores)
    (among : store ∈ stores) : store.Undisturbed calm k f i := by
  induction stores with
  | nil => exact (not_mem_nil among).elim
  | cons first stores ih =>
    rcases mem_cons.mp among with rfl | among
    · exact all.1
    · exact ih all.2 among

theorem Code.iterate_holds {source : Code} (spares : Exec.Spares calm f i (source.iterate k f))
    (honest : source.Honest calm k f) :
    Holds (f.Steady calm i kind) (source.iterate k f) (source.Offers calm k kind) :=
  fun _ _ _ start ran => ⟨(spares.holds start ran).1,honest start.calm ran kind⟩

theorem Code.Offers.advance_holds {source : Code} (offers : source.Offers calm k kind c)
    (spares : Exec.Spares calm f i (k.advance c)) :
    Holds (f.Steady calm i kind) (k.advance c) fun item => ∀ v ∈ item, source.elements? = some kind → v.kind = kind := by
  intro w item left start ran
  refine ⟨(spares.holds start ran).1,?_⟩
  rintro v rfl shown
  exact offers shown start.calm ran

-- By recursion on the statements. What a loop keeps is by induction on the fuel, in `repeatWhile` and
-- `repeatFor`.
mutual

theorem Instr.exec_holds (quiet : f.Calm calm) (known : kind ≠ .dynamic) : (instr : Instr) →
    instr.Undisturbed calm k f i → (∀ write ∈ instr.writes, write.Gives i kind) →
    Holds (f.Steady calm i kind) (instr.exec k f) fun _ => True
  | .mk line instr, undisturbed, gives => by
    have moved : Holds (f.Steady calm i kind) (setLine line) fun _ => True := by
      intro w _ left start ran
      cases ran
      exact ⟨⟨quiet.line w line start.calm,start.held⟩,trivial⟩
    exact moved.bind fun _ _ => instr.exec_holds quiet known undisturbed gives

theorem InstrKind.exec_holds (quiet : f.Calm calm) (known : kind ≠ .dynamic) : (instr : InstrKind) →
    instr.Undisturbed calm k f i → (∀ write ∈ instr.writes, write.Gives i kind) →
    Holds (f.Steady calm i kind) (instr.exec k f) fun _ => True
  | .eval _, spares, _ | .augmentAttribute .., spares, _ | .augmentIndex .., spares, _
  | .returns _, spares, _ | .breaks, spares, _ | .continues, spares, _ | .skip, spares, _
  | .raises _, spares, _ | .asserts .., spares, _ | .importAll _, spares, _ => spares.holds
  | .assign value stores, undisturbed, gives => by
    have evaluated : Holds (f.Steady calm i kind) (value.eval k f) fun v => value.evident? = some kind → v.kind = kind :=
      fun _ _ _ start ran => ⟨(undisturbed.1.holds start ran).1,fun shown => Code.evident_sound shown ran⟩
    refine evaluated.bind fun v shown => Holds.bind (.forIn (fun store among _ => ?_) _) fun _ _ => .pure trivial
    refine (store.put_holds quiet known _ shown (undisturbed_of_mem undisturbed.2 among) ?_).bind fun _ _ => .pure trivial
    intro write written
    exact gives write (mem_flatMap.mpr ⟨store,among,written⟩)
  | .augment current op value store, undisturbed, gives =>
    undisturbed.1.holds.bind fun a _ => undisturbed.2.1.holds.bind fun b _ => (undisturbed.2.2.1 a b).holds.bind fun _ _ =>
        (store.put_holds quiet known none nofun undisturbed.2.2.2 gives).bind fun _ _ => .pure trivial
  | .cond branches otherwise, undisturbed, gives => by
    obtain ⟨first,last⟩ := forall_mem_append.mp gives
    refine (Instr.execBranches_holds quiet known branches undisturbed.1 first).bind fun taken _ => ?_
    cases taken with
    | none => exact Instr.execBlock_holds quiet known otherwise undisturbed.2 last
    | some flow => exact .pure trivial
  | .whileLoop condition body, undisturbed, gives =>
    .repeatWhile undisturbed.1.holds (Instr.execBlock_holds quiet known body undisturbed.2 gives) _
  | .forLoop source store body, undisturbed, gives => by
    obtain ⟨spared,steps,honest,stored,inside⟩ := undisturbed
    obtain ⟨first,last⟩ := forall_mem_append.mp gives
    rw [InstrKind.exec,← bind_assoc]
    refine (Code.iterate_holds spared honest).bind fun c offers =>
      .repeatFor (offers.advance_holds (steps c)) (fun v shown => ?_) _
    exact (store.put_holds quiet known _ shown stored first).bind fun _ _ => Instr.execBlock_holds quiet known body inside last
  | .classDef decorators bases plan body store, undisturbed, gives => by
    have same : (InstrKind.classDef decorators bases plan body store).exec k f =
        k.makeClass f decorators bases plan body >>= fun cls => store.put k f cls >>= fun _ => pure .next := by
      simp only [InstrKind.exec,Engine.makeClass,bind_assoc]
    rw [same]
    exact undisturbed.1.holds.bind fun _ _ =>
      (store.put_holds quiet known none nofun undisturbed.2 gives).bind fun _ _ => .pure trivial
  | .deletes targets, undisturbed, _ => (Deletion.runAll_holds quiet targets undisturbed).bind fun _ _ => .pure trivial
  | .importModule path store, undisturbed, gives => undisturbed.1.holds.bind fun _ _ =>
      (store.put_holds quiet known none nofun undisturbed.2 gives).bind fun _ _ => .pure trivial
  | .importNames path names stores, undisturbed, gives => undisturbed.1.holds.bind fun vs _ =>
      (putAll_holds quiet known stores vs undisturbed.2 gives).bind fun _ _ => .pure trivial

theorem Instr.execBranches_holds (quiet : f.Calm calm) (known : kind ≠ .dynamic) : (branches : List BranchCode) →
    Instr.UndisturbedBranches calm k f i branches →
    (∀ write ∈ Instr.writesOfBranches branches, write.Gives i kind) →
    Holds (f.Steady calm i kind) (Instr.execBranches k f branches) fun _ => True
  | [], _, _ => .pure trivial
  | .mk condition body :: branches, undisturbed, gives => by
    obtain ⟨first,last⟩ := forall_mem_append.mp gives
    rw [Instr.execBranches,← bind_assoc]
    refine undisturbed.1.holds.bind fun taken _ => ?_
    cases taken with
    | true => exact (Instr.execBlock_holds quiet known body undisturbed.2.1 first).bind fun _ _ => .pure trivial
    | false => exact Instr.execBranches_holds quiet known branches undisturbed.2.2 last

theorem Instr.execBlock_holds (quiet : f.Calm calm) (known : kind ≠ .dynamic) : (code : List Instr) →
    Instr.UndisturbedAll calm k f i code → (∀ write ∈ Instr.writesAll code, write.Gives i kind) →
    Holds (f.Steady calm i kind) (Instr.execBlock k f code) fun _ => True
  | [], _, _ => .pure trivial
  | instr :: code, undisturbed, gives => by
    obtain ⟨first,last⟩ := forall_mem_append.mp gives
    refine (instr.exec_holds quiet known undisturbed.1 first).bind fun flow _ => ?_
    cases flow with
    | next => exact Instr.execBlock_holds quiet known code undisturbed.2 last
    | returns | breaks | continues => exact .pure trivial

end

end

end EmbedScript
