import EmbedScript.Proofs.Code.Scopes
import EmbedScript.Proofs.Typing.Known

/-!
What statements write to the slots of their routine. A store that is compiled before the kind of its
slot is known checks nothing.
-/

namespace EmbedScript

open Compile

-- A place where code puts a value in a slot: what it checks, and what the form of the value shows.
structure Write where
  slot : Nat
  check : Kind
  evident : Option Kind
  deriving DecidableEq

mutual

def Store.writes : Store → Option Kind → List Write
  | .cell (.slot i) _ check, evident => [⟨i,check,evident⟩]
  | .cell (.capture _) .., _ | .global _, _ | .attribute .., _ | .index .., _ => []
  | .tuple parts, _ => Store.writesAll parts

def Store.writesAll : List Store → List Write
  | [] => []
  | store :: stores => store.writes none ++ Store.writesAll stores

end

def Code.elements? : Code → Option Kind
  | .call (.global name) _ => if name = "range" then some .int else none
  | c => if c.evident? = some .str then some .str else none

mutual

def Instr.writes : Instr → List Write
  | .mk _ kind => kind.writes

-- Class bodies write to slots of their own.
def InstrKind.writes : InstrKind → List Write
  | .assign value stores => stores.flatMap (·.writes value.evident?)
  | .cond branches otherwise => Instr.writesOfBranches branches ++ Instr.writesAll otherwise
  | .whileLoop _ body => Instr.writesAll body
  | .forLoop source store body => store.writes source.elements? ++ Instr.writesAll body
  | .augment _ _ _ store | .classDef _ _ _ _ store | .importModule _ store => store.writes none
  | .importNames _ _ stores => Store.writesAll stores
  | _ => []

def Instr.writesOfBranches : List BranchCode → List Write
  | [] => []
  | .mk _ body :: branches => Instr.writesAll body ++ Instr.writesOfBranches branches

def Instr.writesAll : List Instr → List Write
  | [] => []
  | instr :: instrs => instr.writes ++ Instr.writesAll instrs

end

-- If the write checks at all, then for the kind that the slot has.
def Write.Checks (kinds : Nat → Kind) (write : Write) : Prop := write.check = .dynamic ∨ write.check = kinds write.slot

def CompileState.Within (st : CompileState) (kinds : Nat → Kind) : Prop := ∀ i, st.slotKind i ≠ .dynamic → kinds i = st.slotKind i

theorem CompileState.Within.trans {st middle : CompileState}
    (first : st.Within middle.slotKind) (second : middle.Within kinds) : st.Within kinds := by
  intro i known
  have same := first i known
  rw [second i (same ▸ known),same]

theorem Scope.slotKind_setKind (s : Scope) (slot i : Nat) (kind : Kind) :
    (s.setKind slot kind).slotKind i = if i = slot then kind else s.slotKind i := by
  by_cases same : i = slot
  · simp [Scope.slotKind,Scope.setKind,same]
  · have other : (i == slot) = false := by simp [same]
    simp [Scope.slotKind,Scope.setKind,List.lookup_cons,other,same]

def Store.Checks (kinds : Nat → Kind) (store : Store) : Prop := ∀ evident, ∀ write ∈ store.writes evident, write.Checks kinds

theorem Store.writesAll_checks
    (checks : ∀ store ∈ stores, store.Checks kinds) : ∀ write ∈ Store.writesAll stores, write.Checks kinds := by
  induction stores with
  | nil => exact List.forall_mem_nil _
  | cons store stores ih =>
    obtain ⟨first,others⟩ := List.forall_mem_cons.mp checks
    exact List.forall_mem_append.mpr ⟨first none,ih others⟩

end EmbedScript
