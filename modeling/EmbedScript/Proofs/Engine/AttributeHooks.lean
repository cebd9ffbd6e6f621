import EmbedScript.Interpreter
import EmbedScript.Proofs.Typing.Operators

namespace EmbedScript

open Exec Engine

variable {w : World}

-- What is left of an outcome when the note of the last error is struck out.
def Outcome.unnoted : Outcome α → Outcome α
  | .done a w => .done a { w with raised := none }
  | .fault e w => .fault e { w with raised := none }
  | .halt h => .halt h

namespace Exec

-- On a given heap a computation that asks nobody ends in one way, whatever else the state is.
def Settles (x : Exec α) (h : Heap) (result : Except Fault α) (after : Heap) : Prop :=
  ∀ w : World, w.heap = h → x w = ofExcept result { w with heap := after }

namespace Settles

theorem pure (a : α) : (pure a : Exec α).Settles h (.ok a) h := by
  rintro w rfl
  rfl

theorem fail (e : Fault) : (fail e : Exec α).Settles h (.error e) h := by
  rintro w rfl
  rfl

theorem read
    (rest : (g (f h)).Settles h result after) : (heap f >>= g).Settles h result after := by
  rintro w rfl
  exact rest w rfl

theorem change (f : Heap → α × Heap) (g : α → β) : (do return g (← modifyGetHeap f)).Settles h (.ok (g (f h).1)) (f h).2 := by
  rintro w rfl
  rfl

theorem inCall (settles : x.Settles w.heap result after)
    (shallow : w.depth < w.maxDepth) (name : String) :
    (inCall (.builtin name) x w).unnoted = (x w).unnoted := by
  have inside := settles { { w with depth := w.depth + 1 } with calls := .builtin name :: w.calls } rfl
  rw [Exec.inCall,if_neg (Nat.not_le.mpr shallow),inCode,inside,settles w rfl]
  cases result <;> rfl

end Settles

end Exec

-- The hooks of the root class

variable {r : Ref .object} {cls : Ref .cls} {name : String}

-- The object or its class answers for the name, or nobody is asked in their place.
def Heap.Answers (h : Heap) (r : Ref .object) (cls : Ref .cls) (name : String) : Prop :=
  (h.object r).fields.get? name ≠ none ∨ (h.cls cls).members.get? name ≠ none ∨
    name = "__class__" ∨ name = "__dict__" ∨ (h.cls cls).members.get? "__getattr__" = none

theorem bindMember_settles (receiver member : Value) (h : Heap) :
    ∃ result after, (bindMember receiver member).Settles h result after := by
  cases member with
  | function f =>
    cases static : (h.function f).isStatic with
    | true => exact ⟨_,_,.read (by rw [static]; exact .pure _)⟩
    | false => exact ⟨_,_,.read (by rw [static]; exact .change _ _)⟩
  | _ => exact ⟨_,_,.pure _⟩

theorem objectAttr_settles (answers : h.Answers r cls name) :
    ∃ result after, ∀ k : Engine, (k.objectAttr r cls name).Settles h result after := by
  have through {x : Exec Value} {result after} (settles : x.Settles h result after)
      (same : ∀ k w, w.heap = h → k.objectAttr r cls name w = x w) :
      ∃ result after, ∀ k : Engine, (k.objectAttr r cls name).Settles h result after :=
    ⟨result,after,fun k w on => (same k w on).trans (settles w on)⟩
  cases field : (h.object r).fields.get? name with
  | some value =>
    refine through (.pure value) ?_
    rintro k w rfl
    simp [objectAttr,bind_apply,field]
  | none =>
    cases mem : (h.cls cls).members.get? name with
    | some found =>
      obtain ⟨_,_,settles⟩ := bindMember_settles (.object r cls) found h
      refine through settles ?_
      rintro k w rfl
      simp [objectAttr,classMember,bind_apply,field,mem]
    | none =>
      by_cases own : name = "__class__"
      · subst own
        refine through (.pure (.cls cls)) ?_
        rintro k w rfl
        simp [objectAttr,classMember,bind_apply,field,mem]
      by_cases dict : name = "__dict__"
      · subst dict
        have made : (newDict (Dict.ofNames (h.object r).fields.toList)).Settles h _ _ :=
          Settles.change (fun h => (_,{ h with dicts := h.dicts.push _ })) Value.dict
        refine through made ?_
        rintro k w rfl
        simp [objectAttr,classMember,bind_apply,field,mem]
      · have nobody : (h.cls cls).members.get? "__getattr__" = none := by simpa [Heap.Answers,field,mem,own,dict] using answers
        refine through (.fail (.noAttribute (h.cls cls).name name)) ?_
        rintro k w rfl
        simp [objectAttr,classMember,bind_apply,field,mem,own,dict,nobody]

variable (n : Nat) {f : Ref .function} {b : Builtin}

theorem call_native (native : (w.heap.function f).routine = .builtin b) (arguments : List Value) :
    (engine (n + 1)).call (.function f) arguments w = inCall (.builtin b.name) ((engine n).applyBuiltin b arguments) w := by
  change (engine n).callFunction f arguments w = _
  rw [callFunction,bind_done (heap_apply ..),native]
  cases n <;> rfl

theorem call_setattr (own : (w.heap.function f).routine = .builtin .objectSetAttr)
    (shallow : w.depth < w.maxDepth) (value : Value) :
    discard ((engine (n + 1)).call (.function f) [.object r cls,.str name,value]) w = modifyFields r (·.insert name value) w := by
  rw [discard_apply,bind_apply,call_native n own,inCall,if_neg (Nat.not_le.mpr shallow)]
  rfl

-- Any hook

variable {hook : Value}

theorem getAttr_hook (bound : (w.heap.cls cls).members.get? "__getattribute__" = some hook)
    (script : ∀ f, hook = .function f → (w.heap.function f).isBuiltin = false) (k : Engine) :
    k.getAttr (.object r cls) name w = k.call hook [.object r cls,.str name] w := by
  rw [getAttr,classMember,bind_done (heap_apply ..),bound]
  cases hook with
  | function f => simp [bind_apply,isBuiltin,script f rfl]
  | _ => rfl

theorem getAttr_native (native : (w.heap.function f).routine = .builtin b)
    (bound : (w.heap.cls cls).members.get? "__getattribute__" = some (.function f)) (k : Engine) :
    k.getAttr (.object r cls) name w = k.objectAttr r cls name w := by
  rw [getAttr,classMember,bind_done (heap_apply ..),bound]
  simp [bind_apply,isBuiltin,FunctionInfo.isBuiltin,native]

theorem setAttr_hook (bound : (w.heap.cls cls).members.get? "__setattr__" = some hook)
    (script : ∀ f, hook = .function f → (w.heap.function f).isBuiltin = false) (k : Engine)
    (value : Value) :
    k.setAttr (.object r cls) name value w = discard (k.call hook [.object r cls,.str name,value]) w := by
  rw [setAttr,classMember,bind_done (heap_apply ..),bound]
  cases hook with
  | function f => simp [bind_apply,isBuiltin,script f rfl]
  | _ => rfl

theorem setAttr_native (native : (w.heap.function f).routine = .builtin b)
    (bound : (w.heap.cls cls).members.get? "__setattr__" = some (.function f)) (k : Engine) (value : Value) :
    k.setAttr (.object r cls) name value w = modifyFields r (·.insert name value) w := by
  rw [setAttr,classMember,bind_done (heap_apply ..),bound]
  simp [bind_apply,isBuiltin,FunctionInfo.isBuiltin,native]

theorem native_or_script (h : Heap) (hook : Value) : (∃ f b, hook = .function f ∧ (h.function f).routine = .builtin b) ∨
      ∀ f, hook = .function f → (h.function f).isBuiltin = false := by
  cases hook with
  | function f =>
    cases routine : (h.function f).routine with
    | builtin b => exact .inl ⟨f,b,rfl,routine⟩
    | script =>
      refine .inr fun g same => ?_
      cases same
      rw [FunctionInfo.isBuiltin,routine]
  | _ => exact .inr fun _ same => by cases same

-- Attributes are the call of the class's hook, unless the hook is native: then they are what the
-- hooks of the root class do. For these themselves that is the same, but for one level of depth.
theorem attribute_hooks (n : Nat) (r : Ref .object) (cls : Ref .cls) (name : String) (value : Value)
    {w : World} (shallow : w.depth < w.maxDepth) :
    (∀ hook, (w.heap.cls cls).members.get? "__getattribute__" = some hook →
      (∀ f b, hook = .function f → (w.heap.function f).routine = .builtin b →
        b = .objectGetAttribute ∧ w.heap.Answers r cls name) →
      ((engine (n + 1)).getAttr (.object r cls) name w).unnoted =
        ((engine (n + 1)).call hook [.object r cls,.str name] w).unnoted) ∧
    (∀ hook, (w.heap.cls cls).members.get? "__setattr__" = some hook →
      (∀ f b, hook = .function f → (w.heap.function f).routine = .builtin b → b = .objectSetAttr) →
      (engine (n + 1)).setAttr (.object r cls) name value w =
        discard ((engine (n + 1)).call hook [.object r cls,.str name,value]) w) ∧
    ∀ f b, (w.heap.function f).routine = .builtin b →
      ((w.heap.cls cls).members.get? "__getattribute__" = some (.function f) →
        (engine (n + 1)).getAttr (.object r cls) name w = (engine (n + 1)).objectAttr r cls name w) ∧
      ((w.heap.cls cls).members.get? "__setattr__" = some (.function f) →
        (engine (n + 1)).setAttr (.object r cls) name value w = modifyFields r (·.insert name value) w) ∧
      (b = .objectGetAttribute → (engine (n + 1)).call (.function f) [.object r cls,.str name] w =
        inCall (.builtin b.name) ((engine n).objectAttr r cls name) w) := by
  refine ⟨fun hook bound own => ?_,fun hook bound own => ?_,fun f b native => ⟨?_,?_,?_⟩⟩
  · obtain ⟨f,b,rfl,native⟩ | script := native_or_script w.heap hook
    · obtain ⟨rfl,answers⟩ := own f b rfl native
      obtain ⟨_,_,settles⟩ := objectAttr_settles answers
      rw [getAttr_native native bound,call_native n native]
      refine .trans ?_ ((settles (engine n)).inCall shallow _).symm
      exact congrArg Outcome.unnoted ((settles _ w rfl).trans (settles _ w rfl).symm)
    · rw [getAttr_hook bound script]
  · obtain ⟨f,b,rfl,native⟩ | script := native_or_script w.heap hook
    · obtain rfl := own f b rfl native
      rw [setAttr_native native bound,call_setattr n native shallow]
    · exact setAttr_hook bound script _ value
  · exact fun bound => getAttr_native native bound _
  · exact fun bound => setAttr_native native bound _ value
  · rintro rfl
    exact call_native n native _

-- An object whose class has a builtin for writing attributes.
def hookWorld (setter : Builtin) : World :=
  let hook (b : Builtin) : FunctionInfo := ⟨b.name,b.name,"builtins",.builtin b,false⟩
  let members := #[("__getattribute__",.function ⟨0⟩),("__setattr__",.function ⟨1⟩)]
  { World.blank with
    maxDepth := 1
    heap := { functions := #[hook .objectGetAttribute,hook setter], classes := #[⟨"C","m",[],⟨members⟩⟩]
              objects := #[{}] } }

theorem attribute_hooks_root : ∃ left,
    (engine 1).setAttr (.object ⟨0⟩ ⟨0⟩) "x" (.int 1) (hookWorld .objectSetAttr) = .done () left ∧
    discard ((engine 1).call (.function ⟨1⟩) [.object ⟨0⟩ ⟨0⟩,.str "x",.int 1])
      (hookWorld .objectSetAttr) = .done () left := by
  have same := (attribute_hooks 0 ⟨0⟩ ⟨0⟩ "x" (.int 1) (w := hookWorld .objectSetAttr) Nat.one_pos).2.1
    (.function ⟨1⟩) rfl fun f b found native => by
      cases found
      cases native
      rfl
  exact ⟨_,rfl,same.symm⟩

def Outcome.output? : Outcome α → Option String
  | .done _ w => some w.output
  | _ => none

-- With `print` for a hook, writing an attribute prints nothing.
theorem native_hook_skipped : ¬ ∀ setter : Builtin,
    (engine 2).setAttr (.object ⟨0⟩ ⟨0⟩) "x" (.int 1) (hookWorld setter) =
      discard ((engine 2).call (.function ⟨1⟩) [.object ⟨0⟩ ⟨0⟩,.str "x",.int 1]) (hookWorld setter) := by
  intro same
  exact absurd (congrArg Outcome.output? (same .print)) (by decide +kernel)

end EmbedScript
