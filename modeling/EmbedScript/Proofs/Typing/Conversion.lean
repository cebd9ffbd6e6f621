import EmbedScript.Proofs.Typing.Agreement

namespace EmbedScript

open Exec

variable {type : HostType} {kind : Kind} {x : Value} {w mid : World} {f : Frame} {n : Nat}

-- The constructor of the type that takes a value of a kind.
def HostType.taking (type : HostType) (kind : Kind) : Option HostMethod :=
  Signature.resolve HostMethod.signature type.constructors [kind] true

theorem scalar_constructor (builtin : type ∈ Standard.types.types)
    (scalar : (Kind.ofKey type.name).isScalar = true) (known : kind ≠ .dynamic) :
    ∃ chosen, type.taking kind = some chosen ∧ (∀ (k : Engine) v left,
        k.perform chosen.action (.type type.name) [x] w = .done v left → v.kind = Kind.ofKey type.name) ∧
      (x.kind = Kind.ofKey type.name → (engine (n + 2)).perform chosen.action (.type type.name) [x] w = .done x w) := by
  simp only [Standard.types,List.mem_cons,List.not_mem_nil,or_false] at builtin
  rcases builtin with rfl | rfl | rfl | rfl | rfl | rfl | rfl | rfl | rfl | rfl
  iterate 4
    · refine ⟨?_,?_,fun k v left ran => ?_,fun same => ?_⟩
      rotate_left
      · cases kind <;> first | rfl | contradiction
      · obtain ⟨_,_,_,ran⟩ := bind_eq_done ran
        obtain ⟨_,_,_,ran⟩ := bind_eq_done ran
        cases ran
        rfl
      · cases x <;> first | rfl | cases same
  all_goals exact absurd scalar (by decide)

variable {d : Code} {k : Engine} {chosen : HostMethod}

theorem construct_plain (registered : mid.types.get? type.name = some type)
    (plain : mid.extensions.get? type.name "__new__" = none) (taken : type.taking x.kind = some chosen)
    (k : Engine) :
    k.construct type.name [x] mid = k.perform chosen.action (.type type.name) [x] mid := by
  unfold HostType.taking at taken
  simp [Engine.construct,extension?,bind_apply,plain,registered,taken]

namespace Compile

variable {env : CompileEnv} {st left : CompileState} {value t : Typed}

theorem convertTo_eq_ok (known : value.kind ≠ .dynamic) (compiled : convertTo type value env st = .ok (t, left)) :
    value.kind = Kind.ofKey type.name ∧ t = value ∨ value.kind ≠ Kind.ofKey type.name ∧
      ((∃ chosen, type.taking value.kind = some chosen ∧
          t = .ofKind (.ofKey type.name) (.construct chosen.action type.name value.code)) ∨
        type.taking value.kind = none ∧ t = .ofKind (.ofKey type.name) (.call (.type type.name) [.positional value.code])) := by
  unfold convertTo at compiled
  split at compiled
  case isTrue same =>
    cases compiled
    exact .inl ⟨same,rfl⟩
  case isFalse other =>
    refine .inr ⟨other,?_⟩
    cases taken : type.taking value.kind with
    | some chosen =>
      rw [HostType.taking] at taken
      simp only [taken] at compiled
      cases compiled
      exact .inl ⟨chosen,rfl,rfl⟩
    | none =>
      rw [HostType.taking] at taken
      simp only [taken] at compiled
      obtain ⟨_,_,_,compiled⟩ := bind_eq_ok compiled
      split at compiled
      · cases compiled
        exact .inr ⟨rfl,rfl⟩
      · cases compiled

end Compile

-- The situation in which a conversion finds a value.
structure Convertible (n : Nat) (f : Frame) (target : Code) (type : HostType) (kind : Kind) (x : Value)
    (mid : World) : Prop where
  kind : x.kind = kind
  target : target.eval (engine (n + 3)) f mid = .done (.type type.name) mid
  registered : mid.types.get? type.name = some type
  ample : (engine (n + 2)).construct type.name [x] mid = (engine (n + 3)).construct type.name [x] mid

theorem Convertible.eval {target} (taken : type.taking kind = some chosen) (ready : Convertible n f target type kind x mid)
    (plain : mid.extensions.get? type.name "__new__" = none) :
    (target.eval (engine (n + 3)) f >>= fun callee => (engine (n + 3)).call callee [x]) mid =
      (engine (n + 3)).perform chosen.action (.type type.name) [x] mid := by
  rw [bind_done ready.target]
  exact ready.ample.trans (construct_plain ready.registered plain (ready.kind ▸ taken) _)

theorem eval_construct (same : c.eval k f w = d.eval k f w)
    (action : Action) (key : String) : (Code.construct action key c).eval k f w =
      (d.eval k f >>= fun x => k.perform action (.type key) [x]) w := by
  exact bind_eq same fun _ _ _ => rfl

theorem eval_callType (same : c.eval k f w = d.eval k f w) (key : String) :
    (Code.call (.type key) [.positional c]).eval k f w = (d.eval k f >>= fun x => k.call (.type key) [x]) w := by
  simp only [Code.eval,Code.evalArguments,bind_apply,pure_apply,same]
  cases d.eval k f w <;> rfl

-- A conversion that is compiled for a known kind asks an extension `__new__` only if no constructor
-- takes the kind, and leaves a value of the type itself as it is; the other one asks first and copies.
theorem conversions_agree {env : CompileEnv} {st left : CompileState} {type : HostType}
    {value t : Typed} {d target : Code} {f : Frame} {w : World} {n : Nat} {k : Engine}
    (builtin : type ∈ Standard.types.types) (known : value.kind ≠ .dynamic)
    (compiled : Compile.convertTo type value env st = .ok (t, left)) (fueled : k = engine (n + 3))
    (same : value.code.eval k f w = d.eval k f w)
    (ready : ∀ x mid, d.eval k f w = .done x mid → Convertible n f target type value.kind x mid) :
    ((value.kind = Kind.ofKey type.name → value.kind.isScalar = true) →
      ((∀ x mid, d.eval k f w = .done x mid → mid.extensions.get? type.name "__new__" = none) ∨
        type.taking value.kind = none) →
      t.code.eval k f w = (Code.convert d target).eval k f w) ∧
    (value.kind = Kind.ofKey type.name → t.code.eval k f w = d.eval k f w) ∧
    (value.kind ≠ Kind.ofKey type.name → ∀ chosen, type.taking value.kind = some chosen →
      t.code.eval k f w =
        (d.eval k f >>= fun x => k.perform chosen.action (.type type.name) [x]) w) := by
  subst fueled
  have constructs (scalar : (Kind.ofKey type.name).isScalar = true) (x : Value) (w : World) :=
    scalar_constructor builtin scalar known (x := x) (w := w) (n := n + 1)
  rcases Compile.convertTo_eq_ok known compiled with ⟨equal,rfl⟩ | ⟨other,⟨chosen,taken,rfl⟩ | ⟨missed,rfl⟩⟩
  · refine ⟨fun scalar plain => ?_,fun _ => same,fun other => absurd equal other⟩
    rw [Code.eval,same]
    cases ran : d.eval (engine (n + 3)) f w with
    | fault | halt => rw [bind_apply,ran]
    | done x mid =>
      obtain ⟨chosen,taken,_,kept⟩ := constructs (equal ▸ scalar equal) x mid
      have bare := plain.resolve_right (by simp [taken]) x mid ran
      have situation := ready x mid ran
      rw [bind_done ran,situation.eval taken bare,kept (situation.kind.trans equal)]
  · have typed : (Typed.ofKind (.ofKey type.name) (.construct chosen.action type.name value.code)).code.eval
        (engine (n + 3)) f w = (d.eval (engine (n + 3)) f >>= fun x =>
          (engine (n + 3)).perform chosen.action (.type type.name) [x]) w := by
      refine (Typed.ofKind_eval fun scalar v left ran => ?_).trans (eval_construct same ..)
      obtain ⟨x,mid,_,ran⟩ := bind_eq_done ((eval_construct same ..).symm.trans ran)
      obtain ⟨_,again,made,_⟩ := constructs scalar x mid
      obtain rfl := Option.some.inj (taken.symm.trans again)
      exact made _ _ _ ran
    refine ⟨fun _ plain => ?_,fun equal => absurd equal other,fun _ c again => ?_⟩
    · rw [typed,Code.eval]
      refine bind_eq rfl fun x mid ran => ?_
      exact ((ready x mid ran).eval taken (plain.resolve_right (by simp [taken]) x mid ran)).symm
    · obtain rfl := Option.some.inj (taken.symm.trans again)
      exact typed
  · refine ⟨fun _ _ => ?_,fun equal => absurd equal other,fun _ c taken => ?_⟩
    · refine (Typed.ofKind_eval fun scalar => ?_).trans ((eval_callType same _).trans ?_)
      · obtain ⟨_,taken,_⟩ := constructs scalar .none w
        rw [missed] at taken
        cases taken
      · rw [Code.eval]
        refine bind_eq rfl fun x mid ran => ?_
        rw [bind_done (ready x mid ran).target]
    · rw [missed] at taken
      cases taken

-- A truth value, what it is compiled to, and the world in which it is converted.
def truth : Typed := ⟨.bool,.literal (.bool true)⟩

def truthAsInt : Typed := .ofKind .int (.construct (.number .ofValue) "int" truth.code)

def conversionWorld (extensions : Extensions) : World := { World.blank with
    types := Standard.types, extensions, maxDepth := 1
    heap := { functions := #[⟨"made","made","host",.builtin (.echo "made"),false⟩] } }

theorem truth_converted (env : CompileEnv) (st : CompileState) :
    Compile.convertTo Standard.intType truth env st = .ok (truthAsInt, st) := rfl

theorem truth_ready : Convertible 0 sampleFrame (.type "int") Standard.intType .bool (.bool true) (conversionWorld {}) where
  kind := rfl
  target := rfl
  registered := rfl
  ample :=
    have made (k : Engine) : k.construct "int" [.bool true] (conversionWorld {}) = .done (.int 1) (conversionWorld {}) := rfl
    (made _).trans (made _).symm

theorem conversions_agree_truth :
    truthAsInt.code.eval (engine 3) sampleFrame (conversionWorld {}) =
      (Code.convert truth.code (.type "int")).eval (engine 3) sampleFrame (conversionWorld {}) := by
  have compiled := truth_converted ⟨Standard.types,{}⟩ { scopes := [] }
  have ready (x : Value) (mid : World)
      (ran : truth.code.eval (engine 3) sampleFrame (conversionWorld {}) = .done x mid) :
      Convertible 0 sampleFrame (.type "int") Standard.intType truth.kind x mid := by
    cases ran
    exact truth_ready
  refine (conversions_agree (List.mem_cons_self ..) (by decide) compiled rfl rfl ready).1 nofun
    (.inl fun x mid ran => ?_)
  cases ran
  rfl

-- Where `int` has an extension `__new__`, only the conversion that is left to the run asks it.
theorem extension_passed : ¬ ∀ extensions : Extensions,
    truthAsInt.code.eval (engine 3) sampleFrame (conversionWorld extensions) =
      (Code.convert truth.code (.type "int")).eval (engine 3) sampleFrame (conversionWorld extensions) := by
  intro agree
  have clash := agree (Extensions.register {} "int" "__new__" ⟨0⟩)
  cases clash

end EmbedScript
