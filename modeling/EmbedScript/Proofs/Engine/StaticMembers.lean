import EmbedScript.Proofs.Dict.Separation

/-!
Static members. The mark stands on the function, which all its names share; no value tells a name
that was given to what `staticmethod` returned from any other name of the function.
-/

namespace EmbedScript

open Exec Engine

def World.marked (w : World) (f : Ref .function) : World :=
  { w with heap := { w.heap with functions := w.heap.functions.modify f.id fun info => { info with isStatic := true } } }

variable {w : World} {f : Ref .function}

theorem World.function_marked (there : f.id < w.heap.functions.size) (g : Ref .function) : (w.marked f).heap.function g =
    if f = g then { w.heap.function g with isStatic := true } else w.heap.function g := by
  rw [Heap.function,marked,Array.getElem?_modify]
  by_cases same : f = g
  · subst same
    rw [if_pos rfl,if_pos rfl,Heap.function,Array.getElem?_eq_getElem there]
    rfl
  · rw [if_neg fun equal => same (congrArg Ref.mk equal),if_neg same]
    rfl

-- How the members of a class and of its bases are found: through an instance and through `super`.
structure Exec.Finds (member : Value) (w : World) (as : Value → Exec Value) : Prop where
  object : ∀ (k : Engine) r cls name, (w.heap.object r).fields.get? name = none →
    (w.heap.cls cls).members.get? name = some member → k.objectAttr r cls name w = as (.object r cls) w
  super : ∀ receiver cls name, ((w.heap.cls cls).bases.findSome? fun base => (w.heap.cls base).members.get? name) = some member →
    superAttr cls receiver name w = as receiver w

theorem finds_function (f : Ref .function) (w : World) : Finds (.function f) w fun receiver =>
    if (w.heap.function f).isStatic then pure (.function f) else bindMethod receiver f := by
  have bound (receiver : Value) : bindMember receiver (.function f) w =
      (if (w.heap.function f).isStatic then pure (.function f) else bindMethod receiver f) w := by
    rw [bindMember,bind_done (heap_apply ..)]
  constructor
  · intro k r cls name bare found
    rw [← bound,objectAttr,bind_done (heap_apply ..),bare]
    exact (bind_done (heap_apply ..) _).trans (by rw [found])
  · intro receiver cls name found
    rw [← bound,superAttr,bind_done (heap_apply ..),found]

/-- Marking a function static returns the function itself and changes nothing but its mark. A function that
was not marked was bound to the receiver before, whatever member it was found as; from then on it is found as it is. -/
structure StaticMark (w : World) (f : Ref .function) : Prop where
  returned : makeStatic (.function f) w = .done (.function f) (w.marked f)
  functions : ∀ g, (w.marked f).heap.function g =
    if f = g then { w.heap.function g with isStatic := true } else w.heap.function g
  before : (w.heap.function f).isStatic = false → Finds (.function f) w fun receiver => bindMethod receiver f
  after : ∀ later : World, (later.heap.function f).isStatic → Finds (.function f) later fun _ => pure (.function f)
  others : ∀ g ≠ f, (w.heap.function g).isStatic = false → Finds (.function g) (w.marked f) fun receiver => bindMethod receiver g

theorem static_mark {w : World} {f : Ref .function} (there : f.id < w.heap.functions.size) : StaticMark w f where
  returned := rfl
  functions := World.function_marked there
  before unmarked := by simpa [unmarked] using finds_function f w
  after later marked := by simpa [marked] using finds_function f later
  others g other unmarked := by
    have kept := World.function_marked there g
    rw [if_neg (Ne.symm other)] at kept
    simpa [kept, unmarked] using finds_function g (w.marked f)

-- A class with one function under two names, and an instance.
def sharedMember : World := { World.blank with heap := {
  functions := #[⟨"f", "f", "main", .builtin .len, false⟩]
  classes := #[⟨"A", "main", [], (({} : OrderedMap String Value).insert "m" (.function ⟨0⟩)).insert "s" (.function ⟨0⟩)⟩]
  objects := #[{}] } }

theorem member_m : (sharedMember.heap.cls ⟨0⟩).members.get? "m" = some (.function ⟨0⟩) := by
  change ((({} : OrderedMap String Value).insert "m" (.function ⟨0⟩)).insert "s" (.function ⟨0⟩)).get? "m" = _
  simp [OrderedMap.get?_insert]

theorem static_mark_shared : ∃ left, makeStatic (.function ⟨0⟩) sharedMember = .done (.function ⟨0⟩) left ∧
    (engine 0).objectAttr ⟨0⟩ ⟨0⟩ "m" left = .done (.function ⟨0⟩) left := by
  have laws := static_mark (w := sharedMember) (f := ⟨0⟩) (by decide)
  exact ⟨_, laws.returned, (laws.after _ rfl).object _ _ _ _ rfl member_m⟩

theorem shared_member_changes : ¬ ∀ w left k r cls name value, makeStatic (.function ⟨0⟩) w = .done value left →
    (∃ f after, Engine.objectAttr k r cls name w = .done (.method 0 (.object r cls) f) after) →
    ∃ f after, Engine.objectAttr k r cls name left = .done (.method 0 (.object r cls) f) after := by
  intro kept
  obtain ⟨f, after, found⟩ := kept sharedMember (sharedMember.marked ⟨0⟩) (engine 0) ⟨0⟩ ⟨0⟩ "m" (.function ⟨0⟩) rfl
    ⟨_, _, (finds_function ⟨0⟩ sharedMember).object _ _ _ _ rfl member_m⟩
  rw [(finds_function ⟨0⟩ (sharedMember.marked ⟨0⟩)).object _ _ _ _ rfl member_m] at found
  cases found

end EmbedScript
