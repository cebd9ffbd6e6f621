import EmbedScript.Proofs.Code.Resolution

namespace EmbedScript.Scope

variable {name : String} {s : Scope} {v : Variable} {inner outer : List Scope}

theorem denotes_cons : Denotes name innermost (s :: outer) v ↔ s.Passable name ∧
    (s.Offers innermost name ∧ v.up = 0 ∧ s.slot? name = some v.slot ∨ (s.Offers innermost name → name ∉ s.locals) ∧
        ∃ u, Denotes name false outer u ∧ v = u.outward) := by
  constructor
  · intro denoted
    cases denoted with
    | here passable offered declared => exact ⟨passable,.inl ⟨offered,rfl,declared⟩⟩
    | outward passable absent outside => exact ⟨passable,.inr ⟨absent,_,outside,rfl⟩⟩
  · rintro ⟨passable,⟨offered,here,declared⟩ | ⟨absent,u,outside,rfl⟩⟩
    · obtain ⟨up,slot⟩ := v
      cases here
      exact .here passable offered declared
    · exact .outward passable absent outside

theorem Grown.denotes_iff (grown : Grown scopes later) : Denotes name innermost later v ↔ Denotes name innermost scopes v := by
  induction grown generalizing innermost v with
  | nil => rfl
  | cons grows _ ih => simp only [denotes_cons,grows.passable,grows.offers,grows.slot?,grows.locals,ih]

-- The variable that resolving a name from the innermost scope leads to.
def Resolves (name : String) (scopes : List Scope) (v : Variable) : Prop :=
  ∃ place, (find name true scopes).1 = some place ∧ leads place (find name true scopes).2 = some v

theorem Built.resolves_iff (built : Built scopes) : Resolves name scopes v ↔ Denotes name true scopes v := by
  obtain ⟨_,nowhere,somewhere⟩ := find_threads name true scopes built.threaded
  constructor
  · rintro ⟨place,found,ends⟩
    obtain ⟨u,denoted,same⟩ := somewhere place found
    obtain rfl := Option.some.inj (ends.symm.trans same)
    exact denoted
  · intro denoted
    cases found : (find name true scopes).1 with
    | none => exact absurd denoted (nowhere found v)
    | some place =>
      obtain ⟨u,again,ends⟩ := somewhere place found
      obtain rfl := again.unique denoted
      exact ⟨place,found,ends⟩

-- Past a class

section

variable (cls : s.kind = .cls) (other : name ≠ classCell)

include cls other

theorem denotes_past_class : Denotes name false (s :: outer) v ↔
    name ∉ s.globals ∧ ∃ u, Denotes name false outer u ∧ v = u.outward := by
  have hidden : ¬ s.Offers false name := by simp [Offers,cls,other]
  have passes : s.Passable name ↔ name ∉ s.globals := by simp [Passable,cls]
  rw [denotes_cons,passes]
  simp only [hidden,false_and,false_or,false_implies,true_and]

theorem within_of_global (sent : name ∈ s.globals) (nested : inner = [] → innermost = false)
    (denoted : Denotes name innermost (inner ++ s :: outer) v) : v.up < inner.length := by
  induction inner generalizing innermost v with
  | nil =>
    cases nested rfl
    exact absurd sent ((denotes_past_class cls other).mp denoted).1
  | cons r inner ih =>
    obtain ⟨_,⟨_,here,_⟩ | ⟨_,u,outside,rfl⟩⟩ := denotes_cons.mp denoted
    · rw [here]
      exact Nat.zero_lt_succ _
    · exact Nat.succ_lt_succ (ih (fun _ => rfl) outside)

-- The walk meets the same scopes before and behind the class, and sees nothing of the class itself.
theorem Denotes.exchange (cls' : t.kind = .cls) (nested : inner = [] → innermost = false)
    (denoted : Denotes name innermost (inner ++ s :: outer) v)
    (free : v.up < inner.length ∨ name ∉ t.globals) :
    Denotes name innermost (inner ++ t :: outer) v := by
  induction inner generalizing innermost v with
  | nil =>
    cases nested rfl
    obtain ⟨_,outside⟩ := (denotes_past_class cls other).mp denoted
    exact (denotes_past_class cls' other).mpr ⟨free.resolve_left (Nat.not_lt_zero _),outside⟩
  | cons r inner ih =>
    obtain ⟨passable,here | ⟨absent,u,outside,rfl⟩⟩ := denotes_cons.mp denoted
    · exact denotes_cons.mpr ⟨passable,.inl here⟩
    · have inside := ih (fun _ => rfl) outside (free.imp_left Nat.lt_of_succ_lt_succ)
      exact denotes_cons.mpr ⟨passable,.inr ⟨absent,u,inside,rfl⟩⟩

end

theorem declareAll_eq (s : Scope) (names : List String) : ∃ locals, s.declareAll names = { s with locals } := by
  induction names generalizing s with
  | nil => exact ⟨s.locals,rfl⟩
  | cons name names ih =>
    obtain ⟨locals,same⟩ := ih (s.declare name)
    refine ⟨locals,same.trans ?_⟩
    unfold declare
    split <;> rfl

-- The scope that a class definition enters for its body.
def ofClass (qualname : String) (body : List Stmt) : Scope :=
  (Scope.declare { kind := .cls, qualname } classCell).declareBound (boundOf body)

theorem ofClass_eq (qualname : String) (body : List Stmt) : ∃ locals, ofClass qualname body =
    { kind := .cls, qualname, locals, globals := (boundOf body).globals
      nonlocals := (boundOf body).nonlocals } :=
  declareAll_eq _ _

-- Inside a class a name other than the class itself stands for what it would stand for if the body
-- of the class were empty, unless the body declares it global and no scope inside the class has it.
theorem class_body_apart (qualname : String) (body : List Stmt) {name : String}
    {inner outer left : List Scope} (nested : inner ≠ []) (other : name ≠ classCell)
    (built : Built left) (grown : Grown (inner ++ ofClass qualname body :: outer) left)
    (v : Variable) :
    Resolves name left v ↔ Denotes name true (inner ++ ofClass qualname [] :: outer) v ∧
      (v.up < inner.length ∨ name ∉ (boundOf body).globals) := by
  rw [built.resolves_iff,grown.denotes_iff]
  obtain ⟨locals,same⟩ := ofClass_eq qualname body
  obtain ⟨none,empty⟩ := ofClass_eq qualname []
  rw [same,empty]
  have start : inner = [] → true = false := fun nothing => absurd nothing nested
  constructor
  · intro denoted
    refine ⟨denoted.exchange rfl other rfl start (.inr (by simp [boundOf])),?_⟩
    by_cases sent : name ∈ (boundOf body).globals
    · exact .inl (within_of_global rfl other sent start denoted)
    · exact .inr sent
  · exact fun ⟨denoted,free⟩ => denoted.exchange rfl other rfl start free

-- A method of a class inside a routine that has an `x`, with any class body.
def methodUnder (body : List Stmt) : List Scope := [{ kind := .function, qualname := "f.<locals>.C.m", locals := ["self"] }] ++
    ofClass "f.<locals>.C" body :: [{ kind := .function, qualname := "f", locals := ["x"] },
      { kind := .module, qualname := "<module>" }]

theorem methodUnder_built (body : List Stmt) : Built (methodUnder body) := by
  obtain ⟨locals,same⟩ := ofClass_eq "f.<locals>.C" body
  rw [methodUnder,same]
  exact .enter (.enter (.enter (.enter .empty rfl) rfl) rfl) rfl

theorem methodUnder_denotes : Denotes "x" true (methodUnder []) ⟨2,0⟩ := .outward (by decide) (by decide)
    (.outward (by decide) (by decide) (.here (by decide) (by decide) (by decide)))

theorem class_body_apart_bodies :
    Resolves "x" (methodUnder [.mk 5 (.assign [.name "x"] (.int 1))]) ⟨2,0⟩ ∧
    ¬ Resolves "x" (methodUnder [.mk 5 (.globals ["x"])]) ⟨2,0⟩ := by
  have apart (body : List Stmt) := class_body_apart "f.<locals>.C" body (by decide)
    (show "x" ≠ classCell by decide) (methodUnder_built body) (.refl _) ⟨2,0⟩
  refine ⟨(apart _).mpr ⟨methodUnder_denotes,.inr (by decide)⟩,fun reached => ?_⟩
  exact absurd ((apart _).mp reached).2 (by decide)

-- A class body that declares a name global sends its methods to the module for it, past a routine
-- around the class that has the name.
theorem class_global_reaches_methods : ¬ ∀ (body : List Stmt) (v : Variable),
    Denotes "x" true (methodUnder []) v → Resolves "x" (methodUnder body) v := by
  intro apart
  obtain ⟨place,found,_⟩ := apart [.mk 5 (.globals ["x"])] ⟨2,0⟩ methodUnder_denotes
  cases found

end EmbedScript.Scope
