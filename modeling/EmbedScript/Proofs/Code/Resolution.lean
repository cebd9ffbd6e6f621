import EmbedScript.Code.Scope
import EmbedScript.Eval.Frame

/-!
Lexical resolution. `Denotes` says which variable a name stands for by walking outward through the
scopes; what resolving gives leads there from capture to capture.
-/

namespace EmbedScript.Scope

open List

structure Variable where
  up : Nat
  slot : Nat
  deriving DecidableEq

def Variable.outward (v : Variable) : Variable := { v with up := v.up + 1 }

-- The search goes on past a scope, or ends in it, only if the scope sends nobody to the module.
def Passable (s : Scope) (name : String) : Prop := s.kind ≠ .module ∧ name ∉ s.globals

-- A class keeps its locals from the scopes inside it, all but the class itself.
def Offers (s : Scope) (innermost : Bool) (name : String) : Prop := innermost = true ∨ s.kind ≠ .cls ∨ name = classCell

instance (s : Scope) (name : String) : Decidable (s.Passable name) := inferInstanceAs (Decidable (_ ∧ _))

instance (s : Scope) (innermost : Bool) (name : String) : Decidable (s.Offers innermost name) :=
  inferInstanceAs (Decidable (_ ∨ _ ∨ _))

inductive Denotes (name : String) : Bool → List Scope → Variable → Prop where
  | here {innermost : Bool} {s : Scope} {outer : List Scope} {slot : Nat}
      (passable : s.Passable name) (offered : s.Offers innermost name)
      (declared : s.slot? name = some slot) : Denotes name innermost (s :: outer) ⟨0,slot⟩
  | outward {innermost : Bool} {s : Scope} {outer : List Scope} {v : Variable}
      (passable : s.Passable name) (absent : s.Offers innermost name → name ∉ s.locals)
      (outside : Denotes name false outer v) : Denotes name innermost (s :: outer) v.outward

def leads : CellAt → List Scope → Option Variable
  | _, [] => none
  | .slot slot, _ :: _ => some ⟨0,slot⟩
  | .capture index, s :: outer =>
    match s.captures[index]? with
    | some entry => (leads entry.2 outer).map Variable.outward
    | none => none

variable {index : Nat} {s : Scope} {v : Variable} {place : CellAt} {scopes : List Scope}
  {name : String}

theorem leads_capture (present : s.captures[index]? = some entry) (outer : List Scope) :
    leads (.capture index) (s :: outer) = (leads entry.2 outer).map Variable.outward := by
  simp [leads,present]

theorem leads_here (ends : leads place scopes = some v) (here : v.up = 0) : place = .slot v.slot := by
  cases scopes with
  | nil => cases place <;> cases ends
  | cons s outer =>
    cases place with
    | slot slot =>
      cases ends
      rfl
    | capture index =>
      cases present : s.captures[index]? with
      | none => simp [leads,present] at ends
      | some entry =>
        rw [leads_capture present] at ends
        obtain ⟨u,_,rfl⟩ := Option.map_eq_some_iff.mp ends
        exact absurd here (Nat.succ_ne_zero u.up)

-- The parts of a scope's answer

theorem endsSearch_eq_false : s.endsSearch name = false ↔ s.Passable name := by simp [endsSearch,Passable]

theorem endsSearch_eq_true : s.endsSearch name = true ↔ ¬ s.Passable name := by rw [← endsSearch_eq_false,Bool.not_eq_false]

theorem visible?_eq (offered : s.Offers innermost name) : s.visible? innermost name = s.slot? name := by
  rcases offered with rfl | other | rfl <;> simp_all [visible?]

theorem visible?_eq_none : s.visible? innermost name = none ↔ (s.Offers innermost name → name ∉ s.locals) := by
  by_cases offered : s.Offers innermost name
  · simp [visible?_eq offered,offered,slot?]
  · have kept : s.visible? innermost name = none := by simp_all [visible?,Offers]
    simp [kept,offered]

theorem visible?_eq_some :
    s.visible? innermost name = some slot ↔ s.Offers innermost name ∧ s.slot? name = some slot := by
  by_cases offered : s.Offers innermost name
  · simp [visible?_eq offered,offered]
  · simp [visible?_eq_none.mpr fun yes => absurd yes offered,offered]

theorem capture?_eq_some (held : s.capture? name = some index) : ∃ place, s.captures[index]? = some (name,place) := by
  obtain ⟨bound,same,_⟩ := idxOf?_eq_some_iff.mp held
  rw [length_map] at bound
  refine ⟨s.captures[index].2,?_⟩
  rw [getElem?_eq_getElem bound,← same,getElem_map]

theorem mem_of_slot? (declared : s.slot? name = some slot) : name ∈ s.locals := by
  by_cases present : name ∈ s.locals
  · exact present
  · rw [slot?,idxOf?_eq_none_iff.mpr present] at declared
    contradiction

theorem Denotes.unique
    (one : Denotes name innermost scopes v) (other : Denotes name innermost scopes u) : v = u := by
  induction one generalizing u with
  | here _ offered declared =>
    cases other with
    | here _ _ again => rw [Option.some.inj (declared.symm.trans again)]
    | outward _ absent _ => exact absurd (mem_of_slot? declared) (absent offered)
  | outward _ absent _ ih =>
    cases other with
    | here _ offered declared => exact absurd (mem_of_slot? declared) (absent offered)
    | outward _ _ outside => rw [ih outside]

/-! ### Growth

Resolving changes nothing in a scope but the end of its captures. -/

structure Grows (s t : Scope) : Prop where
  kind : t.kind = s.kind
  locals : t.locals = s.locals
  globals : t.globals = s.globals
  captures : s.captures <+: t.captures

theorem Grows.refl (s : Scope) : Grows s s := ⟨rfl,rfl,rfl,prefix_rfl⟩

theorem Grows.capturing (s : Scope) (name : String) (place : CellAt) :
    Grows s { s with captures := s.captures ++ [(name,place)] } :=
  ⟨rfl,rfl,rfl,prefix_append ..⟩

theorem Grows.trans (first : Grows s t) (second : Grows t u) : Grows s u :=
  ⟨second.kind.trans first.kind,second.locals.trans first.locals,
    second.globals.trans first.globals,first.captures.trans second.captures⟩

section

variable (grows : Grows s t)

include grows

theorem Grows.entry {entry} (present : s.captures[index]? = some entry) : t.captures[index]? = some entry := by
  obtain ⟨more,extended⟩ := grows.captures
  have bound := (List.getElem?_eq_some_iff.mp present).1
  rw [← extended,getElem?_append_left bound,present]

theorem Grows.passable : t.Passable name ↔ s.Passable name := by rw [Passable,Passable,grows.kind,grows.globals]

theorem Grows.offers : t.Offers innermost name ↔ s.Offers innermost name := by rw [Offers,Offers,grows.kind]

theorem Grows.slot? (name : String) : t.slot? name = s.slot? name := by rw [Scope.slot?,Scope.slot?,grows.locals]

theorem Grows.endsSearch (name : String) : t.endsSearch name = s.endsSearch name := by
  rw [Scope.endsSearch,Scope.endsSearch,grows.kind,grows.globals]

theorem Grows.visible? (innermost : Bool) (name : String) : t.visible? innermost name = s.visible? innermost name := by
  rw [Scope.visible?,Scope.visible?,grows.kind,grows.slot?]

theorem Grows.capture? (held : s.capture? name = some index) : t.capture? name = some index := by
  obtain ⟨more,extended⟩ := grows.captures
  have first : ((s.captures.map (·.1)).findIdx? (· == name)) = some index := held
  change ((t.captures.map (·.1)).findIdx? (· == name)) = some index
  rw [← extended,map_append,findIdx?_append,first,Option.some_or]

end

inductive Grown : List Scope → List Scope → Prop where
  | nil : Grown [] []
  | cons {s t : Scope} {outer rest : List Scope} (grows : Grows s t) (grown : Grown outer rest) :
      Grown (s :: outer) (t :: rest)

theorem Grown.refl : (scopes : List Scope) → Grown scopes scopes
  | [] => .nil
  | s :: outer => .cons (.refl s) (.refl outer)

theorem Grown.trans {next} (first : Grown scopes next) (second : Grown next last) : Grown scopes last := by
  induction first generalizing last with
  | nil => exact second
  | cons grows _ ih =>
    cases second with
    | cons more grown => exact .cons (grows.trans more) (ih grown)

theorem Grown.denotes (grown : Grown scopes later) (found : Denotes name innermost scopes v) :
    Denotes name innermost later v := by
  induction found generalizing later with
  | here passable offered declared =>
    obtain _ | ⟨grows,_⟩ := grown
    exact .here (grows.passable.mpr passable) (grows.offers.mpr offered) (by rw [grows.slot?,declared])
  | outward passable absent _ ih =>
    obtain _ | ⟨grows,outer⟩ := grown
    refine .outward (grows.passable.mpr passable) (fun offered => ?_) (ih outer)
    rw [grows.locals]
    exact absent (grows.offers.mp offered)

theorem Grown.leads (grown : Grown scopes later)
    (ends : Scope.leads place scopes = some v) : Scope.leads place later = some v := by
  induction grown generalizing place v with
  | nil => exact ends
  | @cons s t outer rest grows _ ih =>
    cases place with
    | slot slot => exact ends
    | capture index =>
      cases present : s.captures[index]? with
      | none => simp [Scope.leads,present] at ends
      | some entry =>
        rw [leads_capture present] at ends
        obtain ⟨u,there,rfl⟩ := Option.map_eq_some_iff.mp ends
        rw [leads_capture (grows.entry present),ih there]
        rfl

theorem find_grown (name : String) (innermost : Bool) (scopes : List Scope) : Grown scopes (find name innermost scopes).2 := by
  fun_induction find name innermost scopes with
  | case1 => exact .nil
  | case2 => exact .refl _
  | case3 => exact .refl _
  | case4 => exact .refl _
  | case5 innermost s outer _ _ _ after missed ih =>
    rw [missed] at ih
    exact .cons (.refl s) ih
  | case6 innermost s outer _ _ _ place after found ih =>
    rw [found] at ih
    exact .cons (.capturing s name place) ih

-- Captures lead where the walk goes

-- Every name that a scope captures is one that the scopes around it denote, and the source of the
-- capture leads to the variable denoted.
def Threaded : List Scope → Prop
  | [] => True
  | s :: outer => (∀ entry ∈ s.captures, ∃ v, Denotes entry.1 false outer v ∧ leads entry.2 outer = some v) ∧ Threaded outer

theorem Threaded.capture? (threaded : Threaded (s :: outer)) (held : s.capture? name = some index) :
    ∃ v, Denotes name false outer v ∧ leads (.capture index) (s :: outer) = some v.outward := by
  obtain ⟨place,present⟩ := capture?_eq_some held
  obtain ⟨v,denoted,ends⟩ := threaded.1 _ (mem_of_getElem? present)
  refine ⟨v,denoted,?_⟩
  rw [leads_capture present,ends]
  rfl

theorem Threaded.grown (threaded : Threaded (s :: outer))
    (grown : Grown outer rest) (around : Threaded rest) : Threaded (s :: rest) := by
  refine ⟨fun entry mem => ?_,around⟩
  obtain ⟨v,denoted,ends⟩ := threaded.1 entry mem
  exact ⟨v,grown.denotes denoted,grown.leads ends⟩

theorem find_threads (name : String) (innermost : Bool) (scopes : List Scope) (threaded : Threaded scopes) :
    Threaded (find name innermost scopes).2 ∧
    ((find name innermost scopes).1 = none → ∀ v, ¬ Denotes name innermost scopes v) ∧
    ∀ place, (find name innermost scopes).1 = some place → ∃ v,
      Denotes name innermost scopes v ∧ leads place (find name innermost scopes).2 = some v := by
  fun_induction find name innermost scopes with
  | case1 => exact ⟨threaded,fun _ v denoted => (by cases denoted),fun _ found => by cases found⟩
  | case2 innermost s outer ends =>
    refine ⟨threaded,fun _ v denoted => ?_,fun _ found => by cases found⟩
    cases denoted with
    | here passable => exact endsSearch_eq_true.mp ends passable
    | outward passable => exact endsSearch_eq_true.mp ends passable
  | case3 innermost s outer goesOn slot seen =>
    refine ⟨threaded,fun missed => (by cases missed),fun place found => ?_⟩
    cases found
    obtain ⟨offered,declared⟩ := visible?_eq_some.mp seen
    exact ⟨⟨0,slot⟩,.here (endsSearch_eq_false.mp (by simpa using goesOn)) offered declared,rfl⟩
  | case4 innermost s outer goesOn unseen index held =>
    refine ⟨threaded,fun missed => (by cases missed),fun place found => ?_⟩
    cases found
    obtain ⟨v,denoted,ends⟩ := threaded.capture? held
    exact ⟨v.outward,.outward (endsSearch_eq_false.mp (by simpa using goesOn)) (visible?_eq_none.mp unseen) denoted,ends⟩
  | case5 innermost s outer goesOn unseen _ after missed ih =>
    obtain ⟨around,nowhere,_⟩ := ih threaded.2
    have grown := find_grown name false outer
    rw [missed] at around grown nowhere
    refine ⟨threaded.grown grown around,fun _ v denoted => ?_,fun _ found => by cases found⟩
    cases denoted with
    | here _ offered declared => exact visible?_eq_none.mp unseen offered (mem_of_slot? declared)
    | outward _ _ outside => exact nowhere rfl _ outside
  | case6 innermost s outer goesOn unseen _ place after found ih =>
    obtain ⟨around,_,somewhere⟩ := ih threaded.2
    have grown := find_grown name false outer
    rw [found] at around grown somewhere
    obtain ⟨v,denoted,ends⟩ := somewhere place rfl
    have old := threaded.grown grown around
    refine ⟨⟨fun entry mem => ?_,around⟩,fun missed => (by cases missed),fun place' same => ?_⟩
    · rcases mem_append.mp mem with before | last
      · exact old.1 entry before
      · rw [mem_singleton.mp last]
        exact ⟨v,grown.denotes denoted,ends⟩
    · cases same
      refine ⟨v.outward,.outward (endsSearch_eq_false.mp (by simpa using goesOn)) (visible?_eq_none.mp unseen) denoted,?_⟩
      have last : (s.captures ++ [(name,place)])[s.captures.length]? = some (name,place) := by simp
      rw [leads_capture last,ends]
      rfl

theorem capture?_append (fresh : s.capture? name = none) (place : CellAt) :
    { s with captures := s.captures ++ [(name,place)] }.capture? name =
      some s.captures.length := by
  have missing : ((s.captures.map (·.1)).findIdx? (· == name)) = none := fresh
  change (((s.captures ++ [(name,place)]).map (·.1)).findIdx? (· == name)) = _
  rw [map_append,findIdx?_append,missing]
  simp

theorem find_again (found : (find name innermost scopes).1 = some place) (grown : Grown (find name innermost scopes).2 later) :
    find name innermost later = (some place,later) := by
  revert found grown
  fun_cases find name innermost scopes with
  | case1 => exact fun found => by cases found
  | case2 => exact fun found => by cases found
  | case3 innermost s outer goesOn slot seen =>
    rintro ⟨⟩ (_ | ⟨grows,_⟩)
    simp [find,grows.endsSearch,grows.visible?,goesOn,seen]
  | case4 innermost s outer goesOn unseen index held =>
    rintro ⟨⟩ (_ | ⟨grows,_⟩)
    simp [find,grows.endsSearch,grows.visible?,goesOn,unseen,grows.capture? held]
  | case5 => exact fun found => by cases found
  | case6 innermost s outer goesOn unseen fresh source after reached =>
    rintro ⟨⟩ (_ | ⟨grows,_⟩)
    have whole := (Grows.capturing s name source).trans grows
    simp [find,whole.endsSearch,whole.visible?,goesOn,unseen,grows.capture? (capture?_append fresh source)]

-- Stacks of scopes while a program is compiled

-- Scopes are entered with nothing captured yet and are left again. Inside the innermost, kinds of
-- slots and loops are noted and names are resolved.
inductive Built : List Scope → Prop where
  | empty : Built []
  | enter {s : Scope} {scopes : List Scope} (around : Built scopes) (fresh : s.captures = []) :
      Built (s :: scopes)
  | leave {s : Scope} {scopes : List Scope} (inside : Built (s :: scopes)) : Built scopes
  | note {s : Scope} {scopes : List Scope} (inside : Built (s :: scopes))
      (kinds : List (Nat × Kind)) (loops : Nat) : Built ({ s with kinds, loops } :: scopes)
  | resolve {scopes : List Scope} (built : Built scopes) (name : String) :
      Built (find name true scopes).2

theorem Built.threaded (built : Built scopes) : Threaded scopes := by
  induction built with
  | empty => trivial
  | enter _ fresh ih => exact ⟨by simp [fresh],ih⟩
  | leave _ ih => exact ih.2
  | note _ _ _ ih => exact ih
  | resolve _ name ih => exact (find_threads name true _ ih).1

def resolveAll (scopes : List Scope) (names : List String) : List Scope :=
  names.foldl (fun scopes name => (find name true scopes).2) scopes

theorem resolveAll_grown (scopes : List Scope) (names : List String) : Grown scopes (resolveAll scopes names) := by
  induction names generalizing scopes with
  | nil => exact .refl scopes
  | cons name names ih => exact (find_grown name true scopes).trans (ih _)

-- Frames of scopes one inside the other: each is opened with the cells that its scope takes from
-- the frame around it.
inductive Nested : List Scope → List Frame → Prop where
  | outermost (s : Scope) (f : Frame) : Nested [s] [f]
  | inside {s : Scope} {outer : List Scope} {inner f : Frame} {frames : List Frame}
      {home : Ref .module} {left : World} (slots : Nat) (w : World)
      (around : Nested outer (f :: frames))
      (opened : newFrame slots (f.captured (s.captures.map (·.2))) home w = .done inner left) :
      Nested (s :: outer) (inner :: f :: frames)

theorem newFrame_captures {captures}
    (opened : newFrame slots captures home w = .done f left) :
    f.captures = captures := by
  cases opened
  rfl

theorem Nested.cell {frames} (nested : Nested scopes (frame :: frames))
    (ends : leads place scopes = some v) :
    ∃ declaring, (frame :: frames)[v.up]? = some declaring ∧ frame.cell place = declaring.cell (.slot v.slot) := by
  induction scopes generalizing frame frames place v with
  | nil => cases nested
  | cons s outer ih =>
    cases place with
    | slot slot =>
      cases ends
      exact ⟨frame,rfl,rfl⟩
    | capture index =>
      cases present : s.captures[index]? with
      | none => simp [leads,present] at ends
      | some entry =>
        rw [leads_capture present] at ends
        obtain ⟨u,there,rfl⟩ := Option.map_eq_some_iff.mp ends
        cases nested with
        | outermost => cases there
        | inside _ _ around opened =>
          obtain ⟨declaring,position,same⟩ := ih around there
          exact ⟨declaring,position,
            by simpa [Frame.cell,newFrame_captures opened,Frame.captured,present,Variable.outward] using same⟩

-- What a place stands for as long as its scope is compiled and whenever its code runs.
structure Reaches (name : String) (scopes : List Scope) (place : CellAt) (v : Variable) : Prop where
  again : find name true scopes = (some place,scopes)
  follows : ∀ {later}, Grown scopes later → leads place later = some v
  shares : ∀ {later frame frames}, Grown scopes later → Nested later (frame :: frames) →
    ∃ declaring, (frame :: frames)[v.up]? = some declaring ∧
      frame.cell place = declaring.cell (.slot v.slot)

/-- A name belongs to the module just if no scope on the walk outward has it. Otherwise it is the
variable on that walk: a slot of the innermost scope, or a capture that reaches it. -/
theorem find_reaches {scopes : List Scope} (built : Built scopes) (name : String) :
    ((find name true scopes).1 = none ↔ ∀ v, ¬ Denotes name true scopes v) ∧
    ∀ v, Denotes name true scopes v → ∃ place, (find name true scopes).1 = some place ∧
      (v.up = 0 → place = .slot v.slot) ∧
      ∀ names, Reaches name (resolveAll (find name true scopes).2 names) place v := by
  obtain ⟨_, nowhere, somewhere⟩ := find_threads name true scopes built.threaded
  refine ⟨⟨nowhere, fun none => ?_⟩, fun v denoted => ?_⟩
  · cases found : (find name true scopes).1 with
    | none => rfl
    | some place =>
      obtain ⟨v, denoted, _⟩ := somewhere place found
      exact absurd denoted (none v)
  · cases found : (find name true scopes).1 with
    | none => exact absurd denoted (nowhere found v)
    | some place =>
      obtain ⟨u, same, ends⟩ := somewhere place found
      obtain rfl := same.unique denoted
      refine ⟨place, rfl, fun here => ?_, fun names => ?_⟩
      · exact leads_here ends here
      · have grown := resolveAll_grown (find name true scopes).2 names
        exact ⟨find_again found grown, fun more => (grown.trans more).leads ends,
          fun more nested => nested.cell ((grown.trans more).leads ends)⟩

-- A method of a class inside a routine. Routine and class both have an `x`.
def methodScopes : List Scope := [{ kind := .function, qualname := "f.<locals>.C.m", locals := ["self"] },
    { kind := .cls, qualname := "f.<locals>.C", locals := [classCell,"x"] },
    { kind := .function, qualname := "f", locals := ["x"] },
    { kind := .module, qualname := "<module>" }]

theorem methodScopes_built : Built methodScopes := .enter (.enter (.enter (.enter .empty rfl) rfl) rfl) rfl

theorem methodScopes_denotes : Denotes "x" true methodScopes ⟨2,0⟩ := .outward (by decide) (by decide)
    (.outward (by decide) (by decide) (.here (by decide) (by decide) (by decide)))

def methodResolved : List Scope := resolveAll (find "x" true methodScopes).2 [classCell,"print"]

def roomFor (cells : Nat) : World := { types := ⟨[]⟩, maxDepth := 1, heap := { cells := Array.replicate cells none } }

def methodFrames : List Frame :=
  [{ base := 5, captures := #[⟨2⟩,⟨3⟩], home := ⟨0⟩ },{ base := 3, captures := #[⟨2⟩], home := ⟨0⟩ },
    { base := 2, captures := #[], home := ⟨0⟩ },{ base := 0, captures := #[], home := ⟨0⟩ }]

theorem methodFrames_nested : Nested methodResolved methodFrames :=
  .inside 1 (roomFor 5) (.inside 2 (roomFor 3) (.inside 1 (roomFor 2) (.outermost _ _) rfl) rfl) rfl

theorem find_reaches_past_class : Built methodScopes ∧ Denotes "x" true methodScopes ⟨2, 0⟩ ∧
    Nested methodResolved methodFrames ∧
    ∃ place, (find "x" true methodScopes).1 = some place ∧ place = .capture 0 ∧
      ∃ declaring, methodFrames[2]? = some declaring ∧
        methodFrames.head?.map (·.cell place) = some (declaring.cell (.slot 0)) := by
  obtain ⟨place, found, _, reaches⟩ :=
    (find_reaches methodScopes_built "x").2 ⟨2, 0⟩ methodScopes_denotes
  obtain ⟨declaring, position, same⟩ :=
    (reaches [classCell, "print"]).shares (.refl _) methodFrames_nested
  refine ⟨methodScopes_built, methodScopes_denotes, methodFrames_nested, place, found, ?_, declaring,
    position, congrArg some same⟩
  exact Option.some.inj (found.symm.trans rfl)

end EmbedScript.Scope
