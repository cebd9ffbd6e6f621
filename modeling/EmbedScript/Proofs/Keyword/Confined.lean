import EmbedScript.Proofs.Engine.Session
import EmbedScript.Proofs.Keyword.Tidy

/-!
Keyword arguments stay out of data, as long as no call hands them to what takes none.
-/

namespace EmbedScript

open Exec Interpreter List
open Accord (Engines)

variable [Plainness α] {misuse leak : Halt}

def FunctionInfo.takesKeywords (f : FunctionInfo) : Bool :=
  match f.routine with
  | .builtin b => b.takesKeywords
  | .script .. => true

namespace World

def method? (w : World) (key name : String) (statics : Bool) (arguments : List Value) :
    Option HostMethod :=
  Signature.resolve HostMethod.signature ((w.types.get? key).elim [] (·.methodsNamed name statics))
    (arguments.map Value.kind) false

def constructor? (w : World) (key : String) (arguments : List Value) : Option HostMethod :=
  Signature.resolve HostMethod.signature ((w.types.get? key).elim [] HostType.constructors) (arguments.map Value.kind) true

-- What is called takes keyword arguments, or it passes them on, or there is nothing to call.
def takesKeywords (w : World) (callee : Value) (arguments : List Value) : Bool :=
  match callee with
  | .function f => (w.heap.function f).takesKeywords
  | .method _ _ f => (w.heap.function f).takesKeywords
  | .nil _ _ key name statics => (w.method? key name statics arguments).all (·.action.takesKeywords)
  | .type key => (w.extensions.get? key "__new__").isSome || (w.constructor? key arguments).all (·.action.takesKeywords)
  | _ => true

end World

namespace Tidied

variable {y : β → Exec α}

theorem look {f} (rest : Tidied h (x (f w) w) (y (f w) w)) : Tidied h ((look f >>= x) w) ((look f >>= y) w) := rest

theorem heap {f} (rest : Tidied h (x (f w.heap) w) (y (f w.heap) w)) :
    Tidied h ((heap f >>= x) w) ((heap f >>= y) w) :=
  rest

end Tidied

section

variable {k : Engine} [(tidying h).Engines k k'] {v : Value}

theorem trailing_cons (given : plain v) (behind : trailing vs) : trailing (v :: vs) := by
  refine all_eq_true.mpr fun u mem => ?_
  have inside : u ∈ ((v :: vs).reverse.dropWhile Value.isKeyword) := mem_reverse.mp mem
  rw [reverse_cons,dropWhile_append] at inside
  have own : u = v → (!u.isKeyword) := by
    rintro rfl
    rw [isKeyword_of_plain given]
    rfl
  split at inside
  · exact own (mem_singleton.mp (dropWhile_subset _ inside))
  · rcases mem_append.mp inside with rest | last
    · exact all_eq_true.mp behind u (mem_reverse.mpr rest)
    · exact own (mem_singleton.mp last)

theorem proper_cons {takes} (given : plain v) (passed : proper takes vs) : proper takes (v :: vs) := by
  rw [proper,Bool.or_eq_true,Bool.and_eq_true] at passed ⊢
  rcases passed with free | ⟨taken,behind⟩
  · left
    rw [all_cons,isKeyword_of_plain given,free]
    rfl
  · exact .inr ⟨taken,trailing_cons given behind⟩

theorem tidied {x : Exec α} (same : (tidying h).rel true x y) (state : plain w) : Tidied h (x w) (y w) := same.run w state

theorem tidied_callFunction (r : Ref .function) (state : plain w) (given : fit vs)
    (passed : proper (w.heap.function r).takesKeywords vs) :
    Tidied h (k.callFunction r vs w) (k'.callFunction r vs w) := by
  refine .heap ?_
  refine tidied ?_ state
  split
  case h_1 b found =>
    rw [FunctionInfo.takesKeywords,found] at passed
    exact Engines.enter nofun (Accord.rel_applyBuiltin b fun _ => ⟨given,passed⟩)
  case h_2 plan captures home found =>
    refine Engines.enter nofun (.bind (.look fun _ _ => plain_maybe) fun plan _ => ?_)
    cases plan with
    | some plan => exact Accord.rel_runRoutine plan captures home (fun _ => given) fun _ => trailing_of_proper passed
    | none => exact .stop _

theorem tidied_invokeMember (key name : String) (statics : Bool) (state : plain w) (owner : plain receiver) (given : fit vs)
    (passed : proper ((w.method? key name statics vs).all (·.action.takesKeywords)) vs) :
    Tidied h (k.invokeMember receiver key name statics vs w) (k'.invokeMember receiver key name statics vs w) := by
  refine .look ?_
  unfold World.method? at passed
  refine tidied ?_ state
  split
  case h_1 method found =>
    rw [found] at passed
    exact Accord.rel_perform method.action (fun _ => owner) fun _ => ⟨given,passed⟩
  case h_2 => split <;> exact .fail _

theorem tidied_construct (key : String) (state : plain w) (given : fit vs)
    (passed : proper ((w.extensions.get? key "__new__").isSome || (w.constructor? key vs).all (·.action.takesKeywords)) vs) :
    Tidied h (k.construct key vs w) (k'.construct key vs w) := by
  refine .look ?_
  unfold World.constructor? at passed
  generalize w.extensions.get? key "__new__" = extension at passed
  cases extension with
  | some f => exact tidied (Engines.call (fun _ => rfl) fun _ => given) state
  | none =>
    refine .look ?_
    refine tidied ?_ state
    split
    case h_1 chosen found =>
      rw [found] at passed
      exact Accord.rel_perform chosen.action (fun _ => rfl) fun _ => ⟨given,passed⟩
    case h_2 => split <;> exact .fail _

theorem tidied_callValue {callee} (state : plain w) (called : plain callee)
    (given : fit vs) (passed : proper (w.takesKeywords callee vs) vs) :
    Tidied h (k.callValue callee vs w) (k'.callValue callee vs w) := by
  unfold Engine.callValue
  split
  · exact tidied_callFunction _ state given passed
  · exact tidied_callFunction _ state (fit_cons.mpr ⟨isArgument_of_plain called,given⟩) (proper_cons called passed)
  · exact tidied (Accord.rel_instantiate _ fun _ => given) state
  · exact tidied_invokeMember _ _ _ state called given passed
  · exact tidied_construct _ state given passed
  · refine tidied (.bind (Accord.rel_hook _ (fun _ => called) fun _ => given) fun answer _ => ?_) state
    split <;> grind

end

-- Looking at every call

-- Halts if there are keywords in the state before or behind a computation, or in its result.
def Exec.searched (leak : Halt) (x : Exec α) : Exec α := fun w =>
  if plain w then
    match x w with
    | .done a left => if plain a && plain left then .done a left else .halt leak
    | .fault e left => if plain left then .fault e left else .halt leak
    | .halt other => .halt other
  else .halt leak

theorem Tidy.searched {x : Exec α} (inside : Tidy h x y) : Tidy h (searched leak x) y := by
  refine ⟨fun w state => ?_⟩
  have ends := inside.run w state
  unfold Exec.searched
  rw [if_pos state]
  generalize x w = o, y w = o' at ends
  cases ends with
  | done value state =>
    dsimp only
    rw [value,state]
    exact .done value state
  | fault e state =>
    dsimp only
    rw [if_pos state]
    exact .fault e state
  | halt other => exact .halt other
  | astray => exact .astray _

theorem tidy_runCode {k} [(tidying h).Engines k k'] (r : Ref .module) (code : List Instr) :
    (tidying h).rel true (k.runCode r code) (k'.runCode r code) :=
  Tidy.inModule r (.inCode .module (Accord.rel_runInstrs (A := tidying h) r code))

theorem tidy_importPath {k} [(tidying h).Engines k k'] (path : String) :
    (tidying h).rel true (k.importPath path) (k'.importPath path) :=
  Accord.rel_importing path fun r code => Tidy.onFault (tidy_runCode r code) fun _ state => state

-- An engine that looks for keywords whenever it is asked for something, and halts for misuse if a
-- call hands them to what does not take them.
def overseen (misuse leak : Halt) : (fuel : Nat) → Engine
  | 0 =>
    { fuel := 0
      call := fun _ _ => stop .outOfFuel
      enter := fun c code => searched leak (inCall c (searched leak code))
      step := fun _ _ => stop .outOfFuel
      importModule := fun _ => stop .outOfFuel }
  | fuel + 1 =>
    { fuel
      call := fun callee arguments => searched leak fun w =>
        if proper (w.takesKeywords callee arguments) arguments then
          (overseen misuse leak fuel).callValue callee arguments w
        else .halt misuse
      enter := fun c code => searched leak (inCall c (searched leak code))
      step := fun g item => searched leak ((overseen misuse leak fuel).generatorStep g item)
      importModule := fun path => searched leak ((overseen misuse leak fuel).importPath path) }

instance overseen_engine (misuse leak : Halt) (fuel : Nat) :
    (tidying misuse).Engines (overseen misuse leak fuel) (engine fuel) := by
  induction fuel with
  | zero => exact
      { fuel := rfl
        call := fun _ _ => .stop _
        step := fun _ => .stop _
        importModule := fun _ => .stop _
        importBelow := fun _ _ => .stop _
        enter := fun _ inside => .searched (.inCall _ (.searched inside)) }
  | succ fuel ih =>
    rw [overseen,engine]
    refine
      { fuel := rfl
        call := fun called given => .searched ⟨fun w state => ?_⟩
        step := fun given => .searched (Accord.rel_generatorStep (m := true) _ given)
        importModule := fun path => .searched (tidy_importPath path)
        importBelow := fun _ path => .onFault (.searched (tidy_importPath path)) fun _ state => state
        enter := fun _ inside => .searched (.inCall _ (.searched inside)) }
    split
    · exact tidied_callValue state (called trivial) (given trivial) ‹_›
    · exact .astray _

section

variable {k : Engine} [(tidying h).Engines k k']

theorem Tidy.finish {x : Exec α} (inside : Tidy h x y) : Tidy h (finish x) (finish y) := by
  refine ⟨fun w state => ?_⟩
  have ends := inside.run w state
  generalize first : x w = o, second : y w = o' at ends
  cases ends with
  | done value state =>
    rw [finish_done first,finish_done second]
    exact .done value state
  | fault e state =>
    rw [finish_fault first,finish_fault second]
    exact .done rfl state
  | halt other =>
    rw [finish_halt first,finish_halt second]
    exact .halt other
  | astray =>
    rw [finish_halt first]
    exact .astray _

theorem tidy_prepare (source : String) (snippet : Bool) : (tidying h).Quiet true (prepare source snippet) := by
  refine ⟨fun w state => ?_⟩
  obtain ⟨code,left,prepared,-,kept⟩ := prepare_still source snippet w
  rw [prepared]
  refine .done ?_ ?_
  · cases code with
    | error e => rfl
    | ok code => exact plain_bares
  · change plain left.heap
    rw [kept]
    exact state

theorem tidy_prepareAndRun (m : Ref .module) (source : String) (snippet : Bool) :
    (tidying h).rel true (k.prepareAndRun m source snippet) (k'.prepareAndRun m source snippet) := by
  refine .bind (tidy_prepare source snippet) fun code _ => ?_
  cases code with
  | error e => exact .pure fun _ => rfl
  | ok code => exact Tidy.finish (tidy_runCode m code)

theorem tidy_runSource (name source : String) : (tidying h).rel true (k.runSource name source) (k'.runSource name source) := by
  refine .bind (Accord.quiet_newModule name) fun m _ => ?_
  refine .bind (tidy_prepareAndRun m source false) fun result _ => .pure fun _ => ?_
  cases result <;> rfl

theorem tidy_callNamed (m : Ref .module) (name : String) {arguments} (given : plain arguments) :
    (tidying h).rel true (k.callNamed m name arguments) (k'.callNamed m name arguments) := by
  refine .bind (.heap fun _ state => OrderedMap.plain_get? (Heap.plain_module state _)) fun callee known => ?_
  cases callee with
  | none => exact .pure fun _ => rfl
  | some callee =>
    have called : (tidying h).rel true (k.call callee arguments) (k'.call callee arguments) :=
      Engines.call known fun _ => fit_of_plain given
    have calls := Tidy.finish (.inModule m called)
    dsimp only
    split
    · exact calls
    · exact calls
    · exact calls
    · exact .map (Accord.quiet_typeName _) fun _ => rfl

instance : Plainness Request where
  plain
    | .callFunction _ _ arguments => plain arguments
    | _ => true

theorem tidy_serve {r : Request} (given : plain r) : (tidying h).rel true (r.serve k) (r.serve k') := by
  cases r with
  | runSource name source =>
    refine .bind (tidy_runSource name source) fun result _ => .pure fun _ => ?_
    cases result <;> rfl
  | evalSnippet m source => exact tidy_prepareAndRun m source true
  | callFunction m name arguments => exact tidy_callNamed m name given

def Interpreter.startOn (k : Engine) (c : Config) : Exec (Except Failure Unit) := do
  let objectClass ← newObjectClass
  modify fun w => { w with objectClass }
  let m ← newPrelude
  let source ← match c.prelude with
    | some path => readFile path
    | none => pure (.ok preludeText)
  match source with
  | .error e => return .error e
  | .ok source =>
    match ← k.prepareAndRun m source false with
    | .error e => return .error e
    | .ok _ =>
      modify fun w => { w with prelude := some m, source := c.source }
      return .ok ()

theorem Interpreter.start_eq (c : Config) : start c = startOn Interpreter.k c := rfl

theorem tidy_startOn (c : Config) : (tidying h).rel true (startOn k c) (startOn k' c) := by
  have noted {note} (kept : ∀ w, plain w → plain (note w)) : (tidying h).Quiet true (modify note) :=
    Tidy.modify kept
  refine .bind Accord.quiet_newObjectClass fun cls _ => .bind (noted fun _ state => state) fun _ _ => ?_
  refine .bind Accord.quiet_newPrelude fun m _ => ?_
  extract_lets onward onward'
  have after (source : Except Failure String) (_ : (tidying h).Plain source) :
      (tidying h).rel true (onward source) (onward' source) := by
    cases source with
    | error e => exact .pure fun _ => rfl
    | ok source =>
      refine .bind (tidy_prepareAndRun m source false) fun result _ => ?_
      cases result with
      | error e => exact .pure fun _ => rfl
      | ok _ => exact .map (noted fun _ state => state) fun _ => rfl
  split
  · exact .bind (Accord.quiet_readFile _) after
  · exact .bind (.pure fun _ => rfl) after

end

-- The states of an interpreter whose scripts have handed keywords only to what takes them.
inductive Careful (c : Config) : World → Prop where
  | started {result : Except Failure Unit} {w : World} (ran : start c (initial c) = .done result w)
    (attended : ∃ misuse leak, startOn (overseen misuse leak amply) c (initial c) ≠ .halt misuse) :
    Careful c w
  | served {u left : World} {result : Except Failure Value} (r : Request) (given : plain r)
    (careful : Careful c u) (ran : r.serve k u = .done result left)
    (attended : ∃ misuse leak, r.serve (overseen misuse leak amply) u ≠ .halt misuse) :
    Careful c left

theorem Tidied.kept {o : Outcome α} (ends : Tidied h o o') (attended : o ≠ .halt h) :
    o = o' ∧ ∀ a left, o' = .done a left → plain a ∧ plain left := by
  cases ends with
  | done value state =>
    refine ⟨rfl,?_⟩
    rintro a left ⟨⟩
    exact ⟨value,state⟩
  | fault | halt => exact ⟨rfl,fun _ _ ended => by cases ended⟩
  | astray => exact absurd rfl attended

theorem Interpreter.start_tidied (misuse leak : Halt) (c : Config) :
    Tidied misuse (startOn (overseen misuse leak amply) c (initial c)) (start c (initial c)) := by
  have : (tidying misuse).Engines (overseen misuse leak amply) k := overseen_engine misuse leak amply
  exact (tidy_startOn c).run (initial c) rfl

theorem Request.tidied {u} {r : Request} (misuse leak : Halt) (state : plain u) (given : plain r) :
    Tidied misuse (r.serve (overseen misuse leak amply) u) (r.serve k u) :=
  have : (tidying misuse).Engines (overseen misuse leak amply) k := overseen_engine misuse leak amply
  (tidy_serve given).run u state

theorem Careful.plain_state {c u} (careful : Careful c u) : plain u := by
  induction careful with
  | started ran attended =>
    obtain ⟨misuse,leak,attended⟩ := attended
    exact (((start_tidied misuse leak c).kept attended).2 _ _ ran).2
  | served r given _ ran attended state =>
    obtain ⟨misuse,leak,attended⟩ := attended
    exact (((r.tidied misuse leak state given).kept attended).2 _ _ ran).2

def Outcome.result? {β : Type} : Outcome (Except Failure β) → Option (β × World)
  | .done (.ok b) left => some (b,left)
  | _ => none

theorem Outcome.eq_of_result? {β} {o : Outcome (Except Failure β)} {b}
    (given : o.result? = some (b,left)) : o = .done (.ok b) left := by
  unfold result? at given
  split at given
  · cases given
    rfl
  · cases given

theorem shallowWorld_careful : Careful shallowConfig shallowWorld := by
  have runs : (startOn (overseen .crash .outOfFuel amply) shallowConfig (initial shallowConfig)).result?.isSome := by
    decide +kernel
  obtain ⟨⟨_,left⟩,given⟩ := Option.isSome_iff_exists.mp runs
  have ended := Outcome.eq_of_result? given
  have attended : startOn (overseen .crash .outOfFuel amply) shallowConfig (initial shallowConfig) ≠ .halt .crash := by
    rw [ended]
    rintro ⟨⟩
  have same := ((start_tidied .crash .outOfFuel shallowConfig).kept attended).1
  have ran : start shallowConfig (initial shallowConfig) = .done (.ok ()) shallowWorld := by rw [shallowWorld,← same,ended]
  exact .started ran ⟨.crash,.outOfFuel,attended⟩

-- There are no keywords in such a state, nor is one found while a further request is served, unless
-- a call hands it to what does not take it.
theorem Careful.keywords_confined {c : Config} {u : World} (careful : Careful c u) (r : Request)
    (given : plain r) (misuse leak : Halt) :
    plain u ∧
    (r.serve (overseen misuse leak amply) u = .halt misuse ∨
      r.serve (overseen misuse leak amply) u = r.serve Interpreter.k u ∧
      ∀ result left, r.serve Interpreter.k u = .done result left → plain result ∧ plain left) := by
  refine ⟨careful.plain_state, ?_⟩
  by_cases attended : r.serve (overseen misuse leak amply) u = .halt misuse
  · exact .inl attended
  · exact .inr ((Request.tidied misuse leak careful.plain_state given).kept attended)

theorem Careful.keywords_confined_collected : Careful shallowConfig shallowWorld ∧ ∃ v left,
    Request.serve Interpreter.k (.runSource "main"
      "def f(a, **rest):\n    return rest\nd = f(1, b=2)\nprint(d, sep='-')\n") shallowWorld =
      .done (.ok v) left ∧
    left.output = "\x7b'b': 2\x7d\n" ∧ plain left := by
  refine ⟨shallowWorld_careful, ?_⟩
  let r : Request := .runSource "main"
    "def f(a, **rest):\n    return rest\nd = f(1, b=2)\nprint(d, sep='-')\n"
  have runs : (r.serve (overseen .crash .outOfFuel amply) shallowWorld).result?.map
      (·.2.output) = some "\x7b'b': 2\x7d\n" := by
    decide +kernel
  obtain ⟨⟨v, left⟩, given, printed⟩ := Option.map_eq_some_iff.mp runs
  have ended := Outcome.eq_of_result? given
  obtain ⟨_, astray | ⟨same, kept⟩⟩ :=
    Careful.keywords_confined shallowWorld_careful r rfl .crash .outOfFuel
  · rw [ended] at astray
    cases astray
  · rw [same] at ended
    exact ⟨v, left, ended, printed, (kept _ _ ended).2⟩

-- A member that takes no keywords takes one as a value, and gives it back as a value.
theorem Careful.keywords_astray : ∃ v left,
    Request.serve Interpreter.k (.runSource "main" "d = \x7b\x7d\nx = d.get('k', v=5)\n")
      shallowWorld = .done (.ok v) left ∧
    left.heap.modules.any (fun m => (m.globals.get? "x").any Value.isKeyword) ∧
    plain left = false := by
  have runs : (Request.serve Interpreter.k
      (.runSource "main" "d = \x7b\x7d\nx = d.get('k', v=5)\n") shallowWorld).result?.map
      (fun e => (e.2.heap.modules.any (fun m => (m.globals.get? "x").any Value.isKeyword),
        plain e.2)) = some (true, false) := by
    decide +kernel
  obtain ⟨⟨v, left⟩, given, found⟩ := Option.map_eq_some_iff.mp runs
  obtain ⟨held, leaked⟩ := Prod.mk.inj found
  exact ⟨v, left, Outcome.eq_of_result? given, held, leaked⟩

end EmbedScript
