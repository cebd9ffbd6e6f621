import EmbedScript.Proofs.Engine.Bookkeeping

/-!
Sessions: one request to an interpreter after the other. After each the interpreter stands where it
stood before, and no run gets deeper than allowed.
-/

namespace EmbedScript

open Exec Interpreter Accord

variable {w left : World}

structure World.Idle (w : World) : Prop where
  trace : w.trace = #[]
  shallow : w.depth ≤ w.maxDepth

-- How a request may end on two engines. It has no faults of its own.
inductive Restored (w : World) : Outcome α → Outcome α → Prop where
  | done {left : World} (a : α) (kept : left.toBookkeeping = w.toBookkeeping) :
    Restored w (.done a left) (.done a left)
  | halt (h : Halt) : Restored w (.halt h) (.halt h)

theorem Restored.eq {o : Outcome α} (ends : Restored w o o') : o = o' := by cases ends <;> rfl

theorem Restored.kept {o : Outcome α} (ends : Restored w o (.done a left)) : left.toBookkeeping = w.toBookkeeping := by
  cases ends with
  | done _ kept => exact kept

theorem Restored.not_fault {o : Outcome α} : ¬ Restored w o (.fault e left) := by
  intro ends
  cases ends

def Restores (x y : Exec α) : Prop := ∀ w, w.Idle → Restored w (x w) (y w)

theorem World.Idle.of_eq (idle : w.Idle) (kept : left.toBookkeeping = w.toBookkeeping) : left.Idle where
  trace := by rw [kept,idle.trace]
  shallow := by rw [kept]; exact idle.shallow

namespace Interpreter

theorem finish_done {a} (ran : x w = .done a left) : finish x w = .done (.ok a) { left with trace := #[] } := by
  have tried : attempt x w = .done (.ok a) left := by rw [attempt,ran]
  rw [finish,bind_done tried]
  rfl

theorem finish_fault {e} (ran : x w = .fault e left) :
    finish x w = .done (.error (.runtime e left.trace.toList)) { left with trace := #[] } := by
  have tried : attempt x w = .done (.error e) left := by rw [attempt,ran]
  rw [finish,bind_done tried]
  rfl

theorem finish_halt {h} (ran : x w = .halt h) : finish x w = .halt h := by
  have tried : attempt x w = .halt h := by rw [attempt,ran]
  rw [finish,bind_apply,tried]

end Interpreter

namespace Restores

theorem bind {x y} {f g : α → Exec β} (first : Restores x y)
    (rest : ∀ a, Restores (f a) (g a)) : Restores (x >>= f) (y >>= g) := by
  intro w idle
  rw [bind_apply,bind_apply]
  have ends := first w idle
  generalize x w = o, y w = o' at ends
  cases ends with
  | @done left a kept =>
    have after := rest a left (idle.of_eq kept)
    dsimp only
    generalize f a left = o, g a left = o' at after
    cases after with
    | done b again => exact .done b (again.trans kept)
    | halt h => exact .halt h
  | halt h => exact .halt h

theorem still {x : Exec α} (runs : ∀ w, ∃ a left, x w = .done a left ∧ left.toBookkeeping = w.toBookkeeping) :
    Restores x x := by
  intro w _
  obtain ⟨a,left,ran,kept⟩ := runs w
  rw [ran]
  exact .done a kept

theorem pure (a : α) : Restores (pure a) (pure a) := still fun _ => ⟨_,_,rfl,rfl⟩

theorem prepare (source : String) (snippet : Bool) : Restores (prepare source snippet) (prepare source snippet) := still fun w =>
    have ⟨code,left,prepared,kept,_⟩ := prepare_still source snippet w
    ⟨code,left,prepared,kept⟩

theorem finish [Plainness α] {x : Exec α} (same : (unwinding False).rel false x y) : Restores (finish x) (finish y) := by
  intro w idle
  have ends := same w idle.shallow
  generalize first : x w = o, second : y w = o' at ends
  cases ends with
  | done a returned =>
    rw [finish_done first,finish_done second]
    refine .done _ ?_
    rw [returned.eq,← idle.trace]
  | fault unwound =>
    rw [finish_fault first,finish_fault second]
    refine .done _ ?_
    rw [unwound.back,unwound.line rfl,← idle.trace]
  | halt h =>
    rw [finish_halt first,finish_halt second]
    exact .halt h
  | parted _ _ never => exact never.elim

end Restores

section

variable {k : Engine} [(unwinding False).Engines k k']

theorem restores_prepareAndRun (m : Ref .module) (source : String) (snippet : Bool) :
    Restores (k.prepareAndRun m source snippet) (k'.prepareAndRun m source snippet) := by
  refine .bind (.prepare source snippet) fun code => ?_
  cases code with
  | error e => exact .pure _
  | ok code => exact .finish (rel_runCode id m code)

theorem restores_runSource (name source : String) : Restores (k.runSource name source) (k'.runSource name source) :=
  .bind (.still fun _ => ⟨_,_,rfl,rfl⟩) fun m => .bind (restores_prepareAndRun m source false) fun _ => .pure _

theorem restores_callNamed (m : Ref .module) (name : String) (arguments : List Value) :
    Restores (k.callNamed m name arguments) (k'.callNamed m name arguments) := by
  refine .bind (.still fun _ => ⟨_,_,rfl,rfl⟩) fun callee => ?_
  cases callee with
  | none => exact .pure _
  | some callee =>
    have same : (unwinding False).rel false (k.call callee arguments) (k'.call callee arguments) := Engines.call nofun nofun
    have calls := Restores.finish (rel_inModule m same)
    dsimp only
    split
    · exact calls
    · exact calls
    · exact calls
    · exact .bind (.still fun _ => ⟨_,_,rfl,rfl⟩) fun _ => .pure _

end

def Keeps (x : Exec α) : Prop := ∀ w a left, w.Idle → x w = .done a left → left.toBookkeeping = w.toBookkeeping

namespace Keeps

theorem bind {x} {f : α → Exec β} (first : Keeps x) (rest : ∀ a, Keeps (f a)) : Keeps (x >>= f) := by
  intro w b left idle ran
  obtain ⟨a,middle,begins,ends⟩ := bind_eq_done ran
  have kept := first w a middle idle begins
  exact (rest a middle b left (idle.of_eq kept) ends).trans kept

theorem of_quiet [Plainness α] {x : Exec α} (quiet : (unwinding True).Quiet false x) : Keeps x := by
  intro w a left idle ran
  have ends := quiet w idle.shallow
  rw [ran] at ends
  cases ends with
  | done _ returned => exact returned.eq

theorem pure (a : α) : Keeps (pure a) := fun _ _ _ _ ran => by cases ran; rfl

theorem modify {f} (kept : ∀ w, (f w).toBookkeeping = w.toBookkeeping) : Keeps (modify f) := by
  intro w _ left _ ran
  cases ran
  exact kept w

theorem of_restores {x : Exec α} (restores : Restores x y) : Keeps y := by
  intro w a left idle ran
  have ends := restores w idle
  rw [ran] at ends
  exact ends.kept

end Keeps

namespace Interpreter

theorem keeps_prepareAndRun (m : Ref .module) (source : String) (snippet : Bool) : Keeps (k.prepareAndRun m source snippet) :=
  .of_restores (@restores_prepareAndRun _ _ (watched_engine .crash amply) m source snippet)

theorem keeps_start (c : Config) : Keeps (start c) := by
  refine .bind (.of_quiet quiet_newObjectClass) fun cls => .bind (.modify fun _ => rfl) fun _ =>
    .bind (.of_quiet quiet_newPrelude) fun m => ?_
  extract_lets onward
  have after (source : Except Failure String) : Keeps (onward source) := by
    cases source with
    | error e => exact .pure _
    | ok source =>
      refine .bind (keeps_prepareAndRun m source false) fun result => ?_
      cases result with
      | error e => exact .pure _
      | ok _ => exact .bind (.modify fun _ => rfl) fun _ => .pure _
  split
  · exact .bind (.of_quiet (quiet_readFile _)) after
  · exact .bind (.pure _) after

theorem idle_start {c} (started : start c (initial c) = .done result w) : w.Idle := by
  have idle : (initial c).Idle := ⟨rfl,Nat.zero_le _⟩
  exact idle.of_eq (keeps_start c _ _ _ idle started)

end Interpreter

def Outcome.error? : Outcome (Except Failure α) → Option (Fault × List TraceFrame × World)
  | .done (.error (.runtime e trace)) left => some (e,trace,left)
  | _ => none

theorem Outcome.eq_of_error? {o : Outcome (Except Failure α)}
    (failed : o.error? = some (e,trace,left)) :
    o = .done (.error (.runtime e trace)) left := by
  unfold error? at failed
  split at failed
  · cases failed
    rfl
  · cases failed

-- At most four calls may be open, and the prelude has a function that calls itself forever.
def shallowConfig : Config :=
  { maxDepth := 4, prelude := some "prelude"
    disk := .answers [("prelude",.ok "def again(n):\n    return again(n + 1)\n")] }

def shallowWorld : World :=
  match start shallowConfig (initial shallowConfig) with
  | .done _ w => w
  | _ => initial shallowConfig

theorem shallowWorld_idle : shallowWorld.Idle := by
  unfold shallowWorld
  split
  case h_1 result w started => exact idle_start started
  case h_2 => exact ⟨rfl,Nat.zero_le _⟩

inductive Request where
  | runSource (name source : String)
  | evalSnippet (m : Ref .module) (source : String)
  | callFunction (m : Ref .module) (name : String) (arguments : List Value)

def Request.serve (k : Engine) : Request → Exec (Except Failure Value)
  | runSource name source => return (← k.runSource name source).map .module
  | evalSnippet m source => k.prepareAndRun m source true
  | callFunction m name arguments => k.callNamed m name arguments

inductive Session (w : World) : World → Prop where
  | opened : Session w w
  | served {u left : World} {result : Except Failure Value} (r : Request) (session : Session w u)
    (ran : r.serve k u = .done result left) : Session w left

theorem restores_serve {k} [(unwinding False).Engines k k'] (r : Request) : Restores (r.serve k) (r.serve k') := by
  cases r with
  | runSource name source => exact .bind (restores_runSource name source) fun _ => .pure _
  | evalSnippet m source => exact restores_prepareAndRun m source true
  | callFunction m name arguments => exact restores_callNamed m name arguments

theorem Request.restored {u} (r : Request) (h : Halt) (idle : u.Idle) :
    Restored u (r.serve (watched h amply) u) (r.serve k u) :=
  have : (unwinding False).Engines (watched h amply) k := watched_engine h amply
  restores_serve r u idle

theorem Session.kept {u} (idle : w.Idle) (session : Session w u) : u.toBookkeeping = w.toBookkeeping := by
  induction session with
  | opened => rfl
  | served r session ran ih =>
    have ends := r.restored .crash (idle.of_eq ih)
    rw [ran] at ends
    exact ends.kept.trans ih

-- After any requests, each further one leaves everything as it was when it came in, whether what it
-- ran succeeded or not. Calls get deeper only where the code of a function starts, and an engine
-- that looks at the depth there, and wherever it is asked for something, never halts for it.
theorem Session.bookkeeping_restored {u : World} (idle : w.Idle) (session : Session w u)
    (r : Request) :
    u.toBookkeeping = w.toBookkeeping ∧
    (∀ h, r.serve (watched h amply) u = r.serve Interpreter.k u) ∧
    (∀ e left, r.serve Interpreter.k u ≠ .fault e left) ∧
    ∀ result left, r.serve Interpreter.k u = .done result left →
      left.toBookkeeping = u.toBookkeeping ∧ left.trace = #[] := by
  have kept := session.kept idle
  have ends (h : Halt) := r.restored h (idle.of_eq kept)
  refine ⟨kept, fun h => (ends h).eq, fun e left ran => ?_, fun result left ran => ?_⟩
  · have faulty := ends .crash
    rw [ran] at faulty
    exact Restored.not_fault faulty
  · have again := ends .crash
    rw [ran] at again
    exact ⟨again.kept, (idle.of_eq (again.kept.trans kept)).trace⟩

theorem Session.bookkeeping_restored_again : ∃ trace left,
    Request.serve Interpreter.k (.runSource "main" "again(0)\n") shallowWorld =
      .done (.error (.runtime (.recursion 4) trace)) left ∧
    left.toBookkeeping = shallowWorld.toBookkeeping ∧ left.trace = #[] := by
  have fails : (Request.serve Interpreter.k (.runSource "main" "again(0)\n") shallowWorld).error?.map
      Prod.fst = some (.recursion 4) := by
    decide +kernel
  obtain ⟨⟨_, trace, left⟩, failed, rfl⟩ := Option.map_eq_some_iff.mp fails
  have ran := Outcome.eq_of_error? failed
  obtain ⟨_, _, _, restored⟩ :=
    Session.bookkeeping_restored shallowWorld_idle .opened (.runSource "main" "again(0)\n")
  exact ⟨trace, left, ran, restored _ _ ran⟩

end EmbedScript
