import EmbedScript.Interpreter
import EmbedScript.Proofs.Modules.Program
import EmbedScript.Proofs.Modules.Visit

/-!
Importing modules from a table of texts. An import ends, and runs the code of each module that it
reaches once.
-/

namespace EmbedScript

open Exec List Instr World Stmt

def Stmt.imported? : Stmt → Option String
  | .mk _ (.importModule path) => some path
  | _ => none

namespace ModuleTable

def program? (texts : List (String × String)) (path : String) : Option (List Stmt) :=
  (texts.lookup path).bind fun text => (parse text).toOption

def imports (texts : List (String × String)) (path : String) : List String :=
  (program? texts path).elim [] (·.filterMap imported?)

def Sound (texts : List (String × String)) (path : String) : Prop := (program? texts path).isSome

def Plain (texts : List (String × String)) : Prop :=
  ∀ e ∈ texts, ∀ program, parse e.2 = .ok program → (program.mapM plain?).isSome

def pending (texts : List (String × String)) (known : List String) : Nat := texts.countP fun e => !known.contains e.1

end ModuleTable

def World.known (w : World) : List String := w.loaded.map (·.1)

structure World.Advances (w left : World) (events : List Milestone)
    (new : List (String × Ref .module)) : Prop where
  milestones : left.milestones = events ++ w.milestones
  loaded : left.loaded = new ++ w.loaded
  source : left.source = w.source

namespace World.Advances

variable {w left : World} {events : List Milestone} {new : List (String × Ref .module)}

theorem known (advance : w.Advances left events new) : left.known = new.map (·.1) ++ w.known := by
  rw [World.known,World.known,advance.loaded,map_append]

theorem trans (first : w.Advances middle events new) (second : middle.Advances left later newer) :
    w.Advances left (later ++ events) (newer ++ new) where
  milestones := by rw [second.milestones,first.milestones,append_assoc]
  loaded := by rw [second.loaded,first.loaded,append_assoc]
  source := second.source.trans first.source

end World.Advances

inductive Outcome.Alike {α : Type} : Outcome α → Outcome α → Prop
  | done {a left after} (same : left.Advances after [] []) : Alike (.done a left) (.done a after)
  | fault {e left after} (same : left.Advances after [] []) : Alike (.fault e left) (.fault e after)
  | halt {h} : Alike (.halt h) (.halt h)

theorem Outcome.Alike.refl (o : Outcome α) : o.Alike o := by
  cases o with
  | done a left => exact .done ⟨rfl,rfl,rfl⟩
  | fault e left => exact .fault ⟨rfl,rfl,rfl⟩
  | halt h => exact .halt

open ModuleTable

def Follows {α : Type} (texts : List (String × String)) (roots : List String) (w : World) : Outcome α → Prop
  | .done _ left => ∃ events new, w.Advances left events new ∧
      Visit.Completes (imports texts) w.known roots events (new.map (·.1))
  | .fault _ left => ∃ events new, w.Advances left events new ∧
      Visit.Fails (imports texts) (Sound texts) w.known roots events (new.map (·.1))
  | .halt _ => False

variable {path : String}

namespace Follows

variable {texts : List (String × String)} {w : World} {f : α → Exec β}

theorem bind (first : Follows texts roots w (x w))
    (second : ∀ a left events new, w.Advances left events new → Follows texts others left (f a left)) :
    Follows texts (roots ++ others) w ((x >>= f) w) := by
  rw [bind_apply]
  cases ran : x w with
  | halt h => rw [ran] at first; exact first
  | fault e left =>
    rw [ran] at first
    obtain ⟨events,new,advance,failed⟩ := first
    exact ⟨events,new,advance,failed.append⟩
  | done a left =>
    rw [ran] at first
    obtain ⟨events,new,advance,completed⟩ := first
    have next := second a left events new advance
    dsimp only
    cases after : f a left with
    | halt h => rw [after] at next; exact next
    | fault e final =>
      rw [after] at next
      obtain ⟨later,newer,beyond,failed⟩ := next
      rw [advance.known] at failed
      refine ⟨_,_,advance.trans beyond,?_⟩
      rw [map_append]
      exact completed.fails failed
    | done b final =>
      rw [after] at next
      obtain ⟨later,newer,beyond,further⟩ := next
      rw [advance.known] at further
      refine ⟨_,_,advance.trans beyond,?_⟩
      rw [map_append]
      exact completed.completes further

variable {left : World}

theorem still (ran : o = .done a left) (same : w.Advances left [] [])
    (old : ∀ p ∈ roots, p ∈ w.known) : Follows texts roots w o := by
  rw [ran]
  exact ⟨[],[],same,Visit.completes_known old⟩

theorem alike (inside : Follows texts roots w o)
    (before : start.Advances w [] []) (after : o.Alike o') : Follows texts roots start o' := by
  have known : w.known = start.known := before.known
  have widen : ∀ {left final events new}, w.Advances left events new → left.Advances final [] [] →
      start.Advances final events new := by
    intro left final events new advance same
    have all := (before.trans advance).trans same
    rwa [append_nil,append_nil] at all
  cases after with
  | halt => exact inside
  | fault same =>
    obtain ⟨events,new,advance,failed⟩ := inside
    exact ⟨events,new,widen advance same,known ▸ failed⟩
  | done same =>
    obtain ⟨events,new,advance,completed⟩ := inside
    exact ⟨events,new,widen advance same,known ▸ completed⟩

theorem after_still (ran : x w = .done a left) (same : w.Advances left [] [])
    (rest : Follows texts roots left (f a left)) : Follows texts roots w ((x >>= f) w) := by
  rw [bind_done ran]
  exact rest.alike same (.refl _)

theorem then_still (first : Follows texts roots w (x w))
    (rest : ∀ a left, ∃ b after, f a left = .done b after ∧ left.Advances after [] []) :
    Follows texts roots w ((x >>= f) w) := by
  rw [← append_nil roots]
  refine .bind first fun a left _ _ _ => ?_
  obtain ⟨b,after,ran,same⟩ := rest a left
  exact still ran same fun _ mem => nomatch mem

theorem refused (ran : o = .fault e left) (same : w.Advances left [] [])
    (new : path ∉ w.known) (unsound : ¬ Sound texts path) : Follows texts [path] w o := by
  rw [ran]
  exact ⟨[],[],same,{ Visit.nil with blamed := ⟨path,mem_singleton.mpr rfl,path,.here new,unsound⟩ }⟩

theorem inModule (inside : Follows texts roots { w with running := m :: w.running }
    (x { w with running := m :: w.running })) : Follows texts roots w (inModule m x w) := by
  refine inside.alike ⟨rfl,rfl,rfl⟩ ?_
  unfold Exec.inModule
  cases x { w with running := m :: w.running } with
  | done a left => exact .done ⟨rfl,rfl,rfl⟩
  | fault e left => exact .fault ⟨rfl,rfl,rfl⟩
  | halt h => exact .halt

theorem inCode (inside : Follows texts roots { w with calls := c :: w.calls }
    (x { w with calls := c :: w.calls })) : Follows texts roots w (inCode c x w) := by
  refine inside.alike ⟨rfl,rfl,rfl⟩ ?_
  unfold Exec.inCode recordCall
  cases x { w with calls := c :: w.calls } with
  | done a left => exact .done ⟨rfl,rfl,rfl⟩
  | fault e left => cases c.frame? <;> exact .fault ⟨rfl,rfl,rfl⟩
  | halt h => exact .halt

end Follows

namespace PlainStmt

def imported : PlainStmt → List String
  | imports path => [path]
  | assigns _ _ => []

def run (k : Engine) (f : Frame) (line : Nat) : PlainStmt → Exec Unit
  | imports path => do
    setLine line
    setGlobal f.home (importedName path) (.module (← k.importModule path))
  | assigns names value => do
    setLine line
    for store in names.map Store.global do store.put k f value.value

theorem putGlobals_still (k : Engine) (f : Frame) (v : Value) (names : List String) (w : World) :
    ∃ left, (forIn (names.map Store.global) PUnit.unit fun store _ => do
        store.put k f v
        pure (ForInStep.yield PUnit.unit) : Exec PUnit) w = .done PUnit.unit left ∧
      w.Advances left [] [] := by
  induction names generalizing w with
  | nil => exact ⟨w,rfl,rfl,rfl,rfl⟩
  | cons name names ih =>
    obtain ⟨middle,ran,first⟩ : ∃ middle, setGlobal f.home name v w = .done () middle ∧
        w.Advances middle [] [] := ⟨_,rfl,rfl,rfl,rfl⟩
    obtain ⟨left,rest,same⟩ := ih middle
    refine ⟨left,?_,first.trans same⟩
    rw [map_cons,forIn_cons,bind_assoc]
    exact (bind_done ran _).trans rest

theorem execBlock_cons (k : Engine) (f : Frame) (line : Nat) (s : PlainStmt) (body : List (Nat × PlainStmt)) :
    execBlock k f (code ((line,s) :: body)) = s.run k f line >>= fun _ => execBlock k f (code body) := by
  change execBlock k f (.mk line s.instr :: code body) = _
  rw [execBlock,exec]
  cases s with
  | imports path =>
    simp only [instr,InstrKind.exec,run,bind_assoc]
    rfl
  | assigns names value =>
    simp only [instr,InstrKind.exec,run,bind_assoc]
    rfl

end PlainStmt

structure World.Ready (texts : List (String × String)) (fuel : Nat) (w : World) : Prop where
  source : w.source = .table texts
  fuel : pending texts w.known < fuel

theorem ModuleTable.pending_append_le (texts : List (String × String)) (new known : List String) :
    pending texts (new ++ known) ≤ pending texts known := by
  refine countP_mono_left fun e _ unknown => ?_
  simp only [contains_append,Bool.not_or,Bool.and_eq_true] at unknown
  exact unknown.2

variable {texts : List (String × String)} {known : List String} {events : List Milestone}

theorem ModuleTable.pending_cons_lt (found : texts.lookup path = some text)
    (new : path ∉ known) : pending texts (path :: known) < pending texts known := by
  obtain ⟨before,after,rfl,_⟩ := lookup_eq_some_iff.mp found
  have front := pending_append_le before [path] known
  have back := pending_append_le after [path] known
  simp only [pending,singleton_append,countP_append] at front back ⊢
  rw [countP_cons_of_neg (by simp),countP_cons_of_pos (by simpa using new)]
  omega

theorem World.Ready.advance {w : World}
    (ready : w.Ready texts n) (advance : w.Advances left events new) : left.Ready texts n where
  source := advance.source.trans ready.source
  fuel := by
    rw [advance.known]
    exact Nat.lt_of_le_of_lt (pending_append_le ..) ready.fuel

section

variable {texts : List (String × String)} {k : Engine}
  (below : ∀ path w, Ready texts n w → Follows texts [path] w (k.importModule path w))
include below

variable {w : World}

theorem PlainStmt.run_follows (f : Frame) (line : Nat) (s : PlainStmt) (ready : w.Ready texts n) :
    Follows texts s.imported w (s.run k f line w) := by
  cases s with
  | imports path =>
    refine .after_still (setLine_apply line w) ⟨rfl,rfl,rfl⟩ ?_
    have moved : Ready texts n { w with line } := ⟨ready.source,ready.fuel⟩
    exact .then_still (below path _ moved) fun _ _ => ⟨(),_,rfl,⟨rfl,rfl,rfl⟩⟩
  | assigns names value =>
    refine .after_still (setLine_apply line w) ⟨rfl,rfl,rfl⟩ ?_
    obtain ⟨left,ran,same⟩ := putGlobals_still k f value.value names { w with line }
    exact .still (bind_done ran _) same fun _ mem => nomatch mem

theorem PlainStmt.execBlock_follows (f : Frame) (body : List (Nat × PlainStmt)) (ready : w.Ready texts n) :
    Follows texts (body.flatMap (·.2.imported)) w (execBlock k f (code body) w) := by
  induction body generalizing w with
  | nil => exact .still rfl ⟨rfl,rfl,rfl⟩ fun _ mem => nomatch mem
  | cons first body ih =>
    obtain ⟨line,s⟩ := first
    rw [execBlock_cons]
    exact .bind (run_follows below f line s ready) fun _ left events new advance => ih (ready.advance advance)

theorem Engine.runCode_follows (m : Ref .module) (body : List (Nat × PlainStmt)) (ready : w.Ready texts n) :
    Follows texts (body.flatMap (·.2.imported)) w (k.runCode m (PlainStmt.code body) w) := by
  refine .inModule (.inCode ?_)
  have inside : Ready texts n { w with running := m :: w.running, calls := .module :: w.calls } := ⟨ready.source,ready.fuel⟩
  refine .then_still (PlainStmt.execBlock_follows below _ body inside) fun flow left => ?_
  cases flow <;> exact ⟨_,left,rfl,rfl,rfl,rfl⟩

end

theorem PlainStmt.filterMap_imported {program : List Stmt} (plain : program.mapM plain? = some body) :
    program.filterMap imported? = body.flatMap (·.2.imported) := by
  induction program generalizing body with
  | nil =>
    cases plain
    rfl
  | cons first program ih =>
    obtain ⟨line,kind,s,others,rfl,found,tail,rfl⟩ := plain?_cons plain
    rw [flatMap_cons,← ih tail]
    cases kind with
    | importModule path =>
      cases found
      rfl
    | assign targets value =>
      obtain ⟨names,_,found⟩ := Option.bind_eq_some_iff.mp found
      obtain ⟨literal,_,same⟩ := Option.bind_eq_some_iff.mp found
      cases same
      rfl
    | _ => contradiction

theorem ModuleTable.imports_eq
    (found : texts.lookup path = some text) (parsed : parse text = .ok program)
    (plain : program.mapM plain? = some body) :
    imports texts path = body.flatMap (·.2.imported) := by
  rw [imports,program?,found,Option.bind_some,parsed]
  exact PlainStmt.filterMap_imported plain

section

variable {texts : List (String × String)} (plain : Plain texts) {k : Engine}
  (below : ∀ path w, Ready texts n w → Follows texts [path] w (k.importModule path w))

include below in
theorem Engine.run_follows (m : Ref .module) (found : texts.lookup path = some text)
    (imported : imports texts path = body.flatMap (·.2.imported)) (ready : w.Ready texts (n + 1))
    (new : path ∉ w.known) :
    Follows texts [path] w ((do
      modify fun w => { w with loaded := (path,m) :: w.loaded, milestones := .begins path :: w.milestones }
      discard (onFault id (fun w => { w with loaded := w.loaded.filter (·.1 != path) })
        (k.runCode m (PlainStmt.code body)))
      modify fun w => { w with milestones := .ends path :: w.milestones }
      return m : Exec (Ref .module)) w) := by
  rw [bind_done (modify_apply _ w),bind_apply,discard_apply,bind_apply,onFault]
  have inside : Ready texts n { w with
      loaded := (path,m) :: w.loaded, milestones := .begins path :: w.milestones } := by
    refine ⟨ready.source,?_⟩
    exact Nat.lt_of_lt_of_le (pending_cons_lt found new) (Nat.le_of_lt_succ ready.fuel)
  have ran := Engine.runCode_follows below m body inside
  rw [← imported] at ran
  cases outcome : k.runCode m (PlainStmt.code body) { w with
      loaded := (path,m) :: w.loaded, milestones := .begins path :: w.milestones } with
  | halt h => rw [outcome] at ran; exact ran
  | fault e left =>
    rw [outcome] at ran
    obtain ⟨events,fresh,advance,failed⟩ := ran
    change Visit.Fails _ _ (path :: w.known) _ _ _ at failed
    refine ⟨events ++ [.begins path],fresh,⟨?_,?_,advance.source⟩,failed.enter new⟩
    · rw [append_assoc]
      exact advance.milestones
    · have others : ∀ e ∈ fresh, e.1 ≠ path := by
        rintro e mem rfl
        have began := failed.begun_of_fresh (mem_map_of_mem mem)
        exact failed.new _ began (.head _)
      have olds : ∀ e ∈ w.loaded, e.1 ≠ path := by
        rintro e mem rfl
        exact new (mem_map_of_mem mem)
      change left.loaded.filter (·.1 != path) = _
      rw [advance.loaded,filter_append,filter_cons_of_neg (by simp),
        filter_eq_self.mpr (by simpa using others),filter_eq_self.mpr (by simpa using olds)]
  | done v left =>
    rw [outcome] at ran
    obtain ⟨events,fresh,advance,completed⟩ := ran
    change Visit.Completes _ (path :: w.known) _ _ _ at completed
    refine ⟨.ends path :: (events ++ [.begins path]),fresh ++ [(path,m)],⟨?_,?_,advance.source⟩,?_⟩
    · rw [cons_append,append_assoc]
      exact congrArg (.ends path :: ·) advance.milestones
    · rw [append_assoc]
      exact advance.loaded
    · rw [map_append]
      exact completed.enter new

include plain below in
theorem Engine.importPath_follows (path : String) (ready : w.Ready texts (n + 1)) :
    Follows texts [path] w (k.importPath path w) := by
  rw [importPath,bind_done (look_apply ..)]
  cases cached : w.loaded.lookup path with
  | some m =>
    obtain ⟨before,after,split,_⟩ := lookup_eq_some_iff.mp cached
    refine .still rfl ⟨rfl,rfl,rfl⟩ fun p root => ?_
    rw [mem_singleton.mp root,known,split]
    simp
  | none =>
    have new : path ∉ w.known := by
      intro mem
      obtain ⟨e,there,rfl⟩ := mem_map.mp mem
      simpa using lookup_eq_none_iff.mp cached e there
    dsimp only
    rw [bind_done (look_apply ..),bind_done (look_apply ..),ready.source]
    refine .after_still (rfl : ModuleSource.load (.table texts) w.disk path w = .done (texts.lookup path) w) ⟨rfl,rfl,rfl⟩ ?_
    cases found : texts.lookup path with
    | none =>
      refine .refused rfl ⟨rfl,rfl,rfl⟩ new ?_
      rw [Sound,program?,found]
      exact Bool.false_ne_true
    | some text =>
      obtain ⟨m,made,ran,same⟩ : ∃ m left, newModule path w = .done m left ∧ w.Advances left [] [] := ⟨_,_,rfl,rfl,rfl,rfl⟩
      refine .after_still ran same ?_
      have unknown : path ∉ made.known := by
        rw [same.known]
        exact new
      cases parsed : parse text with
      | error e =>
        have prepared : prepare text false made = .done (.error (.syntactic e)) made := by rw [prepare,parsed]
        refine .after_still prepared ⟨rfl,rfl,rfl⟩ (.refused rfl ⟨rfl,rfl,rfl⟩ unknown ?_)
        rw [Sound,program?,found,Option.bind_some,parsed]
        exact Bool.false_ne_true
      | ok program =>
        obtain ⟨before,after,split,_⟩ := lookup_eq_some_iff.mp found
        have form := plain (path,text) (by simp [split]) program parsed
        obtain ⟨body,read⟩ := Option.isSome_iff_exists.mp form
        refine .after_still (prepare_plain parsed read made) ⟨rfl,rfl,rfl⟩ ?_
        exact Engine.run_follows below m found (imports_eq found parsed read) (ready.advance same) unknown

end

theorem engine_importModule_follows (plain : Plain texts) (n : Nat) :
    ∀ path w, Ready texts n w → Follows texts [path] w ((engine n).importModule path w) := by
  induction n with
  | zero =>
    intro path w ready
    exact absurd ready.fuel (Nat.not_lt_zero _)
  | succ n ih =>
    intro path w ready
    exact Engine.importPath_follows plain ih path ready

theorem World.Ready.of_length {fuel} {w : World} (source : w.source = .table texts)
    (enough : texts.length < fuel) : w.Ready texts fuel where
  source := source
  fuel := Nat.lt_of_le_of_lt (countP_le_length ..) enough

theorem Visit.settled {imports} (visit : Visit imports known roots events fresh) :
    fresh.Nodup ∧ (∀ q, q ∈ fresh ↔ .ends q ∈ events) ∧ (∀ q, events.count (.begins q) ≤ 1) ∧ ∀ q ∈ fresh, q ∉ known := by
  refine ⟨visit.cached.nodup_iff.mpr visit.endedOnce,?_,?_,?_⟩
  · intro q
    rw [visit.cached.mem_iff,Milestone.mem_ended]
  · intro q
    rw [Milestone.count_begins]
    exact nodup_iff_count.mp visit.begunOnce q
  · intro q mem
    exact visit.new q (visit.begun_of_fresh mem)

theorem Visit.Completes.count_begins {imports}
    (visit : Visit.Completes imports known [path] events fresh) (q : String) :
    (Reaches imports known path q → events.count (.begins q) = 1) ∧
      (¬ Reaches imports known path q → events.count (.begins q) = 0) := by
  rw [Milestone.count_begins]
  constructor
  · intro reached
    have some := count_pos_iff.mpr (visit.begun_iff.mpr reached)
    exact Nat.le_antisymm (nodup_iff_count.mp visit.begunOnce q) some
  · intro missed
    exact count_eq_zero.mpr fun mem => missed (visit.begun_iff.mp mem)

theorem import_runs_once {texts : List (String × String)} {fuel : Nat} {w : World} (plain : Plain texts)
    (source : w.source = .table texts) (enough : texts.length < fuel) (path : String) :
    ∃ left events new,
      ((∃ m, (engine fuel).importModule path w = .done m left) ∨
        ∃ e, (engine fuel).importModule path w = .fault e left) ∧
      left.milestones = events ++ w.milestones ∧ left.loaded = new ++ w.loaded ∧
      ((new.map (·.1)).Nodup ∧ (∀ q, q ∈ new.map (·.1) ↔ .ends q ∈ events) ∧
        (∀ q, events.count (.begins q) ≤ 1) ∧ ∀ q ∈ new.map (·.1), q ∉ w.known) ∧
      ((∀ q, Reaches (imports texts) w.known path q → Sound texts q) →
        (∃ m, (engine fuel).importModule path w = .done m left) ∧
        ∀ q, (Reaches (imports texts) w.known path q → events.count (.begins q) = 1) ∧
          (¬ Reaches (imports texts) w.known path q → events.count (.begins q) = 0)) := by
  have follows := engine_importModule_follows plain fuel path w (.of_length source enough)
  cases ran : (engine fuel).importModule path w with
  | halt h =>
    rw [ran] at follows
    exact follows.elim
  | fault e left =>
    rw [ran] at follows
    obtain ⟨events, new, advance, failed⟩ := follows
    refine ⟨left, events, new, .inr ⟨e, rfl⟩, advance.milestones, advance.loaded, failed.settled, ?_⟩
    intro sound
    obtain ⟨p, root, q, reached, unsound⟩ := failed.blamed
    rw [List.mem_singleton.mp root] at reached
    exact absurd (sound q reached) unsound
  | done m left =>
    rw [ran] at follows
    obtain ⟨events, new, advance, completed⟩ := follows
    refine ⟨left, events, new, .inl ⟨m, rfl⟩, advance.milestones, advance.loaded, completed.settled, ?_⟩
    intro _
    exact ⟨⟨m, rfl⟩, completed.count_begins⟩

-- Two modules that import each other, of which one imports itself too.
def mutualImports : List (String × String) := [("a","import b\nx = 1"),("b","y = nil\nimport a\nimport b")]

theorem import_runs_once_mutual :
    ∃ left m, (engine 3).importModule "a"
        { types := ⟨[]⟩, maxDepth := 0, source := .table mutualImports } = .done m left ∧
      left.milestones.count (.begins "a") = 1 ∧ left.milestones.count (.begins "b") = 1 := by
  have plain : Plain mutualImports := by
    intro e member program parsed
    have checked : (parse e.2).toOption.all fun program => (program.mapM Stmt.plain?).isSome := by
      rcases List.mem_cons.mp member with rfl | member
      · decide +kernel
      · rw [List.mem_singleton.mp member]
        decide +kernel
    rw [parsed] at checked
    exact checked
  have first : imports mutualImports "a" = ["b"] := by decide +kernel
  have second : imports mutualImports "b" = ["a", "b"] := by decide +kernel
  have closed : ∀ q, Reaches (imports mutualImports) [] "a" q → q = "a" ∨ q = "b" := by
    intro q reached
    induction reached with
    | here => exact .inl rfl
    | step _ imported _ ih =>
      rcases ih with rfl | rfl
      · rw [first] at imported
        exact .inr (List.mem_singleton.mp imported)
      · rw [second] at imported
        simpa using imported
  have sound : ∀ q, Reaches (imports mutualImports) [] "a" q → Sound mutualImports q := by
    intro q reached
    rcases closed q reached with rfl | rfl
    · exact (by decide +kernel : (program? mutualImports "a").isSome)
    · exact (by decide +kernel : (program? mutualImports "b").isSome)
  obtain ⟨left, events, new, _, grown, _, _, success⟩ := @import_runs_once mutualImports 3
    { types := ⟨[]⟩, maxDepth := 0, source := .table mutualImports } plain rfl (by decide) "a"
  obtain ⟨⟨m, ran⟩, once⟩ := success sound
  rw [List.append_nil] at grown
  have here : Reaches (imports mutualImports) [] "a" "a" := .here List.not_mem_nil
  refine ⟨left, m, ran, ?_, ?_⟩
  · rw [grown]
    exact (once "a").1 here
  · rw [grown]
    exact (once "b").1 (.step here (by rw [first]; exact List.mem_singleton.mpr rfl) List.not_mem_nil)

end EmbedScript
