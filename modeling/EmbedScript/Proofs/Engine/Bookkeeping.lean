import EmbedScript.Proofs.Engine.Evaluation

/-!
The bookkeeping of a run. Whatever runs puts everything back that it noted, and an error leaves a
frame in the trace for every call that it passes through.
-/

namespace EmbedScript

open Exec

variable {m : Bool}

-- Behind a value everything is as it was, but statements may have moved on to another line.
structure Returned (moving : Bool) (w left : World) : Prop where
  back : left.toBookkeeping = { w.toBookkeeping with line := left.line }
  line : moving = false → left.line = w.line

-- Behind an error the trace has grown by the calls that were opened on the way to where it was
-- raised. Only imports word an error anew, and only they run modules.
structure Unwound (importless : Prop) (moving : Bool) (w left : World) (e cause : Fault)
    (opened : List Call) (frames : Array TraceFrame) : Prop where
  raised : left.raised = some (cause,opened ++ w.calls)
  back : left.toBookkeeping =
    { w.toBookkeeping with line := left.line, trace := w.trace ++ frames }
  line : moving = false → left.line = w.line
  routines : frames.toList.map (·.routine) = opened.filterMap Call.frame?
  direct : importless → cause = e ∧ .module ∉ opened

-- How a computation on two engines may end that starts in `w`: in the same way, or the first engine
-- has halted because it does not import.
inductive Settles (importless : Prop) (moving : Bool) (w : World) :
    Outcome α → Outcome α → Prop where
  | done {left : World} (a : α) (returned : Returned moving w left) :
    Settles importless moving w (.done a left) (.done a left)
  | fault {left : World} {e cause : Fault} {opened : List Call} {frames : Array TraceFrame}
    (unwound : Unwound importless moving w left e cause opened frames) :
    Settles importless moving w (.fault e left) (.fault e left)
  | halt (h : Halt) : Settles importless moving w (.halt h) (.halt h)
  | parted (h : Halt) (o : Outcome α) (allowed : importless) :
    Settles importless moving w (.halt h) o

-- One after the other

theorem Returned.of_eq (same : left.toBookkeeping = w.toBookkeeping) : Returned m w left where
  back := by rw [same]
  line _ := by rw [same]

theorem Returned.trans (first : Returned m w middle) (second : Returned m middle left) : Returned m w left where
  back := by rw [second.back,first.back]
  line still := (second.line still).trans (first.line still)

theorem Returned.eq (returned : Returned false w left) : left.toBookkeeping = w.toBookkeeping := by
  rw [returned.back,returned.line rfl]

theorem Returned.calls (returned : Returned m w left) : left.calls = w.calls := by rw [returned.back]

theorem Returned.trace (returned : Returned m w left) : left.trace = w.trace := by rw [returned.back]

theorem Returned.shallow (returned : Returned m w left) (shallow : w.depth ≤ w.maxDepth) : left.depth ≤ left.maxDepth := by
  rw [returned.back]
  exact shallow

theorem Unwound.after (first : Returned m w middle) (unwound : Unwound importless m middle left e cause opened frames) :
    Unwound importless m w left e cause opened frames where
  raised := by rw [unwound.raised,first.calls]
  back := by rw [unwound.back,first.back]
  line still := (unwound.line still).trans (first.line still)
  routines := unwound.routines
  direct := unwound.direct

theorem Settles.after (first : Returned m w middle)
    (ends : Settles importless m middle o o') : Settles importless m w o o' := by
  cases ends with
  | done a returned => exact .done a (first.trans returned)
  | fault unwound => exact .fault (.after first unwound)
  | halt h => exact .halt h
  | parted h _ allowed => exact .parted h _ allowed

variable {x y : Exec α}

theorem Settles.bind (first : Settles importless m w (x w) (y w))
    (rest : ∀ a left, Returned m w left → Settles importless m left (f a left) (g a left)) :
    Settles importless m w ((x >>= f) w) ((y >>= g) w) := by
  rw [bind_apply,bind_apply]
  generalize x w = o, y w = o' at first
  cases first with
  | done a returned => exact .after returned (rest a _ returned)
  | fault unwound => exact .fault unwound
  | halt h => exact .halt h
  | parted h _ allowed => exact .parted h _ allowed

theorem Unwound.here (e : Fault) : Unwound importless m w { w with raised := some (e,w.calls) } e e [] #[] where
  raised := rfl
  back := by rw [Array.append_empty]
  line _ := rfl
  routines := rfl
  direct _ := ⟨rfl,List.not_mem_nil⟩

-- What is noted while something runs

theorem recordCall_eq (c : Call) (w : World) : recordCall c w =
    { w with trace := w.trace ++ (c.frame?.map fun routine => ⟨routine,w.line⟩).toArray } := by
  unfold recordCall
  cases c.frame? with
  | none => simp
  | some routine => simp

theorem Unwound.inCode (allowed : importless → c ≠ .module) (unwound :
      Unwound importless true { w with calls := c :: w.calls } left e cause opened frames) :
    Unwound importless m w { recordCall c left with calls := (recordCall c left).calls.tail, line := w.line } e cause
      (opened ++ [c]) (frames ++ (c.frame?.map fun routine => ⟨routine,left.line⟩).toArray) where
  raised := by simp [recordCall_eq,unwound.raised]
  back := by
    rw [recordCall_eq]
    rw [unwound.back]
    simp
  line _ := rfl
  routines := by cases frame : c.frame? <;> simp [unwound.routines,frame]
  direct alone := by simp [unwound.direct alone,(allowed alone).symm]

theorem Settles.inCode (allowed : importless → c ≠ .module)
    (code : Settles importless true { w with calls := c :: w.calls } (x { w with calls := c :: w.calls }) (y { w with calls := c :: w.calls }))
    : Settles importless m w (inCode c x w) (inCode c y w) := by
  unfold Exec.inCode
  generalize x _ = o, y _ = o' at code
  cases code with
  | done a returned =>
    refine .done a ⟨?_,fun _ => rfl⟩
    rw [returned.back]
    rfl
  | fault unwound => exact .fault (.inCode allowed unwound)
  | halt h => exact .halt h
  | parted h _ allowed => exact .parted h _ allowed

structure Guards (undo : World → World) (w entered : World) : Prop where
  line : entered.line = w.line
  trace : entered.trace = w.trace
  calls : entered.calls = w.calls
  raised (left : World) : (undo left).raised = left.raised
  back (left : World) (line : Nat) (trace : Array TraceFrame) :
    left.toBookkeeping = { entered.toBookkeeping with line, trace } →
      (undo left).toBookkeeping = { w.toBookkeeping with line, trace }

theorem Settles.restoring (guards : Guards undo w entered)
    (inside : Settles importless m entered (x entered) (y entered)) :
    Settles importless m w (restoring undo x entered) (restoring undo y entered) := by
  unfold Exec.restoring
  generalize x entered = o, y entered = o' at inside
  cases inside with
  | @done left a returned =>
    have back := guards.back left left.line w.trace (by rw [← guards.trace]; exact returned.back)
    refine .done a ⟨?_,fun still => ?_⟩
    · rw [back]
    · rw [back,← guards.line]
      exact returned.line still
  | @fault left e cause opened frames unwound =>
    have back := guards.back left left.line (w.trace ++ frames) (by rw [← guards.trace]; exact unwound.back)
    refine .fault ⟨?_,?_,fun still => ?_,unwound.routines,unwound.direct⟩
    · rw [guards.raised,← guards.calls]
      exact unwound.raised
    · rw [back]
    · rw [back,← guards.line]
      exact unwound.line still
  | halt h => exact .halt h
  | parted h _ allowed => exact .parted h _ allowed

theorem guards_depth (w : World) : Guards (fun left => { left with depth := left.depth - 1 }) w
    { w with depth := w.depth + 1 } := by
  refine ⟨rfl,rfl,rfl,fun _ => rfl,fun left line trace inside => ?_⟩
  rw [inside]
  rfl

theorem guards_running (r : Ref .module) (w : World) : Guards (fun left => { left with running := left.running.tail }) w
      { w with running := r :: w.running } := by
  refine ⟨rfl,rfl,rfl,fun _ => rfl,fun left line trace inside => ?_⟩
  rw [inside]
  rfl

theorem guards_shownLists (r : Ref .list) (w : World) : Guards (fun left => { left with shownLists := left.shownLists.erase r }) w
      { w with shownLists := r :: w.shownLists } := by
  refine ⟨rfl,rfl,rfl,fun _ => rfl,fun left line trace inside => ?_⟩
  rw [inside]
  rw [List.erase_cons_head]

theorem guards_shownDicts (r : Ref .dict) (w : World) : Guards (fun left => { left with shownDicts := left.shownDicts.erase r }) w
      { w with shownDicts := r :: w.shownDicts } := by
  refine ⟨rfl,rfl,rfl,fun _ => rfl,fun left line trace inside => ?_⟩
  rw [inside]
  rw [List.erase_cons_head]

-- The law

theorem Settles.excusing (handles : Fault → Bool) (instead : α) (ends : Settles importless m w (x middle) (y middle)) :
    Settles importless m w (excusing w.trace.size handles instead x middle) (excusing w.trace.size handles instead y middle) := by
  unfold Exec.excusing
  generalize x middle = o, y middle = o' at ends
  cases ends with
  | done a returned => exact .done a returned
  | @fault left e cause opened frames unwound =>
    dsimp only
    split
    · refine .done instead ⟨?_,unwound.line⟩
      rw [unwound.back]
      simp
    · exact .fault unwound
  | halt h => exact .halt h
  | parted h _ allowed => exact .parted h _ allowed

theorem Settles.onFault (loose : ¬ importless) (reword : Fault → Fault)
    (guards : Guards undo w w) (ends : Settles importless m w (x w) (y w)) :
    Settles importless m w (onFault reword undo x w) (onFault reword undo y w) := by
  unfold Exec.onFault
  generalize x w = o, y w = o' at ends
  cases ends with
  | done a returned => exact .done a returned
  | @fault left e cause opened frames unwound =>
    have back := guards.back left _ _ unwound.back
    have reworded : Unwound importless m w (undo left) (reword e) cause opened frames := by
      refine ⟨?_,?_,fun still => ?_,unwound.routines,fun alone => absurd alone loose⟩
      · rw [guards.raised]
        exact unwound.raised
      · rw [back]
      · rw [back]
        exact unwound.line still
    exact .fault reworded
  | halt h => exact .halt h
  | parted _ _ allowed => exact absurd allowed loose

-- Both engines are asked only where calls are not too deep.
def unwinding (importless : Prop) : Accord where
  tidy := False
  rel moving x y := ∀ w, w.depth ≤ w.maxDepth → Settles importless moving w (x w) (y w)
  rel_bind first rest w shallow := .bind (first w shallow) fun a left returned => rest a nofun left (returned.shallow shallow)
  quiet_still still w _ := by
    obtain ⟨a,left,ended⟩ := still w nofun
    rw [ended.ran]
    exact .done a (.of_eq ended.kept)
  quiet_fail e w _ := .fault (.here e)
  quiet_stop h w _ := .halt h
  quiet_setLine line w _ := .done () ⟨rfl,nofun⟩
  rel_setBusy c busy same w shallow := .restoring ⟨rfl,rfl,rfl,fun _ => rfl,fun _ _ _ inside => inside⟩ (same w shallow)
  rel_showingList r same w shallow := by
    rw [showingList,showingList,bind_done (look_apply ..),bind_done (look_apply ..)]
    split
    · exact .done _ (.of_eq rfl)
    · exact .restoring (guards_shownLists r w) (same _ shallow)
  rel_showingDict r same w shallow := by
    rw [showingDict,showingDict,bind_done (look_apply ..),bind_done (look_apply ..)]
    split
    · exact .done _ (.of_eq rfl)
    · exact .restoring (guards_shownDicts r w) (same _ shallow)
  rel_excusing handles _ _ first rest w shallow := by
    rw [bind_done (look_apply ..),bind_done (look_apply ..)]
    refine .bind (first w shallow) fun a left returned => ?_
    rw [← returned.trace]
    exact .excusing handles _ (rest a nofun left (returned.shallow shallow))

namespace Accord

variable [Plainness α] {k k' : Engine}

theorem rel_inModule (r : Ref .module) (same : (unwinding importless).rel m x y) :
    (unwinding importless).rel m (inModule r x) (inModule r y) :=
  fun w shallow => .restoring (guards_running r w) (same _ shallow)

theorem rel_inCode (allowed : importless → c ≠ .module) (same : (unwinding importless).rel true x y) :
    (unwinding importless).rel m (inCode c x) (inCode c y) :=
  fun _ shallow => .inCode allowed (same _ shallow)

theorem rel_inCall (allowed : importless → c ≠ .module) (same : (unwinding importless).rel true x y) :
    (unwinding importless).rel m (inCall c x) (inCall c y) := by
  intro w shallow
  unfold inCall
  split
  · exact .fault (.here _)
  · have deeper : w.depth + 1 ≤ w.maxDepth := by omega
    exact .restoring (guards_depth w) (rel_inCode allowed same _ deeper)

theorem rel_onFault (loose : ¬ importless) (reword : Fault → Fault)
    (guards : ∀ w, Guards undo w w) (same : (unwinding importless).rel m x y) :
    (unwinding importless).rel m (onFault reword undo x) (onFault reword undo y) :=
  fun w shallow => .onFault loose reword (guards w) (same w shallow)

section

variable [(unwinding importless).Engines k k']

theorem rel_runCode (loose : ¬ importless) (r : Ref .module) (code : List Instr) :
    (unwinding importless).rel m (k.runCode r code) (k'.runCode r code) :=
  rel_inModule r (rel_inCode (fun alone => absurd alone loose) (rel_runInstrs r code))

theorem rel_importPath (loose : ¬ importless) (path : String) :
    (unwinding importless).rel m (k.importPath path) (k'.importPath path) := by
  have forgets (w : World) : Guards (fun w => { w with loaded := w.loaded.filter (·.1 != path) }) w w :=
    ⟨rfl,rfl,rfl,fun _ => rfl,fun _ _ _ inside => inside⟩
  exact rel_importing path fun r code => rel_onFault loose id forgets (rel_runCode loose r code)

end

end Accord

def watching (h : Halt) (x : Exec α) : Exec α := fun w =>
  if w.depth ≤ w.maxDepth then x w else .halt h

-- An engine that looks at the depth of calls whenever it is asked for something, and when the code
-- of a function starts.
def watched (h : Halt) : (fuel : Nat) → Engine
  | 0 =>
    { fuel := 0
      call := fun _ _ => stop .outOfFuel
      enter := fun c code => watching h (inCall c (watching h code))
      step := fun _ _ => stop .outOfFuel
      importModule := fun _ => stop .outOfFuel }
  | fuel + 1 =>
    { fuel
      call := fun callee arguments => watching h ((watched h fuel).callValue callee arguments)
      enter := fun c code => watching h (inCall c (watching h code))
      step := fun g item => watching h ((watched h fuel).generatorStep g item)
      importModule := fun path => watching h ((watched h fuel).importPath path) }

def secluded : (fuel : Nat) → Engine
  | 0 =>
    { fuel := 0
      call := fun _ _ => stop .outOfFuel
      enter := inCall
      step := fun _ _ => stop .outOfFuel
      importModule := fun _ => stop .crash }
  | fuel + 1 =>
    { fuel
      call := fun callee arguments => (secluded fuel).callValue callee arguments
      enter := inCall
      step := fun g item => (secluded fuel).generatorStep g item
      importModule := fun _ => stop .crash }

namespace Accord

variable [Plainness α]

theorem rel_watching (h : Halt) (same : (unwinding importless).rel m x y) : (unwinding importless).rel m (watching h x) y := by
  intro w shallow
  rw [watching,if_pos shallow]
  exact same w shallow

instance watched_engine (h : Halt) (fuel : Nat) : (unwinding False).Engines (watched h fuel) (engine fuel) := by
  induction fuel with
  | zero => exact {
      fuel := rfl
      call _ _ := quiet_stop _ _
      step _ := quiet_stop _ _
      importModule _ := quiet_stop _ _
      importBelow _ _ := quiet_stop _ _
      enter function same := rel_watching h (rel_inCall (fun _ => function) (rel_watching h same)) }
  | succ fuel below =>
    have imports {m : Bool} (path : String) := rel_watching h (@rel_importPath _ m _ _ below id path)
    exact {
      fuel := rfl
      call _ _ := rel_watching h (rel_callValue id ..)
      step given := rel_watching h (rel_generatorStep _ given)
      importModule path := imports path
      importBelow reword path :=
        rel_onFault id reword (fun _ => ⟨rfl,rfl,rfl,fun _ => rfl,fun _ _ _ inside => inside⟩) (imports path)
      enter function same := rel_watching h (rel_inCall (fun _ => function) (rel_watching h same)) }

instance secluded_engine (fuel : Nat) : (unwinding True).Engines (secluded fuel) (engine fuel) := by
  have parts {α : Type} [Plainness α] {m : Bool} (h : Halt) (y : Exec α) : (unwinding True).rel m (stop h) y :=
    fun _ _ => .parted h _ trivial
  induction fuel with
  | zero => exact {
      fuel := rfl
      call _ _ := quiet_stop _ _
      step _ := quiet_stop _ _
      importModule _ := parts _ _
      importBelow _ _ := parts _ _
      enter function same := rel_inCall (fun _ => function) same }
  | succ fuel below => exact {
      fuel := rfl
      call _ _ := rel_callValue id ..
      step given := rel_generatorStep _ given
      importModule _ := parts _ _
      importBelow _ _ := parts _ _
      enter function same := rel_inCall (fun _ => function) same }

end Accord

end EmbedScript
