import EmbedScript.Proofs.Datum.Evaluation

/-!
Plain data through their text and back: what `repr` gives, run as a snippet, makes the same tree.
-/

namespace EmbedScript

open Exec Interpreter Compile

-- One expression as a program

namespace Datum

theorem compileProgram_expr (d : Datum) (env : CompileEnv) (plans : Plans) (line : Nat) :
    compileProgram env plans [.mk line (.expr d.expr)] true = .ok ([.mk line (.returns d.code)],plans) := by
  have top : AtModule { scopes := [{ kind := .module, qualname := "<module>" }], line, plans } := ⟨rfl,by simp⟩
  have compiled : Stmt.compileSnippet [.mk line (.expr d.expr)] env
      { scopes := [{ kind := .module, qualname := "<module>" }], plans } =
      .ok ([.mk line (.returns d.code)],{ scopes := [{ kind := .module, qualname := "<module>" }], line, plans }) := by
    rw [Stmt.compileSnippet,bind_ok (modify_apply _),bind_ok (d.compile_expr top)]
    rfl
  simp only [compileProgram,ReaderT.run,StateT.run,if_true,compiled]
  rfl

theorem prepare_text (d : Datum) (writable : d.All Writable) (w : World) :
    prepare d.text true w = .done (.ok [.mk 1 (.returns d.code)]) w := by
  simp only [prepare,d.parse_text writable,compileProgram_expr]

end Datum

variable {v : Value} {w : World}

theorem Engine.runCode_returns (ran : code.eval k ⟨0,#[],m⟩
      { w with running := m :: w.running, calls := .module :: w.calls, line } = .done v left) :
    k.runCode m [.mk line (.returns code)] w =
      .done v { left with running := left.running.tail, calls := left.calls.tail, line := w.line } := by
  have instr : Instr.exec k ⟨0,#[],m⟩ (.mk line (.returns code))
      { w with running := m :: w.running, calls := .module :: w.calls } = .done (.returns v) left := by
    rw [Instr.exec,bind_done (setLine_apply ..),InstrKind.exec,bind_done ran]
    rfl
  have block : k.runInstrs m [.mk line (.returns code)]
      { w with running := m :: w.running, calls := .module :: w.calls } = .done v left := by
    rw [runInstrs,Instr.execBlock,bind_assoc,bind_done instr]
    rfl
  simp only [runCode,inModule,inCode,block]

theorem Interpreter.evalSnippet_done (prepared : prepare source true w = .done (.ok code) w)
    (ran : k.runCode m code w = .done v left) :
    evalSnippet m source w = .done (.ok v) { left with trace := #[] } := by
  have finished : finish (k.runCode m code) w = .done (.ok v) { left with trace := #[] } := by
    have tried : attempt (k.runCode m code) w = .done (.ok v) left := by simp only [attempt,ran]
    rw [finish,bind_done tried]
    rfl
  rw [evalSnippet,Engine.prepareAndRun,bind_done prepared]
  exact finished

-- New modules

namespace World

def knowsSets (w : World) : Bool :=
  (w.prelude.any fun p => (w.heap.module p).globals.get? "set" matches some (.type "set")) &&
  (w.extensions.get? "set" "__new__").isNone &&
  (Signature.resolve HostMethod.signature ((w.types.get? "set").elim [] HostType.constructors) []
    true).any (·.action matches .set .empty)

theorem knowsSets_iff : w.knowsSets ↔ (∃ p, w.prelude = some p ∧
      (w.heap.module p).globals.get? "set" = some (.type "set")) ∧
    w.extensions.get? "set" "__new__" = none ∧
    ∃ chosen, Signature.resolve HostMethod.signature
      ((w.types.get? "set").elim [] HostType.constructors) [] true = some chosen ∧ chosen.action = .set .empty := by
  simp only [knowsSets,Bool.and_eq_true,Option.any_eq_true,Option.isNone_iff_eq_none]
  constructor
  · rintro ⟨⟨⟨p,prelude,named⟩,unextended⟩,chosen,resolved,action⟩
    refine ⟨⟨p,prelude,?_⟩,unextended,chosen,resolved,?_⟩
    · split at named
      · assumption
      · contradiction
    · split at action
      · assumption
      · contradiction
  · rintro ⟨⟨p,prelude,named⟩,unextended,chosen,resolved,action⟩
    exact ⟨⟨⟨p,prelude,by simp [named]⟩,unextended⟩,chosen,resolved,by simp [action]⟩

theorem construct_set (k : Engine) (unextended : w.extensions.get? "set" "__new__" = none)
    (resolved : Signature.resolve HostMethod.signature ((w.types.get? "set").elim [] HostType.constructors) [] true = some chosen)
    (action : chosen.action = .set .empty) : k.construct "set" [] w = newSet {} w := by
  have extension : extension? "set" "__new__" w = .done none w := by rw [extension?,look_apply,unextended]
  rw [Engine.construct,bind_done extension]
  simp only [bind_done (look_apply ..),List.map_nil,resolved,action]
  rfl

theorem makesSets_newModule (knows : w.knowsSets) (name : String) :
    ∃ m left, newModule name w = .done m left ∧ w.heap.Extends left.heap ∧ ∀ line, MakesSets k ⟨0,#[],m⟩
        { left with running := m :: left.running, calls := .module :: left.calls, line } := by
  obtain ⟨⟨p,prelude,named⟩,unextended,chosen,resolved,action⟩ := knowsSets_iff.mp knows
  let info : ModuleInfo := ⟨name,(w.heap.module p).globals.insert "__name__" (.str name)⟩
  have made : newModule name w = .done ⟨w.heap.modules.size⟩
      { w with heap := { w.heap with modules := w.heap.modules.push info } } := by
    refine (bind_done ?_ _).trans rfl
    rw [look_apply,prelude]
  refine ⟨_,_,made,⟨id,id,id⟩,fun line => ⟨fun w' grown => ?_,fun w' grown => ?_⟩⟩
  · have found : (w'.heap.module ⟨w.heap.modules.size⟩).globals.get? "set" = some (.type "set") := by
      rw [Heap.module,grown.modules]
      simp [info,OrderedMap.get?_insert_of_ne,named]
    simp only [Frame.readGlobal,Frame.global?,bind_done (heap_apply ..),found]
    rfl
  · rw [grown.rest]
    refine construct_set (engine (amply - 1)) ?_ ?_ action
    · exact unextended
    · exact resolved

end World

-- Nothing is being shown when `repr` is asked for the text.
theorem repr_then_eval {w : World} {v : Value} {d : Datum} (shown : Shows w.heap v d)
    (writable : d.All Datum.Writable) (lists : w.shownLists = []) (dicts : w.shownDicts = [])
    (knows : w.knowsSets) (name : String) :
    (∃ text, (∀ k : Engine, d.depth < k.fuel → k.repr v w = .done text w) ∧
      ∃ v' w', (do Interpreter.evalSnippet (← newModule name) text) w = .done (.ok v') w' ∧
        Shows w'.heap v' d ∧ Shows w'.heap v d) ∧
    ∀ text, tokenize (Text.quoted text) =
      .ok [.mk ⟨1, none, [.str text ⟨1, false⟩]⟩ none []] := by
  constructor
  · refine ⟨d.text, fun k enough => ?_, ?_⟩
    · refine shown.textFrom k k.fuel enough ⟨?_, ?_⟩
      · simp [lists]
      · simp [dicts]
    · obtain ⟨m, left, made, kept, makes⟩ := World.makesSets_newModule knows name
      obtain ⟨v', w', ran, read, grown⟩ := d.eval_code shown.keyed _ (makes 1)
      have finished := Interpreter.evalSnippet_done (d.prepare_text writable left)
        (Engine.runCode_returns ran)
      exact ⟨v', _, (Exec.bind_done made _).trans finished, read,
        shown.mono (kept.trans grown.heap)⟩
  · intro text
    have whole := (Datum.str text).tokenize_text trivial
    rwa [Datum.text, Datum.chars, String.ofList_toList] at whole

def bareConfig : Config := { prelude := some "prelude", disk := .answers [("prelude",.ok "")] }

def bareWorld : World :=
  match start bareConfig (initial bareConfig) with
  | .done _ w => w
  | _ => initial bareConfig

-- `({True: [-5, "it's", set()]}, [-5, "it's", set()])`, whose two parts share the list.
def sharingWorld : World := { bareWorld with heap := { bareWorld.heap with
      lists := #[#[.int (-5),.str "it's",.set ⟨0⟩]]
      sets := #[{}]
      dicts := #[⟨⟨#[(.atom (.int 1),.bool true,.list ⟨0⟩)]⟩⟩] } }

theorem repr_then_eval_sharing : ∃ text,
    (∀ k : Engine, 4 < k.fuel →
      k.repr (.tuple 0 [.dict ⟨0⟩, .list ⟨0⟩]) sharingWorld = .done text sharingWorld) ∧
    ∃ v' w', (do Interpreter.evalSnippet (← newModule "m") text) sharingWorld =
        .done (.ok v') w' ∧
      Shows w'.heap v' (.tuple [.dict [.mk (.bool true) (.list [.int (-5), .str "it's", .set []])],
        .list [.int (-5), .str "it's", .set []]]) := by
  have items : Shows sharingWorld.heap (.list ⟨0⟩) (.list [.int (-5), .str "it's", .set []]) :=
    .list rfl (.cons (.int _) (.cons (.str _) (.cons (.set rfl .nil List.nodup_nil) .nil)))
  have entry : Shows sharingWorld.heap (.dict ⟨0⟩)
      (.dict [.mk (.bool true) (.list [.int (-5), .str "it's", .set []])]) :=
    .dict rfl (.cons rfl (.bool true) items .nil) (by decide +kernel)
  have shown := @Shows.tuple _ 0 _ _ (.cons entry (.cons items .nil))
  obtain ⟨⟨text, written, v', w', ran, read, _⟩, _⟩ :=
    repr_then_eval shown (by simp [Datum.All, Datum.Each, Datum.EachOf, Datum.Writable])
      (by decide +kernel) (by decide +kernel) (by decide +kernel) "m"
  exact ⟨text, written, v', w', ran, read⟩

end EmbedScript
