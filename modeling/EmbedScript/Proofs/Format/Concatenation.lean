import EmbedScript.Proofs.Format.Interpolation
import EmbedScript.Proofs.Keyword.Confined

namespace EmbedScript

open Exec Typed

variable {names : List Code} {fields : List Field} {w : World}

namespace Field

-- The code of the sum

def sumCode (code : Code) (fields : List Field) (names : List Code) : Code := (fields.zip names).foldl
    (fun code (f,name) => .binary .add (.binary .add code (.format name)) (.literal (.str f.text))) code

section Compiling

open Compile

variable {env : CompileEnv} {st left : CompileState}

-- A sum is bound early only where both operands are known to be texts.
theorem compile_add {kind kind' : Bool → Kind}
    (first : ∀ typed, l.compile typed env st = .ok (⟨kind typed,a⟩,middle))
    (second : ∀ typed, r.compile typed env middle = .ok (⟨kind' typed,b⟩,left))
    (unknown : kind true = .dynamic ∨ kind' true = .dynamic) (typed : Bool) :
    (Expr.binary .add l r).compile typed env st = .ok (dynamic (.binary .add a b),left) := by
  cases typed with
  | false =>
    rw [Expr.compile_binary_untyped,bind_ok isTyped_apply,bind_ok (first _),bind_ok (second _)]
    rfl
  | true =>
    have late : binary .add ⟨kind true,a⟩ ⟨kind' true,b⟩ = dynamic (.binary .add a b) := by
      unfold binary
      by_cases same : kind true = kind' true
      · rcases unknown with none' | none' <;> simp [none',same ▸ none',scalarResult]
      · simp [same]
    rw [Expr.compile_binary_typed,bind_ok isTyped_apply,bind_ok (first true),bind_ok (second true),late]
    rfl

theorem compile_field {code} (read : e.operand env st = .ok (code,left)) (typed : Bool) :
    (Expr.format e).compile typed env st = .ok (dynamic (.format code),left) := by
  rw [Expr.operand,bind_ok isTyped_apply] at read
  obtain ⟨found,after,compiled,read⟩ := bind_eq_ok read
  cases read
  exact (bind_ok isTyped_apply _).trans (bind_ok compiled _)

-- By induction on the fields: only the first text has a kind of its own.
theorem compile_summands {e : Expr} {code}
    {kind : Bool → Kind} (start : ∀ typed, e.compile typed env st = .ok (⟨kind typed,code⟩,middle))
    (read : fields.mapM (fun f => (Expr.name f.name).operand) env middle = .ok (names,left)) (typed : Bool) :
    ∃ kind, (fields.foldl
        (fun e f => .binary .add (.binary .add e (.format (.name f.name))) (.str f.text)) e).compile typed env st =
      .ok (⟨kind,sumCode code fields names⟩,left) := by
  induction fields generalizing e code kind middle names with
  | nil =>
    cases read
    exact ⟨kind typed,start typed⟩
  | cons f fields ih =>
    rw [List.mapM_cons] at read
    obtain ⟨name,after,compiled,read⟩ := bind_eq_ok read
    obtain ⟨others,last,further,read⟩ := bind_eq_ok read
    cases read
    have field := compile_add start (compile_field compiled) (.inr rfl)
    have text (typed : Bool) : (Expr.str f.text).compile typed env after =
        .ok (⟨if typed then .str else .dynamic,.literal (.str f.text)⟩,after) := rfl
    exact ih (compile_add field text (.inl rfl)) further

theorem compile_sum (first : String)
    (read : fields.mapM (fun f => (Expr.name f.name).operand) env st = .ok (names,left)) (typed : Bool) :
    ∃ kind, (sum first fields).compile typed env st = .ok (⟨kind,sumCode (.literal (.str first)) fields names⟩,left) := by
  have text (typed : Bool) : (Expr.str first).compile typed env st =
      .ok (⟨if typed then .str else .dynamic,.literal (.str first)⟩,st) := rfl
  exact compile_summands text read typed

end Compiling

-- Its value

/-- Where `P` holds, the codes read the values of the fields and texts are joined as they are; asking
one of the values for its text keeps `P`. -/
structure Bound (k : Engine) (frame : Frame) (fields : List Field) (names : List Code) (P : World → Prop) :
    Prop where
  reads : List.Forall₂ (fun f name => ∀ w, P w → Code.eval k frame name w = .done f.value w) fields names
  kept : ∀ f ∈ fields, ∀ w text left, P w → k.str f.value w = .done text left → P left
  plain : ∀ w, P w → w.extensions.get? "str" "__add__" = none

variable {frame : Frame} {k : Engine}

theorem binary_texts (plain : w.extensions.get? "str" "__add__" = none)
    (a b : String) : k.binary .add (.str a) (.str b) w = .done (.str (a ++ b)) w := by
  have silent : k.scriptBinary .add (.str a) (.str b) w = .done none w := by
    have found : extension? (Value.str a).typeKey BinaryOp.add.hook w = .done none w := by
      rw [← plain]
      rfl
    simp only [Engine.scriptBinary,pure_bind,Option.isSome_none,Bool.false_eq_true,if_false]
    rw [bind_done found]
    rfl
  rw [Engine.binary.eq_def,bind_done silent]
  rfl

theorem eval_add {Y : Exec String} (first : l.eval k frame w = (Value.str <$> X) w)
    (second : ∀ a left, X w = .done a left → r.eval k frame left = (Value.str <$> Y) left)
    (plain : ∀ a b left last, X w = .done a left → Y left = .done b last → last.extensions.get? "str" "__add__" = none) :
    (Code.binary .add l r).eval k frame w = (Value.str <$> (X >>= fun a => (a ++ ·) <$> Y)) w := by
  have inner {a left} (started : X w = .done a left) :
      (r.eval k frame >>= k.binary .add (.str a)) left = (Y >>= fun b => pure (.str (a ++ b))) left := by
    calc (r.eval k frame >>= k.binary .add (.str a)) left
      _ = ((Value.str <$> Y) >>= k.binary .add (.str a)) left := bind_eq (second a left started) fun _ _ _ => rfl
      _ = (Y >>= fun b => k.binary .add (.str a) (.str b)) left := by rw [bind_map_left]
      _ = (Y >>= fun b => pure (.str (a ++ b))) left :=
        bind_eq rfl fun b last ended => binary_texts (plain a b left last started ended) a b
  calc (Code.binary .add l r).eval k frame w
    _ = (l.eval k frame >>= fun left => r.eval k frame >>= k.binary .add left) w := by rw [Code.eval]
    _ = ((Value.str <$> X) >>= fun left => r.eval k frame >>= k.binary .add left) w := bind_eq first fun _ _ _ => rfl
    _ = (X >>= fun a => r.eval k frame >>= k.binary .add (.str a)) w := by rw [bind_map_left]
    _ = (X >>= fun a => Y >>= fun b => pure (.str (a ++ b))) w := bind_eq rfl fun a left started => inner started
    _ = (Value.str <$> (X >>= fun a => (a ++ ·) <$> Y)) w := by simp only [map_eq_pure_bind,bind_assoc,pure_bind]

theorem eval_sumCode (bound : Bound k frame fields names P) {code}
    (before : code.eval k frame w = (Value.str <$> X) w) (stays : ∀ text left, X w = .done text left → P left) :
    (sumCode code fields names).eval k frame w = (Value.str <$> (X >>= (k.concatenate · fields))) w := by
  obtain ⟨reads,kept,plain⟩ := bound
  induction reads generalizing code X with
  | nil =>
    have done : (X >>= (k.concatenate · [])) = X := bind_pure X
    rw [done]
    exact before
  | @cons f name fields names read _ ih =>
    have asked {a left} (started : X w = .done a left) :
        (Code.format name).eval k frame left = (Value.str <$> k.str f.value) left := by
      rw [Code.eval,bind_done (read left (stays a left started)),map_eq_pure_bind]
    have after {a b left last} (started : X w = .done a left)
        (ended : k.str f.value left = .done b last) : P last :=
      kept f (.head _) left b last (stays a left started) ended
    have field := eval_add before (fun a left started => asked started)
      fun a b left last started ended => plain last (after started ended)
    have holds {c last} (ran : (X >>= fun a => (a ++ ·) <$> k.str f.value) w = .done c last) :
        P last := by
      obtain ⟨a,left,started,ran⟩ := bind_eq_done ran
      obtain ⟨b,middle,ended,ran⟩ := bind_eq_done ran
      cases ran
      exact after started ended
    have text := eval_add (r := .literal (.str f.text)) (Y := pure f.text) field (fun _ _ _ => rfl)
      fun c d left last ran ended => by
        cases ended
        exact plain left (holds ran)
    have whole := ih text ?_ fun g mem => kept g (.tail _ mem)
    · refine whole.trans ?_
      simp only [Engine.concatenate,map_eq_pure_bind,bind_assoc,pure_bind]
    · intro c last ran
      obtain ⟨b,left,ran,ended⟩ := bind_eq_done ran
      cases ended
      exact holds ran

end Field

theorem invokeMember_format (k : Engine) (text : String) (arguments : List Value)
    (standard : w.types.get? "str" = some Standard.strType) :
    k.invokeMember (.str text) "str" "format" false arguments w = (Value.str <$> k.formatTemplate text arguments) w := by
  have found : Signature.resolve HostMethod.signature (Standard.strType.methodsNamed "format" false)
      (arguments.map Value.kind) false = some (Standard.variadic "format" .str (.text .format)) := by
    have only : Standard.strType.methodsNamed "format" false = [Standard.variadic "format" .str (.text .format)] := by rfl
    rw [only]
    rfl
  rw [Engine.invokeMember,bind_done (look_apply ..),standard]
  simp only [Option.elim_some,found]
  rw [map_eq_pure_bind]
  rfl

/-- A formatted literal is read as the sum of its texts and fields, and gives the texts with those
of the values between them. So does the template, as long as the last value is no keyword. -/
theorem formatting_concatenates {quote : Char} (mark : quote = '\'' ∨ quote = '"') (first : String)
    {fields : List Field} (named : ∀ f ∈ fields, IsOrdinary f.name) :
    parse (String.ofList (Field.literal quote first fields)) = .ok [.mk 1 (.expr (Field.sum first fields))] ∧
    (∀ nesting s rest, s.Steady → rest.head? ≠ some quote →
      Lexer.entries (Lexer.tokenizeWithin (nesting + 1)) s (Field.literal quote first fields ++ rest) =
        Lexer.entries (Lexer.tokenizeWithin (nesting + 1)) (s.put [Field.token first fields ⟨s.line, false⟩]) rest) ∧
    (∀ depth here line, Run.operand (Run.within (depth + 2)) [Field.token first fields ⟨here, false⟩] line =
      .ok (Field.sum first fields)) ∧
    (∀ env st names left, fields.mapM (fun f => (Expr.name f.name).operand) env st = .ok (names, left) →
      ∀ typed, ∃ compiled, (Field.sum first fields).compile typed env st = .ok (compiled, left) ∧
        ∀ k frame P, Field.Bound k frame fields names P → ∀ w, P w →
          compiled.code.eval k frame w = (Value.str <$> k.concatenate first fields) w) ∧
    ∀ k w, w.types.get? "str" = some Standard.strType →
      (∀ v ∈ (fields.map Field.value).getLast?, v.isKeyword = false) →
      Engine.invokeMember k (.str (Field.template first fields)) "str" "format" false (fields.map Field.value) w =
        (Value.str <$> k.concatenate first fields) w := by
  refine ⟨Field.parse_literal mark first named, fun nesting s rest steady ended => ?_, fun depth here line => ?_,
    fun env st names left read typed => ?_, fun k w standard positional => ?_⟩
  · exact Field.entries_literal mark first named nesting steady ended
  · exact Field.operand_token first named depth here
  · obtain ⟨kind, compiled⟩ := Field.compile_sum first read typed
    refine ⟨_, compiled, fun k frame P bound w holds => ?_⟩
    have start : (Code.literal (.str first)).eval k frame w = (Value.str <$> (pure first : Exec String)) w := rfl
    have whole := Field.eval_sumCode bound start fun text left ran => by
      cases ran
      exact holds
    rwa [pure_bind] at whole
  · rw [invokeMember_format k _ _ standard, k.formatTemplate_template first fields positional]

def bracedFields : List Field := [⟨"x",.int 5,"'"⟩,⟨"y",.str "b","\x7d"⟩]

def bracedWorld : World := { Interpreter.initial {} with heap :=
      { modules := #[{ name := "main", globals := ⟨#[("x",.int 5),("y",.str "b")]⟩ }] } }

theorem formatting_concatenates_braced :
    parse "f'a\x7b\x7b\x7bx\x7d\\'\x7by\x7d\x7d\x7d'" = .ok [.mk 1 (.expr (Field.sum "a\x7b" bracedFields))] ∧
    (∃ compiled, (Field.sum "a\x7b" bracedFields).compile false ⟨Standard.types, {}⟩
        { scopes := [{ kind := .module, qualname := "<module>" }] } =
          .ok (compiled, { scopes := [{ kind := .module, qualname := "<module>" }] }) ∧
      compiled.code.eval Interpreter.k ⟨0, #[], ⟨0⟩⟩ bracedWorld = .done (.str "a\x7b5'b\x7d") bracedWorld) ∧
    Interpreter.k.invokeMember (.str "a\x7b\x7b\x7b\x7d'\x7b\x7d\x7d\x7d") "str" "format" false [.int 5, .str "b"]
      bracedWorld = .done (.str "a\x7b5'b\x7d") bracedWorld := by
  have named : ∀ f ∈ bracedFields, IsOrdinary f.name := by
    intro f member
    simp only [bracedFields, List.mem_cons, List.not_mem_nil, or_false] at member
    rcases member with rfl | rfl <;> exact ⟨by decide, by decide, by decide, by decide⟩
  have shown : Interpreter.k.str (.int 5) bracedWorld = .done "5" bracedWorld ∧
      Interpreter.k.str (.str "b") bracedWorld = .done "b" bracedWorld := ⟨rfl, rfl⟩
  have joined : (Value.str <$> Interpreter.k.concatenate "a\x7b" bracedFields) bracedWorld =
      .done (.str "a\x7b5'b\x7d") bracedWorld := by
    simp only [map_eq_pure_bind, bracedFields, Engine.concatenate, bind_assoc]
    rw [Exec.bind_done shown.1, Exec.bind_done shown.2]
    rfl
  have read {name : String} {v : Value} (found : (bracedWorld.heap.module ⟨0⟩).globals.get? name = some v) :
      (Code.global name).eval Interpreter.k ⟨0, #[], ⟨0⟩⟩ bracedWorld = .done v bracedWorld := by
    have taken : Frame.global? ⟨0, #[], ⟨0⟩⟩ name bracedWorld = .done (some v) bracedWorld := by
      rw [← found]
      rfl
    rw [Code.eval, Frame.readGlobal, Exec.bind_done taken]
    rfl
  have bound : Field.Bound Interpreter.k ⟨0, #[], ⟨0⟩⟩ bracedFields [.global "x", .global "y"] (· = bracedWorld) := by
    refine ⟨.cons ?_ (.cons ?_ .nil), ?_, ?_⟩
    · rintro _ rfl
      exact read (by simp [bracedWorld, Heap.module, OrderedMap.get?])
    · rintro _ rfl
      exact read (by simp [bracedWorld, Heap.module, OrderedMap.get?])
    · rintro f member _ text left rfl ran
      simp only [bracedFields, List.mem_cons, List.not_mem_nil, or_false] at member
      rcases member with rfl | rfl
      · cases shown.1.symm.trans ran
        rfl
      · cases shown.2.symm.trans ran
        rfl
    · rintro _ rfl
      rfl
  obtain ⟨parsed, -, -, compiles, template⟩ := formatting_concatenates (.inl rfl) "a\x7b" named
  obtain ⟨compiled, compiles, evaluates⟩ := compiles ⟨Standard.types, {}⟩
    { scopes := [{ kind := .module, qualname := "<module>" }] } [.global "x", .global "y"] _ rfl false
  refine ⟨?_, ⟨compiled, compiles, ?_⟩, ?_⟩
  · exact parsed
  · exact (evaluates _ _ _ bound _ rfl).trans joined
  · exact (template Interpreter.k bracedWorld rfl (by decide)).trans joined

-- A keyword that was bound to a name has a text, but behind the other arguments it is none of them.
theorem keyword_unformatted :
    (Request.serve Interpreter.k (.runSource "main"
        "d = \x7b\x7d\nx = d.get('k', v=5)\nprint(f'\x7bx\x7d')\n") shallowWorld).result?.map (·.2.output) =
      some "v=5\n" ∧
    (Request.serve Interpreter.k (.runSource "main"
        "d = \x7b\x7d\nx = d.get('k', v=5)\nprint('\x7b\x7d'.format(x))\n") shallowWorld).error?.map Prod.fst =
      some (.index "Replacement index 0 out of range") := by
  decide +kernel

end EmbedScript
