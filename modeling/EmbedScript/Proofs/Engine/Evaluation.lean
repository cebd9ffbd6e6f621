import EmbedScript.Proofs.Engine.Flow
import EmbedScript.Proofs.Engine.Members

/-!
Code on two engines. Only statements move on from line to line.
-/

set_option linter.unusedSectionVars false

namespace EmbedScript

open Engine Heap

theorem prepare_still (source : String) (snippet : Bool) (w : World) : ∃ code left,
    prepare source snippet w = .done code left ∧ left.toBookkeeping = w.toBookkeeping ∧ left.heap = w.heap := by
  unfold prepare
  repeat' split
  all_goals exact ⟨_,_,rfl,rfl,rfl⟩

theorem prepare_grows
    (prepared : prepare source false w = .done code left) : w.Grows left := by
  unfold prepare at prepared
  split at prepared
  · cases prepared
    exact .refl w
  · split at prepared
    · cases prepared
      exact .refl w
    case _ program _ code plans compiled =>
      cases prepared
      exact ⟨.of_eq rfl rfl rfl,(compileProgram_confined compiled).2.elements⟩

namespace Accord

open Exec

variable {A : Accord} [A.Engines k k'] (f : Frame)

-- Values and names

@[simp] theorem plain_literal (l : Literal) : plain l.value := by cases l <;> rfl

variable (kind : Kind) (path : String) (index : Nat) (name : String)

@[grind ←] theorem quiet_expect (v : Value) : A.Quiet m (kind.expect v) := by
  unfold Kind.expect
  split <;> grind

@[grind ←] theorem quiet_coerce (what : String) (given : A.Plain v) : A.Quiet m (kind.coerce what v) := by
  unfold Kind.coerce
  split
  · exact .pure given
  · split <;> grind

theorem plain_widenArguments (widened : List Bool) (given : plain vs) : plain (widenArguments vs widened) := by
  fun_induction widenArguments vs widened with
  | case1 n vs widened ih => exact plain_cons.mpr ⟨rfl,ih (plain_cons.mp given).2⟩
  | case2 v vs _ widened _ ih =>
    rw [plain_cons] at given ⊢
    exact ⟨given.1,ih given.2⟩
  | case3 => rfl

@[grind ←] theorem quiet_global? : A.Quiet m (f.global? name) := .heap fun _ state => OrderedMap.plain_get? (plain_module state _)

@[grind ←] theorem quiet_readGlobal : A.Quiet m (f.readGlobal name) := by
  refine .bind (quiet_global? f name) fun v _ => ?_
  split <;> grind

@[grind ←] theorem quiet_readSlot (inClass : Bool) : A.Quiet m (f.readSlot index name inClass) := by
  refine .bind (.heap fun _ state => plain_cell state _) fun v _ => ?_
  split
  · grind
  · refine .bind (quiet_global? f name) fun v _ => ?_
    split <;> grind

@[grind ←] theorem quiet_readCaptured : A.Quiet m (f.readCaptured index name) := by
  refine .bind (.heap fun _ state => plain_cell state _) fun v _ => ?_
  split <;> grind

@[grind ←] theorem quiet_readSuper (cls : CellAt) (receiver : Nat) : A.Quiet m (f.readSuper cls receiver) := by
  refine .bind (.heap fun _ state => plain_cell state _) fun cls _ => ?_
  refine .bind (.heap fun _ state => plain_cell state _) fun receiver known => ?_
  split
  · exact .bind .newTag fun _ _ => .pure known
  · exact .fail _

@[grind ←] theorem quiet_newRoutine (plan : Nat) : A.Quiet m (f.newRoutine plan) := by
  refine .bind (.look fun _ _ => plain_maybe) fun routine _ => ?_
  split <;> grind

@[grind ←] theorem quiet_newFrame (slots : Nat) (captures : Array (Ref .cell))
    (home : Ref .module) : A.Quiet m (newFrame slots captures home) :=
  .map (.newCells slots) fun _ => rfl

@[grind ←] theorem rel_mergeMapping (old : A.Plain d)
    (given : A.Plain mapping) : A.rel m (k.mergeMapping d mapping) (k'.mergeMapping d mapping) := by
  unfold mergeMapping
  split
  · exact .bind (.heap fun _ state => Dict.plain_items (plain_dict state _)) fun _ known =>
      .lift fun tidy => Dict.plain_insertItems (old tidy) (known tidy)
  · refine .bind (rel_callMethod _ given fun _ => rfl) fun keys known => ?_
    refine .bind (rel_items known) fun keys known => .foldlM known old fun d key kept known => ?_
    exact .bind (rel_getItem given known) fun _ value => .lift fun tidy => Dict.plain_insert (kept tidy) (known tidy) (value tidy)
  · grind

@[grind ←] theorem rel_decorate (given : A.Plain decorators)
    (decorated : A.Plain v) : A.rel m (k.decorate decorators v) (k'.decorate decorators v) :=
  .foldrM given decorated fun _ _ decorator known => Engines.call decorator known.one

@[grind ←] theorem quiet_dictOfPairs (given : A.Plain vs) : A.Quiet m (dictOfPairs vs) := by
  refine .bind (.foldlM given (fun _ => rfl) fun d pair kept known => ?_) fun _ => .newDict
  split
  · have parts := Plain.cons.mp (known.imp Value.plain_tuple.symm.trans)
    have value := (Plain.cons.mp parts.2).1
    exact .lift fun tidy => Dict.plain_insert (kept tidy) (parts.1 tidy) (value tidy)
  · exact .pure kept

@[grind ←] theorem rel_collectInto (kind : Collection) (given : A.Plain v) :
    A.rel m (k.collectInto kind v) (k'.collectInto kind v) := by
  cases kind with
  | generator => exact .pure given
  | list => exact .bind (rel_items given) fun _ => .newList
  | set => exact .bind (rel_items given) fun _ known => .bind (.lift (known.imp ValueSet.plain_ofValues)) fun _ => .newSet
  | dict => exact .bind (rel_items given) fun _ => quiet_dictOfPairs

-- What goes on with keyword arguments has to cope with them.
theorem rel_keywordArguments [Plainness α] {entries} {y : List Value → Exec α} (given : A.Plain entries)
    (rest : ∀ vs, A.Fit vs → A.rel m (x vs) (y vs)) :
    A.rel m (keywordArguments entries >>= x) (keywordArguments entries >>= y) := by
  fun_induction keywordArguments entries generalizing x y with
  | case1 => exact rest [] fun _ => rfl
  | case2 name v entries ih =>
    rw [Plain.cons,Plain.pair] at given
    simp only [bind_assoc]
    exact .bind .newTag fun _ _ => ih given.2 fun _ known => rest _ fun tidy => fit_cons.mpr ⟨given.1.2 tidy,known tidy⟩
  | case3 => exact .fail _

mutual

@[grind ←] theorem rel_eval (code : Code) : A.rel m (code.eval k f) (code.eval k' f) := by
  match code with
  | .literal l => exact .pure fun _ => plain_literal l
  | .slot i name inClass => exact quiet_readSlot ..
  | .captured i name => exact quiet_readCaptured ..
  | .global name => exact quiet_readGlobal ..
  | .format value =>
    exact .bind (rel_eval value) fun v known => .map (rel_str known) fun _ => rfl
  | .tuple items => exact .bind (rel_evalItems items) fun _ => .newTuple
  | .list items => exact .bind (rel_evalItems items) fun _ => .newList
  | .set items =>
    exact .bind (rel_evalItems items) fun _ known => .bind (.lift (known.imp ValueSet.plain_ofValues))
      fun _ => .newSet
  | .dict entries => exact .bind (rel_evalEntries entries fun _ => rfl) fun _ => .newDict
  | .binary op left right =>
    exact .bind (rel_eval left) fun _ first => .bind (rel_eval right) fun _ second =>
      rel_binary op first second
  | .unary op operand => exact .bind (rel_eval operand) fun _ => rel_unary op
  | .not operand =>
    exact .bind (rel_eval operand) fun _ known => .map (rel_truthy known) fun _ => rfl
  | .and left right =>
    refine .bind (rel_eval left) fun first known => .bind (rel_truthy known) fun holds _ => ?_
    cases holds with
    | true => exact rel_eval right
    | false => exact .pure known
  | .or left right =>
    refine .bind (rel_eval left) fun first known => .bind (rel_truthy known) fun holds _ => ?_
    cases holds with
    | true => exact .pure known
    | false => exact rel_eval right
  | .identity negated left right =>
    exact .bind (rel_eval left) fun _ _ => .bind (rel_eval right) fun _ _ =>
      .map (.heap fun _ _ => rfl) fun _ => rfl
  | .membership negated item container =>
    exact .bind (rel_eval item) fun _ first => .bind (rel_eval container) fun _ second =>
      .map (rel_contains second first) fun _ => rfl
  | .ternary condition yes no =>
    refine .bind (rel_eval condition) fun v known => .bind (rel_truthy known) fun holds _ => ?_
    cases holds with
    | true => exact rel_eval yes
    | false => exact rel_eval no
  | .attribute object name => exact .bind (rel_eval object) fun _ => rel_getAttr name
  | .index object place =>
    exact .bind (rel_eval object) fun _ first => .bind (rel_eval place) fun _ =>
      rel_getItem first
  | .slice object start stop step =>
    refine .bind (quiet_readGlobal ..) fun slice callee => ?_
    refine .bind (rel_eval object) fun object known => ?_
    refine .bind (rel_eval start) fun start first => ?_
    refine .bind (rel_eval stop) fun stop second => .bind (rel_eval step) fun step third => ?_
    refine Engines.call callee fun tidy => fit_of_plain ?_
    simp [known tidy,first tidy,second tidy,third tidy]
  | .call callee arguments =>
    exact .bind (rel_eval callee) fun _ known => rel_evalArguments arguments fun _ =>
      Engines.call known
  | .routine plan => exact quiet_newRoutine ..
  | .comprehension kind source plan =>
    refine .bind (rel_eval source) fun source known => ?_
    refine .bind (.look fun _ _ => plain_maybe) fun element _ => ?_
    cases element with
    | none => exact .stop _
    | some element => exact .bind (.newGenerator known) fun _ => rel_collectInto kind
  | .convert value target =>
    exact .bind (rel_eval value) fun _ given => .bind (rel_eval target) fun _ known =>
      Engines.call known given.one
  | .cast value target =>
    exact .bind (rel_eval value) fun _ first => .bind (rel_eval target) fun _ _ =>
      quiet_castValue _ first
  | .super cls receiver => exact quiet_readSuper ..
  | .decorated decorators definition =>
    exact .bind (rel_evalAll decorators) fun _ given => .bind (rel_eval definition) fun _ =>
      rel_decorate given
  | .expect kind value => exact .bind (rel_eval value) fun _ _ => quiet_expect ..
  | .coerce kind what value => exact .bind (rel_eval value) fun _ => quiet_coerce kind what
  | .scalar kind op left right =>
    exact .bind (rel_eval left) fun _ _ => .bind (rel_eval right) fun _ _ =>
      .lift fun _ => plain_onScalars ..
  | .scalarUnary kind op operand =>
    exact .bind (rel_eval operand) fun _ known => .lift (known.imp (plain_onScalar op))
  | .property access object => exact .bind (rel_eval object) fun _ => quiet_read access
  | .invoke action receiver arguments widened =>
    refine .bind (rel_eval receiver) fun receiver owner => ?_
    refine .bind (rel_evalAll arguments) fun vs known => ?_
    have given := known.imp (plain_widenArguments widened)
    exact rel_perform action owner fun tidy => ⟨fit_of_plain (given tidy),proper_of_plain (given tidy)⟩
  | .construct action key value =>
    refine .bind (rel_eval value) fun v known => ?_
    exact rel_perform action (fun _ => rfl) fun tidy =>
      ⟨known.one tidy,proper_of_plain (plain_cons.mpr ⟨known tidy,plain_nil⟩)⟩
  | .type key => exact .pure fun _ => rfl

@[grind ←] theorem rel_evalAll (codes : List Code) :
    A.rel m (Code.evalAll k f codes) (Code.evalAll k' f codes) := by
  match codes with
  | [] => exact .pure fun _ => rfl
  | code :: codes =>
    exact .bind (rel_eval code) fun _ first => .bind (rel_evalAll codes) fun _ rest =>
      .pure (Plain.cons.mpr ⟨first,rest⟩)

theorem rel_evalItems (items : List ItemCode) :
    A.rel m (Code.evalItems k f items) (Code.evalItems k' f items) := by
  match items with
  | [] => exact .pure fun _ => rfl
  | .one value :: items =>
    exact .bind (rel_eval value) fun _ first => .bind (rel_evalItems items) fun _ rest =>
      .pure (Plain.cons.mpr ⟨first,rest⟩)
  | .spread value :: items =>
    exact .bind (rel_eval value) fun _ known => .bind (rel_items known) fun _ first =>
      .bind (rel_evalItems items) fun _ rest => .pure fun tidy => plain_append.mpr ⟨first tidy,rest tidy⟩

theorem rel_evalEntries (entries : List EntryCode) (old : A.Plain d) :
    A.rel m (Code.evalEntries k f d entries) (Code.evalEntries k' f d entries) := by
  match entries with
  | [] => exact .pure old
  | .pair key value :: entries =>
    exact .bind (rel_eval key) fun _ first => .bind (rel_eval value) fun _ second =>
      .bind (.lift fun tidy => Dict.plain_insert (old tidy) (first tidy) (second tidy)) fun _ =>
      rel_evalEntries entries
  | .unpack value :: entries =>
    exact .bind (rel_eval value) fun _ known => .bind (rel_mergeMapping old known) fun _ =>
      rel_evalEntries entries

theorem rel_evalArguments [Plainness α] (arguments : List ArgCode)
    {y : List Value → Exec α} (rest : ∀ vs, A.Fit vs → A.rel m (x vs) (y vs)) :
    A.rel m (Code.evalArguments k f arguments >>= x) (Code.evalArguments k' f arguments >>= y) := by
  match arguments with
  | [] => exact rest [] fun _ => rfl
  | .positional value :: arguments =>
    unfold Code.evalArguments
    simp only [bind_assoc,pure_bind]
    exact .bind (rel_eval value) fun _ first => rel_evalArguments arguments fun _ known =>
      rest _ fun tidy => fit_cons.mpr ⟨isArgument_of_plain (first tidy),known tidy⟩
  | .keyword name value :: arguments =>
    unfold Code.evalArguments
    simp only [bind_assoc,pure_bind]
    exact .bind (rel_eval value) fun _ first => .bind .newTag fun _ _ =>
      rel_evalArguments arguments fun _ known => rest _ fun tidy =>
      fit_cons.mpr ⟨first tidy,known tidy⟩
  | .star value :: arguments =>
    unfold Code.evalArguments
    simp only [bind_assoc,pure_bind]
    exact .bind (rel_eval value) fun _ known => .bind (rel_items known) fun _ first =>
      rel_evalArguments arguments fun _ known =>
      rest _ fun tidy => fit_append.mpr ⟨fit_of_plain (first tidy),known tidy⟩
  | .doubleStar value :: arguments =>
    unfold Code.evalArguments
    simp only [bind_assoc,pure_bind]
    exact .bind (rel_eval value) fun _ known => .bind (rel_mergeMapping (fun _ => rfl) known)
      fun _ entries => rel_keywordArguments (entries.imp Dict.plain_items) fun _ first =>
      rel_evalArguments arguments fun _ known => rest _ fun tidy =>
      fit_append.mpr ⟨first tidy,known tidy⟩

end

mutual

theorem rel_put (store : Store) {v} (given : A.Plain v) : A.rel m (store.put k f v) (store.put k' f v) := by
  match store with
  | .cell place name declared =>
    unfold Store.put
    split
    · exact .bind (.pure given) fun _ known => .setCell _ known
    · exact .bind (quiet_coerce _ _ given) fun _ known => .setCell _ known
  | .global name => exact .setGlobal _ _ given
  | .attribute object name =>
    exact .bind (rel_eval f object) fun _ known => rel_setAttr name known given
  | .index object place =>
    exact .bind (rel_eval f object) fun _ first => .bind (rel_eval f place) fun _ second =>
      rel_setItem first second given
  | .tuple stores =>
    refine .bind (rel_items given) fun vs known => ?_
    split
    · exact rel_putAll stores known
    · exact .fail _

theorem rel_putAll (stores : List Store) {vs} (given : A.Plain vs) :
    A.rel m (Store.putAll k f stores vs) (Store.putAll k' f stores vs) := by
  match stores, vs with
  | store :: stores, v :: vs =>
    rw [Plain.cons] at given
    exact .bind (rel_put store given.1) fun _ _ => rel_putAll stores given.2
  | [], _ => exact .pure fun _ => rfl
  | _ :: _, [] => exact .pure fun _ => rfl

end

mutual

theorem rel_deletion (item : Deletion) : A.rel m (item.run k f) (item.run k' f) := by
  match item with
  | .cell place name =>
    refine .bind (.heap fun _ state => plain_cell state _) fun v _ => ?_
    split
    · exact .fail _
    · exact .setCell _ fun _ => rfl
  | .global name =>
    refine .bind (quiet_global? f name) fun v _ => ?_
    split
    · exact .fail _
    · exact .modifyGlobals _ fun _ _ => OrderedMap.plain_erase
  | .attribute object name => exact .bind (rel_eval f object) fun _ => rel_delAttr name
  | .index object place =>
    exact .bind (rel_eval f object) fun _ first => .bind (rel_eval f place) fun _ second =>
      rel_delItem first second
  | .tuple items => exact rel_deletions items

theorem rel_deletions (items : List Deletion) :
    A.rel m (Deletion.runAll k f items) (Deletion.runAll k' f items) := by
  match items with
  | [] => exact .pure fun _ => rfl
  | item :: items => exact .bind (rel_deletion item) fun _ _ => rel_deletions items

end

theorem plain_define (name module : String) (bases : List (Ref .cls))
    (listed : plain basesTuple) (given : plain own) (above : plain inherited) :
    plain (ClassInfo.define name module bases basesTuple own inherited) := by
  have members : plain (inherited.foldl (fun members base =>
      base.entries.foldl (fun members e => members.insertNew e.1 e.2) members)
      own) := by
    refine plain_folded above given fun members base kept known => ?_
    rw [← Array.foldl_toList]
    exact plain_folded (OrderedMap.plain_entries known) kept fun _ _ kept entry =>
      OrderedMap.plain_insertNew kept (plain_pair.mp entry).2
  exact OrderedMap.plain_insert (OrderedMap.plain_insert (OrderedMap.plain_insert members rfl) rfl) listed

theorem quiet_defineClass (name module : String) (bases : List (Ref .cls)) (given : A.Plain own) :
    A.Quiet m (defineClass name module bases own) := by
  unfold defineClass
  extract_lets onward
  have after (bases : List (Ref .cls)) (_ : A.Plain bases) : A.Quiet m (onward bases) := by
    refine .bind (.heap fun hp state => ?_) fun inherited above => ?_
    · exact plain_mapped plain_bares fun base _ => plain_cls state base
    · refine .bind (.newTuple fun _ => plain_mapped plain_bares fun _ _ => rfl) fun _ listed => ?_
      exact .newClass fun tidy => plain_define name module bases (listed tidy) (given tidy) (above tidy)
  split
  · exact .bind (.look fun _ _ => rfl) fun _ _ => .bind (.pure fun _ => plain_bares) after
  · exact .bind (.pure fun _ => plain_bares) after

theorem rel_raise (given : A.Plain v) : A.rel m (k.raise v) (k'.raise v) := by
  unfold raise
  extract_lets onward onward'
  have after (v : Value) (known : A.Plain v) : A.rel m (onward v) (onward' v) := by
    refine .bind (rel_str known) fun message _ => ?_
    split
    · exact .bind (.heap fun _ _ => rfl) fun _ _ => .bind (.heap fun _ _ => plain_bares) fun _ _ => .fail _
    · exact .fail _
  split
  · exact .bind (Engines.call (fun _ => rfl) fun _ => rfl) after
  · exact .bind (.pure given) after

theorem rel_importNames (names : List String) : A.rel m (k.importNames path names) (k'.importNames path names) := by
  refine .bind (Engines.importModule path) fun r _ => .mapM (fun _ => plain_bares) fun name _ => ?_
  refine .bind (.heap fun _ state => OrderedMap.plain_get? (plain_module state _)) fun v known => ?_
  split
  · exact .pure known
  · exact .map (Engines.importBelow ..) fun _ => rfl

theorem rel_repeatWhile
    (tests : A.rel m test test') (bodies : A.rel m body body') (fuel : Nat) :
    A.rel m (repeatWhile test body fuel) (repeatWhile test' body' fuel) := by
  induction fuel with
  | zero => exact .stop _
  | succ fuel ih =>
    refine .bind tests fun holds _ => ?_
    split
    · refine .bind bodies fun flow known => ?_
      cases flow with
      | next | continues => exact ih
      | breaks => exact .pure fun _ => rfl
      | returns v => exact .pure known
    · exact .pure fun _ => rfl

theorem rel_repeatFor
    (nexts : A.rel m next next') (bodies : ∀ v, A.Plain v → A.rel m (body v) (body' v)) (fuel : Nat) :
    A.rel m (repeatFor next body fuel) (repeatFor next' body' fuel) := by
  induction fuel with
  | zero => exact .stop _
  | succ fuel ih =>
    refine .bind nexts fun item known => ?_
    cases item with
    | none => exact .pure fun _ => rfl
    | some item =>
      refine .bind (bodies item known) fun flow known => ?_
      cases flow with
      | next | continues => exact ih
      | breaks => exact .pure fun _ => rfl
      | returns v => exact .pure known

theorem rel_evalBases (codes : List Code) : A.rel m (Code.evalBases k f codes) (Code.evalBases k' f codes) := by
  induction codes with
  | nil => exact .pure fun _ => rfl
  | cons code codes ih =>
    refine .bind (rel_eval f code) fun v _ => ?_
    split <;> grind

theorem quiet_members (plan : ClassPlan) : A.Quiet m (f.members plan) := by
  refine .heap fun hp state => ?_
  have slots : plain plan.members := plain_list.mpr fun _ _ => rfl
  refine plain_folded slots OrderedMap.plain_empty fun own ⟨name,slot⟩ kept _ => ?_
  have known := plain_cell state (f.cell (.slot slot))
  dsimp only
  split
  case h_1 v found =>
    rw [found] at known
    exact OrderedMap.plain_insert kept known
  case h_2 => exact kept

theorem rel_importAll (home : Ref .module) (path : String) : A.rel m (importAll k home path) (importAll k' home path) := by
  refine .bind (Engines.importModule path) fun r _ => ?_
  refine .bind (.heap fun _ state => OrderedMap.plain_filterKeys (plain_module state _)) fun exported known => ?_
  exact .map (.modifyGlobals _ fun _ tidy old => OrderedMap.plain_insertAll old (known tidy)) fun _ => rfl

def flat : InstrKind → Bool
  | .cond .. | .whileLoop .. | .forLoop .. | .classDef .. => false
  | _ => true

theorem rel_flat (f : Frame) {kind} (alone : flat kind) : A.rel m (kind.exec k f) (kind.exec k' f) := by
  cases kind with
  | cond | whileLoop | forLoop | classDef => contradiction
  | eval value => exact .map (.discard (rel_eval f value)) fun _ => rfl
  | assign value stores =>
    refine .bind (rel_eval f value) fun v known => ?_
    have targets : A.Plain stores := fun _ => plain_bares
    refine .map (.forIn targets (fun store _ _ => ?_) _) fun _ => rfl
    exact .map (rel_put f store known) fun _ => rfl
  | augment current op value store =>
    exact .bind (rel_eval f current) fun _ first => .bind (rel_eval f value) fun _ second =>
      .bind (rel_augment op first second) fun _ known => .map (rel_put f store known) fun _ => rfl
  | augmentAttribute object name op value =>
    exact .bind (rel_eval f object) fun _ owner => .bind (rel_getAttr name owner) fun _ first =>
      .bind (rel_eval f value) fun _ second => .bind (rel_augment op first second) fun _ known =>
      .map (rel_setAttr name owner known) fun _ => rfl
  | augmentIndex object index op value =>
    exact .bind (rel_eval f object) fun _ owner => .bind (rel_eval f index) fun _ place =>
      .bind (rel_getItem owner place) fun _ first => .bind (rel_eval f value) fun _ second =>
      .bind (rel_augment op first second) fun _ known =>
      .map (rel_setItem owner place known) fun _ => rfl
  | returns value => exact .bind (rel_eval f value) fun _ known => .pure known
  | breaks | continues | skip => exact .pure fun _ => rfl
  | deletes targets => exact .map (rel_deletions f targets) fun _ => rfl
  | raises value =>
    cases value with
    | some value => exact .bind (rel_eval f value) fun _ => rel_raise
    | none => exact .fail _
  | asserts test message =>
    refine .bind (rel_eval f test) fun v known => .bind (rel_truthy known) fun holds _ => ?_
    split
    · exact .pure fun _ => rfl
    · cases message with
      | none => exact .fail _
      | some message => exact .bind (rel_eval f message) fun _ known => .bind (rel_str known) fun _ _ => .fail _
  | importModule path store =>
    exact .bind (Engines.importModule path) fun _ _ => .map (rel_put f store fun _ => rfl) fun _ => rfl
  | importAll path => exact rel_importAll ..
  | importNames path names stores =>
    exact .bind (rel_importNames path names) fun _ known => .map (rel_putAll f stores known) fun _ => rfl

mutual

theorem rel_exec (f : Frame) (instr : Instr) : A.rel true (instr.exec k f) (instr.exec k' f) := by
  match instr with
  | .mk line kind => exact .bind (A.quiet_setLine line) fun _ _ => rel_kind f kind

theorem rel_kind (f : Frame) (kind : InstrKind) : A.rel true (kind.exec k f) (kind.exec k' f) := by
  match kind with
  | .cond branches otherwise =>
    refine .bind (rel_execBranches f branches) fun flow known => ?_
    cases flow with
    | some flow => exact .pure known
    | none => exact rel_execBlock f otherwise
  | .whileLoop condition body =>
    unfold InstrKind.exec
    rw [A.fuel_eq k k']
    exact rel_repeatWhile (.bind (rel_eval f condition) fun _ => rel_truthy) (rel_execBlock f body) _
  | .forLoop source store body =>
    unfold InstrKind.exec
    rw [A.fuel_eq k k']
    exact .bind (rel_eval f source) fun _ known => .bind (rel_iter known) fun c _ =>
      rel_repeatFor (rel_advance c)
        (fun _ item => .bind (rel_put f store item) fun _ _ => rel_execBlock f body) _
  | .classDef decorators bases plan body store =>
    exact .bind (rel_evalAll f decorators) fun _ given =>
      .bind (rel_evalBases f bases) fun bases _ => .bind (quiet_newFrame ..) fun inner _ =>
      .bind (.discard (rel_execBlock inner body)) fun _ _ =>
      .bind (quiet_members inner plan) fun _ own => .bind (.heap fun _ _ => rfl) fun module _ =>
      .bind (quiet_defineClass _ module bases own) fun cls _ =>
      .bind (.setCell _ fun _ => rfl) fun _ _ => .bind (rel_decorate given fun _ => rfl) fun _ known =>
      .map (rel_put f store known) fun _ => rfl
  | .eval _ | .assign .. | .augment .. | .augmentAttribute .. | .augmentIndex .. | .returns _
  | .breaks | .continues | .skip | .deletes _ | .raises _ | .asserts .. | .importModule ..
  | .importAll _ | .importNames .. => exact rel_flat f rfl

theorem rel_execBranches (f : Frame) (branches : List BranchCode) :
    A.rel true (Instr.execBranches k f branches) (Instr.execBranches k' f branches) := by
  match branches with
  | [] => exact .pure fun _ => rfl
  | .mk condition body :: branches =>
    refine .bind (rel_eval f condition) fun v known => .bind (rel_truthy known) fun holds _ => ?_
    cases holds with
    | true => exact .bind (rel_execBlock f body) fun _ known => .pure known
    | false => exact rel_execBranches f branches

theorem rel_execBlock (f : Frame) (instrs : List Instr) :
    A.rel true (Instr.execBlock k f instrs) (Instr.execBlock k' f instrs) := by
  match instrs with
  | [] => exact .pure fun _ => rfl
  | instr :: instrs =>
    refine .bind (rel_exec f instr) fun flow known => ?_
    cases flow with
    | next => exact rel_execBlock f instrs
    | returns | breaks | continues => exact .pure known

end

theorem rel_received (param : ParamCode) (given : A.Plain r) :
    A.rel m (k.received f param r) (k'.received f param r) := by
  unfold received
  extract_lets onward
  have after (v : Value) (known : A.Plain v) : A.Quiet m (onward v) := by
    unfold onward
    split
    · exact quiet_coerce _ _ known
    · exact .pure known
  split
  · exact .bind (.pure given) after
  · exact .bind (.newTuple given) after
  · exact .bind (.newDict (given.imp Dict.plain_ofNames)) after
  · split
    · exact .bind (rel_eval f _) after
    · exact .bind (.pure fun _ => rfl) after

theorem rel_bindParams (params : List ParamCode) (given : A.Plain rs) :
    A.rel m (k.bindParams f params rs) (k'.bindParams f params rs) := by
  induction params generalizing rs with
  | nil => exact .pure fun _ => rfl
  | cons param params ih =>
    cases rs with
    | nil => exact .pure fun _ => rfl
    | cons r rs =>
      rw [Plain.cons] at given
      exact .bind (rel_received f param given.1) fun _ known => .bind (.setCell _ known) fun _ _ => ih given.2

theorem rel_runBody (body : Body) : A.rel true (k.runBody f body) (k'.runBody f body) := by
  cases body with
  | value code => exact rel_eval f code
  | block body =>
    refine .bind (rel_execBlock f body) fun flow known => ?_
    cases flow with
    | returns v => exact .pure known
    | next | breaks | continues => exact .pure fun _ => rfl

theorem rel_runRoutine (plan : RoutinePlan) (captures : Array (Ref .cell)) (home : Ref .module)
    (given : A.Fit vs) (behind : A.tidy → trailing vs) :
    A.rel true (k.runRoutine plan captures home vs) (k'.runRoutine plan captures home vs) :=
  .bind (quiet_newFrame ..) fun f _ =>
    .bind (rel_bindParams f plan.params fun tidy => plain_receiveArguments (given tidy) (behind tidy)) fun _ _ =>
    rel_runBody f plan.body

theorem rel_instantiate (cls : Ref .cls) (given : A.Fit vs) : A.rel m (k.instantiate cls vs) (k'.instantiate cls vs) := by
  have named {v} (known : A.Plain v) : A.Fit (v :: vs) := fun tidy =>
    fit_cons.mpr ⟨isArgument_of_plain (known tidy),given tidy⟩
  refine .bind (quiet_classMember ..) fun constructor known => ?_
  split
  · exact .bind (.heap fun _ _ => rfl) fun _ _ => .fail _
  · refine .bind (Engines.call known (named fun _ => rfl)) fun made known => ?_
    split
    · split
      · refine .bind (quiet_classMember ..) fun initializer mem => ?_
        split
        · exact .bind (.discard (Engines.call mem (named known))) fun _ _ => .pure known
        · exact .pure known
      · exact .pure known
    · exact .pure known

theorem rel_callFunction (loose : ¬ A.tidy) (r : Ref .function) (arguments : List Value) :
    A.rel m (k.callFunction r arguments) (k'.callFunction r arguments) := by
  refine .bind (.heap fun _ _ => rfl) fun info _ => ?_
  split
  · exact Engines.enter (by simp) (rel_applyBuiltin _ loose.elim)
  · refine Engines.enter (by simp) (.bind (.look fun _ _ => plain_maybe) fun plan _ => ?_)
    cases plan with
    | some plan => exact rel_runRoutine plan _ _ loose.elim loose.elim
    | none => exact .stop _

theorem rel_callValue (loose : ¬ A.tidy) (callee : Value) (arguments : List Value) :
    A.rel m (k.callValue callee arguments) (k'.callValue callee arguments) := by
  unfold callValue
  split
  · exact rel_callFunction loose ..
  · exact rel_callFunction loose ..
  · exact rel_instantiate _ loose.elim
  · refine .bind (.look fun _ _ => plain_maybe) fun type _ => ?_
    dsimp only
    split
    · exact rel_perform _ loose.elim loose.elim
    · split <;> exact .fail _
  · refine .bind (quiet_extension? ..) fun extension _ => ?_
    split
    · exact Engines.call loose.elim loose.elim
    · refine .bind (.look fun _ _ => plain_maybe) fun type _ => ?_
      dsimp only
      split
      · exact rel_perform _ loose.elim loose.elim
      · split <;> exact .fail _
  · refine .bind (rel_hook _ loose.elim loose.elim) fun v _ => ?_
    split <;> grind

theorem rel_generatorStep (g : Ref .generator) (given : A.Plain v) : A.rel m (k.generatorStep g v) (k'.generatorStep g v) := by
  refine .bind (.heap fun _ state => plain_generator state g) fun info _ => ?_
  refine .bind (.look fun _ _ => plain_maybe) fun plan _ => ?_
  cases plan with
  | none => exact .stop _
  | some plan =>
    refine .bind (quiet_newFrame ..) fun f _ => .bind (rel_put f _ given) fun _ _ => ?_
    extract_lets onward onward'
    have after (kept : Bool) (_ : A.Plain kept) : A.rel m (onward kept) (onward' kept) := by
      cases kept with
      | true => exact .bind (rel_eval f _) fun _ known => .pure known
      | false => exact .pure fun _ => rfl
    split
    · exact .bind (rel_eval f _) fun _ known => .bind (rel_truthy known) after
    · exact .bind (.pure fun _ => rfl) after

theorem quiet_search (disk : Disk) (path : String) (directories : List String) :
    A.Quiet m (ModuleSource.search disk path directories) := by
  induction directories with
  | nil => exact .pure fun _ => rfl
  | cons directory directories ih =>
    unfold ModuleSource.search
    dsimp only
    split <;> grind

theorem quiet_load (source : ModuleSource) (disk : Disk) (path : String) : A.Quiet m (source.load disk path) := by
  cases source with
  | table texts => exact .pure fun _ => plain_maybe
  | files directories => exact quiet_search ..

theorem quiet_prepare (source : String) : A.Quiet m (prepare source false) := by
  refine A.quiet_still fun w state => ?_
  obtain ⟨code,left,prepared,kept,known⟩ := prepare_still source false w
  refine ⟨code,left,prepared,fun _ => ?_,fun tidy => ?_,kept,prepare_grows prepared⟩
  · cases code with
    | error e => rfl
    | ok code => exact plain_bares
  · change plain left.heap
    rw [known]
    exact state tidy

theorem quiet_newModule : A.Quiet m (newModule name) := by
  refine .bind (.look fun w state => ?_) fun globals known =>
    .newModuleRef (known.imp fun known => OrderedMap.plain_insert known rfl)
  split
  · exact plain_module state _
  · exact OrderedMap.plain_empty

theorem rel_runInstrs (r : Ref .module) (code : List Instr) : A.rel true (k.runInstrs r code) (k'.runInstrs r code) := by
  refine .bind (rel_execBlock _ code) fun flow known => ?_
  cases flow with
  | returns v => exact .pure known
  | next | breaks | continues => exact .pure fun _ => rfl

-- The code of the module runs in a context of its own, which constructs say nothing of.
theorem rel_importing (runs : ∀ r code, A.rel m
      (onFault id (fun w => { w with loaded := w.loaded.filter (·.1 != path) }) (k.runCode r code))
      (onFault id (fun w => { w with loaded := w.loaded.filter (·.1 != path) }) (k'.runCode r code))) :
    A.rel m (k.importPath path) (k'.importPath path) := by
  refine .bind (.look fun _ _ => plain_maybe) fun known _ => ?_
  cases known with
  | some r => exact .pure fun _ => rfl
  | none =>
    refine .bind (.look fun _ _ => rfl) fun source _ => .bind (.look fun _ _ => rfl) fun disk _ =>
      .bind (quiet_load source disk path) fun text _ => ?_
    cases text with
    | none => exact .fail _
    | some text =>
      refine .bind (quiet_newModule path) fun r _ => .bind (quiet_prepare _) fun code _ => ?_
      cases code with
      | error failure => exact .fail _
      | ok code =>
        have noted (note : World → World) (kept : ∀ w, (note w).toBookkeeping = w.toBookkeeping ∧
            (note w).heap = w.heap ∧ (note w).plans = w.plans) : A.Quiet m (modify note) := by
          refine .modify (fun w state => ?_) (fun w => (kept w).1) fun w => .of_eq (kept w).2.1 (kept w).2.2
          change plain (note w).heap
          rw [(kept w).2.1]
          exact state
        exact .bind (noted _ fun _ => ⟨rfl,rfl,rfl⟩) fun _ _ => .bind (.discard (runs r code))
          fun _ _ => .map (noted _ fun _ => ⟨rfl,rfl,rfl⟩) fun _ => rfl

theorem quiet_builtins (bs : List Builtin) : A.Quiet m (bs.mapM fun b => do return (b.name,Value.function (← newBuiltin b))) := by
  refine .mapM (fun _ => plain_list.mpr fun _ _ => rfl) fun b _ => ?_
  exact .map (.newBuiltin b) fun _ => rfl

theorem quiet_newObjectClass : A.Quiet m Interpreter.newObjectClass := by
  refine .bind (quiet_builtins _) fun members known => .bind (.newTuple fun _ => rfl) fun bases listed => .newClass fun tidy => ?_
  refine plain_define _ _ _ (listed tidy) (OrderedMap.plain_ofList fun e mem => ?_) rfl
  exact (plain_pair.mp (plain_list.mp (known tidy) e mem)).2

theorem quiet_newPrelude : A.Quiet m Interpreter.newPrelude := by
  refine .bind (quiet_builtins _) fun functions known => .bind (.look fun _ _ => rfl) fun cls _ =>
    .bind (.look fun _ _ => rfl) fun types _ => .newModuleRef fun tidy => ?_
  refine OrderedMap.plain_ofList fun e mem => ?_
  rcases List.mem_append.mp mem with own | other
  · exact (plain_pair.mp (plain_list.mp (known tidy) e own)).2
  · rcases List.mem_cons.mp other with rfl | listed
    · rfl
    · obtain ⟨_,_,rfl⟩ := List.mem_map.mp listed
      rfl

theorem quiet_readFile : A.Quiet m (Interpreter.readFile path) := by
  refine .bind (.look fun _ _ => rfl) fun disk _ => ?_
  split
  · exact .stop _
  · exact .pure fun _ => rfl
  · exact .pure fun _ => rfl

end Accord

end EmbedScript
