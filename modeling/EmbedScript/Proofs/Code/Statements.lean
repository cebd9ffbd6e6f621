import EmbedScript.Proofs.Code.Exits
import EmbedScript.Proofs.Typing.Writes

/-!
What compiling makes of statements: how they may leave the block they stand in, and what they check of
the values they put in slots.
-/

namespace EmbedScript

open List Scope Instr

namespace Compile

-- What a statement does to the state: of the innermost scope, its place and the kinds that are known stay,
-- and the scopes around it only capture more.
structure Tells (st left : CompileState) : Prop where
  places : left.scopes.map place = st.scopes.map place
  outer : left.scopes.tail.map bare = st.scopes.tail.map bare
  kinds : st.Within left.slotKind
  planned : Planned st.plans left.plans

theorem Tells.of_bare (same : left.scopes.map bare = st.scopes.map bare)
    (planned : Planned st.plans left.plans) : Tells st left := by
  refine ⟨?_,?_,?_,planned⟩
  · have places := congrArg (·.map place) same
    simp only [map_map] at places
    exact places
  · rw [map_tail,same,map_tail]
  · intro i _
    have heads : left.scopes.head?.map bare = st.scopes.head?.map bare := by rw [← head?_map,same,head?_map]
    have kinds := congrArg (·.map (·.slotKind i)) heads
    simp only [Option.map_map] at kinds
    exact congrArg (·.getD .dynamic) kinds

def telling : Law where
  rel := Tells
  fits := Body.Confined
  refl st := .of_bare rfl (.refl _)
  trans first rest :=
    { places := rest.places.trans first.places
      outer := rest.outer.trans first.outer
      kinds := first.kinds.trans rest.kinds
      planned := first.planned.trans rest.planned }
  captures same := .of_bare same (.refl _)
  leaves kept := .of_bare kept.outer kept.planned
  plansRoutine := by
    intro st plan fits
    refine .of_bare rfl ⟨prefix_rfl,[plan],Array.toList_push,?_⟩
    exact fun _ among => mem_singleton.mp among ▸ fits
  plansElement := .of_bare rfl ⟨by simp,[],by simp,by simp⟩
  value _ := trivial

variable {P : Exits → (Nat → Kind) → α → Prop}

-- The result has the property for all exits that there are before and all kinds that are known after it.
structure Forms (x : Compile α) (P : Exits → (Nat → Kind) → α → Prop) : Prop where
  keeps : telling.Keeps x
  holds : ∀ ⦃env st a left⦄, x env st = .ok (a,left) →
    ∀ exits kinds, st.Permits exits → left.Within kinds → P exits kinds a

namespace Forms

theorem pure (holds : ∀ exits kinds, P exits kinds a) : Forms (Pure.pure a) P where
  keeps := .pure a
  holds := by
    intro env st b left ran exits kinds _ _
    cases ran
    exact holds exits kinds

theorem bind (first : Forms x P) (rest : ∀ a, Forms (f a) fun exits kinds b => P exits kinds a → Q exits kinds b) :
    Forms (x >>= f) Q where
  keeps := first.keeps.bind fun a => (rest a).keeps
  holds := by
    intro env st b left ran exits kinds permits known
    obtain ⟨a,middle,started,ran⟩ := bind_eq_ok ran
    have still : middle.Permits exits := permits.congr (first.keeps started).places
    have before : middle.Within kinds := ((rest a).keeps ran).kinds.trans known
    exact (rest a).holds ran exits kinds still known (first.holds started exits kinds permits before)

theorem behind (first : telling.Keeps x) (rest : ∀ a, Forms (f a) Q) : Forms (x >>= f) Q where
  keeps := first.bind fun a => (rest a).keeps
  holds := by
    intro env st b left ran exits kinds permits
    obtain ⟨a,middle,started,ran⟩ := bind_eq_ok ran
    exact (rest a).holds ran exits kinds (permits.congr (first started).places)

theorem guarded {_ : Decidable refused} (cause : CompileCause) (rest : ¬ refused → Forms x P) : Forms (do
      if refused then Compile.refuse cause
      x) P := by
  by_cases outcome : refused
  · rw [if_pos outcome]
    exact ⟨fun _ _ _ _ ran => (nomatch ran),fun _ _ _ _ ran => nomatch ran⟩
  · rw [if_neg outcome]
    exact rest outcome

theorem mapM (each : ∀ a, Forms (f a) Q) (items : List α) :
    Forms (items.mapM f) fun exits kinds results => ∀ b ∈ results, Q exits kinds b := by
  induction items with
  | nil =>
    exact .pure fun _ _ => forall_mem_nil _
  | cons item items ih =>
    rw [mapM_cons]
    refine (each item).bind fun b => ih.bind fun bs => .pure ?_
    intro exits kinds others first
    exact forall_mem_cons.mpr ⟨first,others⟩

theorem scope : Forms scope fun exits _ s => s.Permits exits where
  keeps := .scope
  holds := by
    rintro env ⟨scopes,line,plans⟩ s left ran exits kinds permits _
    cases ran
    cases scopes with
    | nil => exact ⟨fun looped => absurd rfl looped,fun routine => nomatch routine⟩
    | cons s outer => exact permits s rfl

theorem within {inner} (permits : inner.Permits given) (body : Forms x P) :
    Forms (within inner x) fun _ _ result => ∃ kinds, P given kinds result.1 where
  keeps := .within inner body.keeps
  holds := by
    intro env st result left ran exits kinds _ _
    obtain ⟨middle,inside,_⟩ := within_eq_ok ran
    exact ⟨middle.slotKind,body.holds inside given _ (CompileState.permits_cons permits) fun _ _ => rfl⟩

theorem inLoop (body : Forms x P) : Forms (inLoop x) fun exits kinds a => P { exits with loop := true } kinds a where
  keeps := by
    rintro env ⟨scopes,line,plans⟩ a left ran
    obtain ⟨_,deeper,entered,rest⟩ := bind_eq_ok ran
    obtain ⟨result,⟨within,last,grown⟩,inside,ended⟩ := bind_eq_ok rest
    cases entered
    cases ended
    obtain ⟨places,outer,kinds,planned⟩ := body.keeps inside
    cases scopes with
    | nil =>
      obtain rfl : within = [] := map_eq_nil_iff.mp places
      exact ⟨rfl,rfl,kinds,planned⟩
    | cons s others =>
      obtain ⟨t,later,rfl,place,rest⟩ := map_eq_cons_iff.mp places
      injection place with kind place
      injection place with loops returns
      have left : place { t with loops := t.loops - 1 } = s.place := by simp only [place,kind,loops,returns,Nat.add_sub_cancel]
      exact ⟨by simp only [map_cons,left,rest],outer,kinds,planned⟩
  holds := by
    rintro env ⟨scopes,line,plans⟩ a left ran exits kinds permits known
    obtain ⟨_,deeper,entered,rest⟩ := bind_eq_ok ran
    obtain ⟨result,⟨within,last,grown⟩,inside,ended⟩ := bind_eq_ok rest
    cases entered
    cases ended
    refine body.holds inside _ kinds ?_ ?_
    · cases scopes with
      | nil => exact fun _ found => by cases found
      | cons s outer => exact CompileState.permits_cons ⟨fun _ => rfl,(permits s rfl).routine⟩
    · cases within <;> exact known

end Forms

-- Stores

theorem declaredKind_forms (slot : Nat) (known : Kind) :
    Forms (declaredKind slot known) fun _ kinds declared => declared = .dynamic ∨ declared = kinds slot where
  keeps := by
    intro env st declared left ran
    obtain ⟨rfl,_⟩ | ⟨_,unknown,s,outer,scopes,rfl⟩ := declaredKind_cases ran
    · exact telling.refl _
    · refine ⟨by rw [scopes]; rfl,by rw [scopes]; rfl,fun i found => ?_,.refl _⟩
      have other : i ≠ slot := fun same => found (same ▸ unknown)
      simp [CompileState.slotKind,scopes,slotKind_setKind,other]
  holds := by
    intro env st declared left ran exits kinds _ learnt
    by_cases unknown : declared = .dynamic
    · exact .inl unknown
    refine .inr ?_
    obtain ⟨rfl,none | found⟩ | ⟨rfl,_,s,outer,scopes,rfl⟩ := declaredKind_cases ran
    · contradiction
    · rw [learnt slot (found ▸ unknown),found]
    · have now : CompileState.slotKind { st with scopes := s.setKind slot declared :: outer } slot = declared := by
        simp [CompileState.slotKind,slotKind_setKind]
      rw [learnt slot (by rw [now]; exact unknown),now]

theorem storeName_forms (name : String) (known : Kind) :
    Forms (storeName name known) fun _ kinds store => store.Checks kinds := by
  refine .behind (.resolve name) fun place => ?_
  cases place with
  | none => exact .pure fun _ _ _ => forall_mem_nil _
  | some place =>
    cases place with
    | capture index => exact .guarded _ fun _ => .pure fun _ _ _ => forall_mem_nil _
    | slot slot =>
      refine (declaredKind_forms slot known).bind fun declared => .guarded _ fun _ => .pure ?_
      intro _ kinds found evident write written
      obtain rfl := mem_singleton.mp written
      split
      · exact .inl rfl
      · exact found

end Compile

open Compile

mutual

theorem Target.compileStore_forms (known : Kind) : (target : Target) →
    Forms (target.compileStore known) fun _ kinds store => store.Checks kinds
  | .name n => storeName_forms n known
  | .attribute object _ => .behind .isTyped fun here => .behind (object.compile_keeps here) fun _ =>
      .pure fun _ _ _ => forall_mem_nil _
  | .index object place => .behind .isTyped fun here => .behind (object.compile_keeps here) fun _ => .behind .isTyped fun there =>
      .behind (place.compile_keeps there) fun _ => .pure fun _ _ _ => forall_mem_nil _
  | .tuple items => (Target.compileStores_forms items).bind fun _ => .pure fun _ _ checks _ => checks

theorem Target.compileStores_forms : (items : List Target) → Forms (Target.compileStores items) fun _ kinds stores =>
      ∀ write ∈ Store.writesAll stores, write.Checks kinds
  | [] => .pure fun _ _ => forall_mem_nil _
  | item :: items => (item.compileStore_forms .dynamic).bind fun _ => (Target.compileStores_forms items).bind fun _ =>
      .pure fun _ _ others first => forall_mem_append.mpr ⟨first Option.none,others⟩

end

-- Statements

-- What is asked of code: to leave by the exits, and that what it writes is checked for the kinds.
def Formed (kinds : Nat → Kind) (confined : Prop) (writes : List Write) : Prop := confined ∧ ∀ write ∈ writes, write.Checks kinds

variable {kinds : Nat → Kind}

theorem Formed.append {writes}
    (last : Formed kinds confined' writes') (first : Formed kinds confined writes) :
    Formed kinds (confined ∧ confined') (writes ++ writes') :=
  ⟨⟨first.1,last.1⟩,forall_mem_append.mpr ⟨first.2,last.2⟩⟩

def InstrKind.Formed (exits : Exits) (kinds : Nat → Kind) (instr : InstrKind) : Prop :=
  EmbedScript.Formed kinds (instr.Confined exits) instr.writes

def Instr.FormedAll (exits : Exits) (kinds : Nat → Kind) (code : List Instr) : Prop :=
  Formed kinds (ConfinedAll exits code) (writesAll code)

namespace Compile

theorem Forms.quiet {made : α → InstrKind} (first : telling.Keeps x)
    (plain : ∀ a, (∀ exits, (made a).Confined exits) ∧ (made a).writes = []) :
    Forms (do return made (← x)) InstrKind.Formed := by
  refine .behind first fun a => .pure fun exits kinds => ⟨(plain a).1 exits,?_⟩
  rw [(plain a).2]
  exact forall_mem_nil _

theorem assign_forms (targets : List Target) (value : Typed) : Forms (assign targets value) InstrKind.Formed := by
  refine .behind .isTyped fun here => ?_
  refine (Forms.mapM (fun target => target.compileStore_forms _) targets).bind fun stores => .pure ?_
  refine fun exits kinds checks => ⟨trivial,fun write written => ?_⟩
  obtain ⟨store,among,written⟩ := mem_flatMap.mp written
  exact checks store among _ write written

theorem augment_forms (target : Target) (op : BinaryOp) (value : Expr) :
    Forms (augment target op value) InstrKind.Formed := by
  cases target with
  | name n =>
    refine .behind .isTyped fun here => ?_
    split
    · exact .behind (Expr.compile_keeps _ _) fun _ => assign_forms _ _
    · exact .behind (readName_keeps n) fun _ => .behind value.operand_keeps fun _ =>
        (storeName_forms n .dynamic).bind fun _ => .pure fun _ _ checks => ⟨trivial,checks none⟩
  | «attribute» object n =>
    exact .behind object.operand_keeps fun _ => .quiet value.operand_keeps fun _ => ⟨fun _ => trivial,rfl⟩
  | index object place =>
    exact .behind object.operand_keeps fun _ => .behind place.operand_keeps fun _ =>
      .quiet value.operand_keeps fun _ => ⟨fun _ => trivial,rfl⟩
  | tuple items => exact ⟨.refuse _,fun _ _ _ _ ran => nomatch ran⟩

theorem returnValue_returned
    (ran : returnValue value env st = .ok (c,left)) (here : scope env st = .ok (s,st)) :
    ∀ declared ∈ s.returns, declared.Returned c := by
  intro declared returns
  cases value with
  | none =>
    cases ran
    exact .nothing
  | some e =>
    obtain ⟨_,_,again,ran⟩ := bind_eq_ok ran
    rw [here] at again
    cases again
    rw [Option.mem_def.mp returns] at ran
    obtain ⟨t,middle,compiled,ran⟩ := bind_eq_ok ran
    unfold declaredValue at ran
    split at ran
    case isTrue same =>
      cases ran
      rcases same with any | rfl
      · exact .dynamic _ any
      · exact .known compiled
    case isFalse =>
      split at ran
      · contradiction
      · cases ran
        exact .checked t.code

theorem returns_forms (value : Option Expr) : Forms (returns value) InstrKind.Formed where
  keeps := .bind .scope fun _ => .guarded _ (returnValue_keeps value).map
  holds := by
    intro env st instr left ran exits kinds permits known
    obtain ⟨s,_,here,ran⟩ := bind_eq_ok ran
    have permitted := Forms.scope.holds here exits _ permits fun _ _ => rfl
    cases here
    split at ran
    · contradiction
    case isFalse inside =>
    obtain ⟨c,_,given,ran⟩ := bind_eq_ok ran
    cases ran
    exact ⟨permitted.routine (Decidable.not_not.mp inside) c (returnValue_returned given rfl),forall_mem_nil _⟩

theorem leaveLoop_forms (cause : CompileCause) (writeless : instr.writes = [])
    (leaves : ∀ exits, exits.loop = true → instr.Confined exits) :
    Forms (leaveLoop cause instr) InstrKind.Formed := by
  refine Forms.scope.bind fun s => .guarded _ fun inside => .pure fun exits kinds permits => ?_
  refine ⟨leaves exits (permits.loop inside),?_⟩
  rw [writeless]
  exact forall_mem_nil _

theorem checkNonlocals_forms (names : List String) : Forms (checkNonlocals names) InstrKind.Formed := by
  refine .behind .scope fun _ => .guarded _ fun _ => .quiet (.forIn (fun name _ => ?_) names _) fun _ => ⟨fun _ => trivial,rfl⟩
  exact .bind (.resolve name) fun _ => .guarded _ (.pure _)

theorem importNames_forms (path : String) (names : List String) : Forms (importNames path names) InstrKind.Formed := by
  unfold importNames
  split
  · exact .behind .scope fun _ => .guarded _ fun _ => .pure fun _ _ => ⟨trivial,forall_mem_nil _⟩
  · exact (Forms.mapM (fun name => storeName_forms name .dynamic) names).bind fun stores =>
      .pure fun _ _ checks => ⟨trivial,Store.writesAll_checks checks⟩

theorem classDef_forms (head : ClassHead) (bound : Bound) (inside : Forms body FormedAll) :
    Forms (classDef head bound body) InstrKind.Formed := by
  refine .behind (dynamics_keeps _) fun _ => .behind (dynamics_keeps _) fun _ => .behind .scope fun s => ?_
  have place := declareBound_place (declare { kind := .cls, qualname := s.childName head.name } classCell) bound
  injection place with kind place
  injection place with loops
  have permits : Permits _ .closed := ⟨fun looped => absurd loops looped,fun routine => nomatch kind.symm.trans routine⟩
  refine (Forms.within permits inside).bind fun _ => (storeName_forms _ _).bind fun _ => .pure ?_
  exact fun _ _ checks ⟨_,confined,_⟩ => ⟨confined,checks none⟩

theorem function_keeps (head : FunctionHead) (bound : Bound) (inside : Forms body FormedAll) :
    telling.Keeps (routine head.name head.params head.isTyped head.returns bound
      (head.params.mapM fun p => p.default.mapM fun e => do return (← e.compile false).code)
      (do return .block (← body))) := by
  have defaults : telling.Keeps _ := defaults_keeps head.params
  refine routine_keeps _ _ _ _ _ defaults inside.keeps.map ?_
  intro env st inner given middle code left ⟨_,place⟩ first second
  obtain ⟨block,after,compiled,made⟩ := bind_eq_ok second
  cases made
  have start : inner.Permits .ofRoutine := by
    injection place with kind place
    injection place with loops
    exact ⟨fun looped => absurd loops looped,fun _ _ _ => trivial⟩
  have permits : middle.Permits .ofRoutine := (CompileState.permits_cons start).congr (defaults first).places
  exact (inside.holds compiled _ _ permits fun _ _ => rfl).1

end Compile

theorem Compile.modifyLine_keeps (line : Nat) : telling.Keeps (modify fun s => { s with line }) := by
  intro env st _ left ran
  cases ran
  exact .of_bare rfl (.refl _)

mutual

theorem Stmt.compile_forms : (s : Stmt) →
    Forms s.compile fun exits kinds instr => Formed kinds (instr.Confined exits) instr.writes
  | .mk line kind => .behind (modifyLine_keeps line) fun _ => kind.compile_forms.bind fun _ => .pure fun _ _ formed => formed

theorem StmtKind.compile_forms : (kind : StmtKind) → Forms kind.compile InstrKind.Formed
  | .expr value => .quiet value.operand_keeps fun _ => ⟨fun _ => trivial,rfl⟩
  | .assign _ value => .behind .isTyped fun here => .behind (value.compile_keeps here) fun _ => assign_forms _ _
  | .augAssign target op value => augment_forms target op value
  | .cond branches otherwise =>
    (Stmt.compileBranches_forms branches).bind fun _ => (Stmt.compileBlock_forms otherwise).bind fun _ => .pure fun _ _ => .append
  | .whileLoop condition body => .behind condition.operand_keeps fun _ => (Stmt.compileBlock_forms body).inLoop.bind fun _ =>
      .pure fun _ _ formed => formed
  | .forLoop target iterable body => .behind iterable.elementKind_keeps fun kind => .behind iterable.operand_keeps fun _ =>
      (target.compileStore_forms kind).bind fun _ => (Stmt.compileBlock_forms body).inLoop.bind fun _ =>
        .pure fun _ _ last first => ⟨last.1,forall_mem_append.mpr ⟨first _,last.2⟩⟩
  | .function head body => by
    refine .behind (dynamics_keeps _) fun _ => .behind (function_keeps head _ (Stmt.compileBlock_forms body)) fun _ =>
        (storeName_forms _ _).bind fun store => .pure fun _ kinds checks => ⟨trivial,?_⟩
    rw [InstrKind.writes,flatMap_singleton]
    exact checks _
  | .classDef head body => classDef_forms head _ (Stmt.compileBlock_forms body)
  | .returns value => returns_forms value
  | .breaks | .continues => leaveLoop_forms _ rfl fun _ loop => loop
  | .pass | .globals _ => .pure fun _ _ => ⟨trivial,forall_mem_nil _⟩
  | .nonlocals names => checkNonlocals_forms names
  | .deletes targets => .quiet (.mapM Target.compileDelete_keeps targets) fun _ => ⟨fun _ => trivial,rfl⟩
  | .raises value => .quiet (.option Expr.operand_keeps value) fun _ => ⟨fun _ => trivial,rfl⟩
  | .asserts test message => .behind test.operand_keeps fun _ =>
      .quiet (.option Expr.operand_keeps message) fun _ => ⟨fun _ => trivial,rfl⟩
  | .importModule _ => (storeName_forms _ _).bind fun _ => .pure fun _ _ checks => ⟨trivial,checks none⟩
  | .importNames path names => importNames_forms path names

theorem Stmt.compileBranches_forms : (branches : List Branch) → Forms (Stmt.compileBranches branches) fun exits kinds code =>
      Formed kinds (ConfinedBranches exits code) (writesOfBranches code)
  | [] => .pure fun _ _ => ⟨trivial,forall_mem_nil _⟩
  | .mk condition body :: branches => .behind condition.operand_keeps fun _ => (Stmt.compileBlock_forms body).bind fun _ =>
      (Stmt.compileBranches_forms branches).bind fun _ => .pure fun _ _ => .append

theorem Stmt.compileBlock_forms : (body : List Stmt) → Forms (Stmt.compileBlock body) FormedAll
  | [] => .pure fun _ _ => ⟨trivial,forall_mem_nil _⟩
  | s :: body => s.compile_forms.bind fun _ => (Stmt.compileBlock_forms body).bind fun _ => .pure fun _ _ => .append

end

end EmbedScript
