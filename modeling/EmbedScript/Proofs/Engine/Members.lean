import EmbedScript.Proofs.Engine.Protocol

/-!
What host types and builtins do, on two engines. A few take their keyword arguments apart from the
others; all others must get none where keywords are kept out of data.
-/

namespace EmbedScript.Accord

open Exec Engine Heap Plain

variable [Plainness α] {A : Accord} [A.Engines k k']

-- Arguments as they reach a callee that takes keywords or not.
abbrev Passed (A : Accord) (takes : Bool) (arguments : List Value) : Prop := A.tidy → fit arguments ∧ proper takes arguments

theorem Passed.plain (given : A.Passed false vs) : A.Plain vs := fun tidy => plain_of_proper (given tidy).1 (given tidy).2

theorem Passed.parted (given : A.Passed takes vs) : ∃ positional keywords,
    splitKeywords vs = (positional,keywords) ∧ A.Plain positional ∧ A.Plain keywords :=
  ⟨_,_,rfl,pair.mp fun tidy => plain_splitKeywords (given tidy).1 (trailing_of_proper (given tidy).2)⟩

@[grind ←] theorem rel_toInt (given : A.Plain v) : A.rel m (k.toInt v) (k'.toInt v) := by
  unfold toInt
  split
  · grind
  · grind
  · split <;> split <;> grind
  · exact .lift fun _ => plain_result
  · refine .bind (rel_callMethod _ given fun _ => rfl) fun answer _ => ?_
    split <;> grind
  · grind

@[grind ←] theorem rel_toFloat (given : A.Plain v) : A.rel m (k.toFloat v) (k'.toFloat v) := by
  unfold toFloat
  split
  · grind
  · grind
  · grind
  · exact .lift fun _ => plain_result
  · refine .bind (rel_callMethod _ given fun _ => rfl) fun answer _ => ?_
    split <;> grind
  · grind

theorem rel_performNumber (action : NumberAction) (receiver : Value) (given : A.Plain vs) :
    A.rel m (k.performNumber action receiver vs) (k'.performNumber action receiver vs) := by
  unfold performNumber
  cases action <;> grind

@[grind ←] theorem quiet_receiverList (receiver : Value) : A.Quiet m (receiverList receiver) := by
  unfold receiverList
  split <;> grind

@[grind ←] theorem quiet_receiverDict (receiver : Value) : A.Quiet m (receiverDict receiver) := by
  unfold receiverDict
  split <;> grind

@[grind ←] theorem quiet_receiverSet (receiver : Value) : A.Quiet m (receiverSet receiver) := by
  unfold receiverSet
  split <;> grind

theorem rel_sortOptions (function : String) (given : A.Plain keywords) :
    A.rel m (k.sortOptions function keywords) (k'.sortOptions function keywords) := by
  refine .foldlM given (fun _ => rfl) fun options ⟨name,value⟩ known entry => ?_
  have argument := (pair.mp entry).2
  dsimp only
  split
  · exact .pure argument
  · exact .bind (rel_truthy argument) fun _ _ => .pure known
  · exact .fail _

@[grind ←] theorem rel_removeItem (r : Ref .list) (given : A.Plain v) : A.rel m (k.removeItem r v) (k'.removeItem r v) := by
  refine .bind .listItems fun items known => ?_
  refine .bind (rel_indexOf _ given known) fun position _ => ?_
  split
  · grind
  · refine .bind (.heap fun _ _ => rfl) fun size _ => ?_
    split <;> grind

theorem rel_performList (action : ListAction) (owner : A.Plain receiver) (given : A.Passed action.takesKeywords vs) :
    A.rel m (k.performList action receiver vs) (k'.performList action receiver vs) := by
  unfold performList
  cases action with
  | sort =>
    obtain ⟨_,_,parted,_,named⟩ := given.parted
    rw [parted]
    refine .bind (rel_sortOptions _ named) fun options known => ?_
    refine .bind (quiet_receiverList _) fun r _ => ?_
    refine .bind .listItems fun items held => ?_
    exact .bind (rel_sort _ held known) fun sorted known => .map (.setList _ known) fun _ => rfl
  | pop =>
    refine .bind (quiet_receiverList _) fun r _ => ?_
    refine .bind (.heap fun _ state => plain_back? (Heap.plain_list state _)) fun last known => ?_
    split <;> grind
  | popAt =>
    replace given := given.plain
    refine .bind (quiet_receiverList _) fun r _ => ?_
    refine .bind (.heap fun _ state => Heap.plain_list state _) fun items held => ?_
    split <;> grind
  | index =>
    replace given := given.plain
    refine .bind (quiet_argument _ given) fun v known => .bind (quiet_receiverList _) fun r _ => ?_
    refine .bind .listItems fun items held => ?_
    refine .bind (rel_indexOf _ known held) fun position _ => ?_
    split <;> grind
  | count =>
    replace given := given.plain
    refine .bind (quiet_receiverList _) fun r _ => ?_
    refine .bind .listItems fun items held => ?_
    exact .bind (quiet_argument _ given) fun v known => .map (rel_countOf known held) fun _ => rfl
  | _ =>
    replace given := given.plain
    grind

theorem rel_performTuple (action : TupleAction) (owner : A.Plain receiver) (given : A.Plain vs) :
    A.rel m (k.performTuple action receiver vs) (k'.performTuple action receiver vs) := by
  unfold performTuple
  cases action with
  | index =>
    refine .bind (quiet_argument _ given) fun v known => ?_
    refine .bind (rel_items owner) fun items held => ?_
    refine .bind (rel_indexOf _ known held) fun position _ => ?_
    split <;> grind
  | _ => grind

variable (index : Nat) (unnamed : Nat) (cursors : List (Ref .cursor)) (b : Builtin)

theorem rel_pairs (given : A.Plain vs) : A.rel m (k.pairs index vs) (k'.pairs index vs) := by
  induction vs generalizing index with
  | nil => exact .pure fun _ => rfl
  | cons item items ih =>
    rw [Plain.cons] at given
    refine .bind (rel_items given.1) fun parts known => ?_
    split
    · rw [Plain.cons,Plain.cons] at known
      exact .bind (ih _ given.2) fun rest others => .pure (Plain.cons.mpr ⟨pair.mpr ⟨known.1,known.2.1⟩,others⟩)
    · exact .fail _

theorem rel_entries (given : A.Passed true vs) : A.rel m (k.entries vs) (k'.entries vs) := by
  obtain ⟨positional,keywords,parted,unnamed,named⟩ := given.parted
  unfold entries
  rw [parted]
  dsimp -zeta only
  extract_lets onward
  have after (first : List (Value × Value)) (known : A.Plain first) : A.Quiet m (onward first) := by
    refine .pure fun tidy => plain_append.mpr ⟨known tidy,plain_mapped (named tidy) fun ⟨name,v⟩ entry => ?_⟩
    exact plain_pair.mpr ⟨rfl,(plain_pair.mp entry).2⟩
  split
  · exact .bind (.pure fun _ => rfl) after
  · exact .bind (.heap fun _ state => Dict.plain_items (plain_dict state _)) after
  · rw [Plain.cons] at unnamed
    exact .bind (rel_items unnamed.1) fun _ known => .bind (rel_pairs _ known) after
  · exact .fail _

theorem rel_performDict (action : DictAction) (owner : A.Plain receiver)
    (given : A.Passed action.takesKeywords vs) :
    A.rel m (k.performDict action receiver vs) (k'.performDict action receiver vs) := by
  unfold performDict
  cases action with
  | ofEntries =>
    exact .bind (rel_entries given) fun entries known =>
      .bind (.lift (known.imp (Dict.plain_insertItems rfl))) fun _ => .newDict
  | update =>
    refine .bind (rel_entries given) fun entries known => ?_
    refine .bind (quiet_receiverDict _) fun r _ => ?_
    refine .map (.forIn known (fun ⟨key,v⟩ _ entry => ?_) _) fun _ => rfl
    obtain ⟨first,second⟩ := pair.mp entry
    exact .map (.setEntry r first second) fun _ => rfl
  | get =>
    replace given := given.plain
    refine .bind (quiet_receiverDict _) fun r _ => .bind (quiet_argument _ given) fun key _ => ?_
    exact .bind (.heapExcept fun _ state => Dict.plain_get? (plain_dict state _))
      fun _ found => .pure (found.imp (plain_getD · rfl))
  | getOr =>
    replace given := given.plain
    refine .bind (quiet_receiverDict _) fun r _ => .bind (quiet_argument _ given) fun key _ => ?_
    refine .bind (.heapExcept fun _ state => Dict.plain_get? (plain_dict state _))
      fun found _ => ?_
    split <;> grind
  | pop | popOr =>
    replace given := given.plain
    refine .bind (quiet_argument _ given) fun key _ => .bind (quiet_receiverDict _) fun r _ => ?_
    refine .bind (.lift fun _ => plain_result) fun hash _ => ?_
    refine .bind (.heap fun _ state => OrderedMap.plain_get? (plain_dict state _))
      fun found _ => ?_
    repeat' split
    all_goals grind
  | setDefault =>
    replace given := given.plain
    refine .bind (quiet_argument _ given) fun key _ => .bind (quiet_receiverDict _) fun r _ => ?_
    refine .bind (.heapExcept fun _ state => Dict.plain_get? (plain_dict state _))
      fun found _ => ?_
    split <;> grind
  | items =>
    refine .bind (quiet_receiverDict _) fun r _ => ?_
    refine .bind (.heap fun _ state => Dict.plain_items (plain_dict state _))
      fun items known => ?_
    refine .bind (.mapM known fun ⟨key,v⟩ entry => ?_) fun _ => .newList
    obtain ⟨first,second⟩ := pair.mp entry
    exact .newTuple (first.two second)
  | _ => grind

theorem rel_otherSet (given : A.Plain vs) : A.rel m (k.otherSet vs) (k'.otherSet vs) := by
  refine .bind (quiet_argument _ given) fun v known => ?_
  split
  · exact .heap fun _ state => plain_set state _
  · exact .bind (rel_items known) fun _ known => .lift (known.imp ValueSet.plain_ofValues)

theorem rel_performSet (action : SetAction) (owner : A.Plain receiver) (given : A.Plain vs) :
    A.rel m (k.performSet action receiver vs) (k'.performSet action receiver vs) := by
  unfold performSet
  cases action with
  | ofValue =>
    exact .bind (quiet_argument _ given) fun _ known => .bind (rel_items known) fun _ known =>
      .bind (.lift (known.imp ValueSet.plain_ofValues)) fun _ => .newSet
  | remove =>
    refine .bind (quiet_argument _ given) fun item _ => .bind (quiet_receiverSet _) fun r _ => ?_
    refine .bind (.lift fun _ => plain_result) fun hash _ => .bind (.heap fun _ _ => rfl) fun present _ => ?_
    split <;> grind
  | pop =>
    refine .bind (quiet_receiverSet _) fun r _ => ?_
    refine .bind (.heap fun _ state => OrderedMap.plain_entries (plain_set state _))
      fun entries known => ?_
    split <;> grind
  | union =>
    refine .bind (quiet_receiverSet _) fun r _ => ?_
    refine .bind (.heap fun _ state => plain_set state _) fun own first => ?_
    exact .bind (rel_otherSet given) fun other second =>
      .newSet fun tidy => OrderedMap.plain_insertAll (first tidy) (second tidy)
  | intersection | difference =>
    refine .bind (rel_otherSet given) fun other _ => .bind (quiet_receiverSet _) fun r _ => ?_
    exact .bind (.heap fun _ state => OrderedMap.plain_filterKeys (plain_set state _)) fun _ =>
      .newSet
  | isSubset =>
    exact .bind (rel_otherSet given) fun other _ => .bind (quiet_receiverSet _) fun r _ =>
      .map (.heap fun _ _ => rfl) fun _ => rfl
  | _ => grind

theorem quiet_performRange (action : RangeAction) (given : A.Plain vs) : A.Quiet m (performRange action vs) := by
  have made (start stop step : Int64) : plain (makeRange start stop step) := by
    unfold makeRange
    split <;> rfl
  unfold performRange
  cases action <;> grind

-- Texts and formats

@[grind ←] theorem quiet_fixedText (x : Float) (places : Int64) : A.Quiet m (fixedText x places) := by
  unfold fixedText
  extract_lets n
  split <;> grind

@[grind ←] theorem rel_formatBody (spec : FormatSpec) (given : A.Plain v) :
    A.rel m (k.formatBody spec v) (k'.formatBody spec v) := by
  unfold formatBody
  repeat' split
  all_goals grind

@[grind ←] theorem rel_format (spec : List Char) (given : A.Plain v) : A.rel m (k.format v spec) (k'.format v spec) := by
  unfold format
  repeat' split
  all_goals grind

theorem plain_fieldValue (name : List Char) (given : plain vs) (named : plain keywords) :
    plain (fieldValue vs keywords unnamed name) := by
  have placed (index : Nat) : plain (positionalField vs index) := by
    unfold positionalField
    split
    case h_1 v found => exact plain_list.mp given v (List.mem_of_getElem? found)
    case h_2 => rfl
  unfold fieldValue
  split
  · exact plain_except (placed _) fun _ known => plain_pair.mpr ⟨known,rfl⟩
  · split
    · exact plain_except (placed _) fun _ known => plain_pair.mpr ⟨known,rfl⟩
    · dsimp only
      split
      case h_1 v found => exact plain_pair.mpr ⟨plain_of_lookup named found,rfl⟩
      case h_2 => rfl

theorem rel_fillTemplate (pieces : List TemplatePiece) (given : A.Plain vs) (named : A.Plain keywords) :
    A.rel m (k.fillTemplate vs keywords unnamed pieces) (k'.fillTemplate vs keywords unnamed pieces) := by
  induction pieces generalizing unnamed with
  | nil => exact .pure fun _ => rfl
  | cons piece pieces ih =>
    cases piece with
    | text c => exact .bind (ih unnamed) fun rest _ => .pure fun _ => plain_bares
    | field name spec =>
      refine .bind (.lift fun tidy => plain_fieldValue unnamed name (given tidy) (named tidy)) fun ⟨v,unnamed⟩ known => ?_
      exact .bind (rel_format spec (pair.mp known).1) fun _ _ => .bind (ih unnamed) fun _ _ => .pure fun _ => plain_bares
    | broken fault => exact .fail _

theorem rel_formatTemplate (template : String) (given : A.Passed true vs) :
    A.rel m (k.formatTemplate template vs) (k'.formatTemplate template vs) := by
  obtain ⟨positional,keywords,parted,unnamed,named⟩ := given.parted
  unfold formatTemplate
  rw [parted]
  exact .map (rel_fillTemplate _ _ unnamed named) fun _ => rfl

@[grind ←] theorem quiet_textList (pieces : List (List Char)) : A.Quiet m (textList pieces) := by
  refine .newList fun _ => plain_list.mpr fun v mem => ?_
  obtain ⟨_,_,rfl⟩ := List.mem_map.mp mem
  rfl

@[grind ←] theorem quiet_splitText (text separator : String) (limit : Option Nat) :
    A.Quiet m (splitText text separator limit) := by
  unfold splitText
  split <;> grind

@[grind ←]
theorem quiet_zeroFill (text : String) (width : Int64) : A.Quiet m (zeroFill text width) := by
  unfold zeroFill
  split
  split <;> grind

theorem quiet_joinedTexts (items : List Value) : A.Quiet m (joinedTexts index items) := by
  fun_induction joinedTexts index items with
  | case1 => exact .pure fun _ => rfl
  | case2 index text items ih => exact .bind ih fun _ _ => .pure fun _ => plain_list.mpr fun _ _ => plain_bares
  | case3 index other items => exact .bind (quiet_typeName _) fun _ _ => .fail _

@[grind ←] theorem quiet_receiverText (receiver : Value) : A.Quiet m (receiverText receiver) := by
  unfold receiverText
  split <;> grind

theorem rel_performText (action : TextAction) (owner : A.Plain receiver) (given : A.Passed action.takesKeywords vs) :
    A.rel m (k.performText action receiver vs) (k'.performText action receiver vs) := by
  cases action with
  | format => exact .bind (quiet_receiverText _) fun text _ => .map (rel_formatTemplate text given) fun _ => rfl
  | find =>
    replace given := given.plain
    refine .bind (quiet_receiverText _) fun text _ => ?_
    refine .bind (quiet_textArgument _ given) fun piece _ => ?_
    split <;> grind
  | join =>
    replace given := given.plain
    refine .bind (quiet_receiverText _) fun text _ => ?_
    refine .bind (quiet_argument _ given) fun v known => ?_
    exact .bind (rel_items known) fun items _ => .map (quiet_joinedTexts _ items) fun _ => rfl
  | _ =>
    replace given := given.plain
    unfold performText
    grind

-- Builders and tallies

@[grind ←] theorem quiet_newBuilder (receiver : Value) (text : String) : A.Quiet m (newBuilder receiver text) := by
  unfold newBuilder
  split <;> grind

theorem rel_performBuilder (action : BuilderAction) (owner : A.Plain receiver) (given : A.Plain vs) :
    A.rel m (k.performBuilder action receiver vs) (k'.performBuilder action receiver vs) := by
  unfold performBuilder
  cases action with
  | drain =>
    refine .bind (quiet_argument _ given) fun target _ => ?_
    split <;> grind
  | _ => grind

theorem quiet_performTally (action : TallyAction) (receiver : Value) (given : A.Plain vs) :
    A.Quiet m (performTally action receiver vs) := by
  unfold performTally
  cases action <;> grind

-- Choosing a member

theorem rel_perform (action : Action) (owner : A.Plain receiver) (given : A.Passed action.takesKeywords vs) :
    A.rel m (k.perform action receiver vs) (k'.perform action receiver vs) := by
  cases action with
  | text a => exact rel_performText a owner given
  | list a => exact rel_performList a owner given
  | dict a => exact rel_performDict a owner given
  | number a => exact rel_performNumber a receiver given.plain
  | tuple a => exact rel_performTuple a owner given.plain
  | set a => exact rel_performSet a owner given.plain
  | range a => exact quiet_performRange a given.plain
  | builder a => exact rel_performBuilder a owner given.plain
  | tally a => exact quiet_performTally a receiver given.plain

-- Members of `object`

@[grind ←] theorem quiet_wrongCount (expected : Nat) (arguments : List Value) :
    A.Quiet m (wrongCount b expected arguments : Exec α) :=
  .fail _

@[grind ←] theorem quiet_attributeName (v : Value) : A.Quiet m (attributeName v) := by
  unfold attributeName
  split <;> grind

@[grind ←] theorem quiet_expectObject (receiver : Value) : A.Quiet m (expectObject b receiver) := by
  unfold expectObject
  split <;> grind

@[grind ←] theorem quiet_deleteField (r : Ref .object) (cls : Ref .cls) (name : String) : A.Quiet m (deleteField r cls name) := by
  refine .bind (.heap fun _ _ => rfl) fun present _ => ?_
  split <;> grind

theorem rel_objectMember (given : A.Passed b.takesKeywords vs) : A.rel m (k.objectMember b vs) (k'.objectMember b vs) := by
  unfold objectMember
  split
  case h_1 => exact .newObject _
  case h_2 => exact .fail _
  case h_3 => exact .pure fun _ => rfl
  case h_4 | h_5 | h_6 | h_7 | h_8 | h_9 | h_10 =>
    replace given := given.plain
    grind
  case h_11 =>
    replace given := given.plain
    refine .bind (quiet_expectObject ..) fun place _ => ?_
    refine .bind (quiet_hasMember ..) fun present _ => ?_
    split <;> grind
  all_goals exact quiet_wrongCount ..

-- Builtins on collections

@[grind ←] theorem quiet_sliceBound (v : Value) : A.Quiet m (sliceBound v) := by
  unfold sliceBound
  repeat' split
  all_goals grind

@[grind ←] theorem quiet_sliceRange (r : Range) (start stop step : Option Int64) : A.Quiet m (sliceRange r start stop step) := by
  unfold sliceRange
  dsimp only
  split
  · exact .fail _
  · split
    · exact .stop _
    · split
      · exact .fail _
      · split <;> exact .pure fun _ => rfl

theorem rel_sliceValue {stop step} (given : A.Plain target)
    (first : A.Plain start) (second : A.Plain stop) (third : A.Plain step) :
    A.rel m (k.sliceValue target start stop step) (k'.sliceValue target start stop step) := by
  unfold sliceValue
  split
  · refine rel_callMethod _ given fun tidy => fit_of_plain ?_
    simp [first tidy,second tidy,third tidy]
  · refine .bind (quiet_sliceBound _) fun start _ => .bind (quiet_sliceBound _) fun stop _ => ?_
    refine .bind (quiet_sliceBound _) fun step _ => ?_
    split
    case h_2 =>
      have items := given.imp Value.plain_tuple.symm.trans
      exact .bind (.lift (items.imp plain_slice)) fun _ => .newTuple
    all_goals grind

theorem rel_nextItem {default} (given : A.Plain v) (other : A.Plain default) :
    A.rel m (k.nextItem v default) (k'.nextItem v default) := by
  unfold nextItem
  split
  · refine .bind (rel_advanceShared _) fun item _ => ?_
    split <;> grind
  · split
    · exact rel_callMethod _ given fun _ => rfl
    · exact .excusing _ other (rel_callMethod _ given fun _ => rfl)
  · grind

theorem quiet_numbered (start : Int64) (given : A.Plain vs) : A.Quiet m (numbered start vs) := by
  induction vs generalizing start with
  | nil => exact .pure fun _ => rfl
  | cons item items ih =>
    rw [Plain.cons] at given
    exact .bind (.newTuple (two (fun _ => rfl) given.1)) fun _ first =>
      .bind (ih _ given.2) fun _ rest => .pure (Plain.cons.mpr ⟨first,rest⟩)

theorem rel_enumerateItems (given : A.Passed true vs) : A.rel m (k.enumerateItems vs) (k'.enumerateItems vs) := by
  obtain ⟨positional,keywords,parted,unnamed,named⟩ := given.parted
  unfold enumerateItems
  rw [parted]
  dsimp only
  split
  · rw [Plain.cons] at unnamed
    split
    · exact .fail _
    · split
      · exact .fail _
      · exact .bind (rel_items unnamed.1) fun _ known => .bind (quiet_numbered _ known) fun _ => .newIterator
  · exact .fail _

theorem rel_zipRow : A.rel m (k.zipRow cursors) (k'.zipRow cursors) := by
  induction cursors with
  | nil => exact .pure fun _ => rfl
  | cons c cursors ih =>
    refine .bind (rel_advance c) fun item known => ?_
    split
    · exact .pure fun _ => rfl
    · exact .bind ih fun rest others => .pure fun tidy => plain_map (others tidy) fun _ items => plain_cons.mpr ⟨known tidy,items⟩

theorem rel_zipRows (fuel : Nat)
    (given : A.Plain rows) : A.rel m (k.zipRows cursors fuel rows) (k'.zipRows cursors fuel rows) := by
  induction fuel generalizing rows with
  | zero => exact .stop _
  | succ fuel ih =>
    refine .bind (rel_zipRow cursors) fun row known => ?_
    split
    · exact .bind (.newTuple known) fun _ new => ih fun tidy => plain_push (given tidy) (new tidy)
    · exact .pure given

theorem rel_zipItems (given : A.Plain vs) : A.rel m (k.zipItems vs) (k'.zipItems vs) := by
  unfold zipItems
  rw [A.fuel_eq k k']
  refine .bind (.mapM given fun _ => rel_iter) fun cursors _ => ?_
  split
  · exact .newIterator fun _ => rfl
  · exact .bind (rel_zipRows cursors _ fun _ => rfl) fun _ => .newIterator

theorem rel_sumFrom (c : Ref .cursor) (fuel : Nat) (given : A.Plain v) : A.rel m (k.sumFrom c fuel v) (k'.sumFrom c fuel v) := by
  induction fuel generalizing v with
  | zero => exact .stop _
  | succ fuel ih =>
    refine .bind (rel_advance c) fun item known => ?_
    split
    · exact .bind (rel_binary .add given known) fun _ => ih
    · exact .pure given

theorem rel_sumItems (given : A.Plain source) (first : A.Plain start) :
    A.rel m (k.sumItems source start) (k'.sumItems source start) := by
  unfold sumItems
  rw [A.fuel_eq k k']
  split
  · exact .fail _
  · exact .bind (rel_iter given) fun c _ => rel_sumFrom c _ first

theorem rel_sortedItems (given : A.Passed true vs) : A.rel m (k.sortedItems vs) (k'.sortedItems vs) := by
  obtain ⟨positional,keywords,parted,unnamed,named⟩ := given.parted
  unfold sortedItems
  rw [parted]
  dsimp only
  split
  · rw [Plain.cons] at unnamed
    exact .bind (rel_sortOptions _ named) fun options known => .bind (rel_items unnamed.1)
      fun _ held => .bind (rel_sort _ held known) fun _ => .newList
  · exact quiet_wrongCount ..

theorem rel_collect (given : A.Passed b.takesKeywords vs) : A.rel m (k.collect b vs) (k'.collect b vs) := by
  unfold collect
  split
  case h_6 => exact rel_sortedItems given
  case h_7 => exact rel_enumerateItems given
  case h_8 => exact rel_zipItems given.plain
  case h_12 =>
    replace given := given.plain
    grind [rel_sliceValue]
  case h_14 => exact quiet_wrongCount ..
  all_goals
    replace given := given.plain
    grind [rel_nextItem,rel_sumItems]

-- Builtins that look at values

@[grind ←] theorem quiet_typeOf (v : Value) : A.Quiet m (typeOf v) := by
  unfold typeOf
  split
  · grind
  · refine .bind (quiet_hostType? v) fun type _ => ?_
    split <;> grind

@[grind ←] theorem quiet_superOf (cls : Value) (given : A.Plain receiver) : A.Quiet m (superOf cls receiver) := by
  unfold superOf
  split
  · refine .bind (.heap fun _ _ => rfl) fun fits _ => ?_
    split <;> grind
  · grind

@[grind ←] theorem quiet_makeStatic (v : Value) : A.Quiet m (makeStatic v) := by
  unfold makeStatic
  split <;> grind

@[grind ←] theorem quiet_attach (target name function : Value) : A.Quiet m (attach target name function) := by
  unfold attach
  split
  · refine .bind (quiet_attributeName name) fun name _ => ?_
    split
    · exact .map (.modify (fun _ state => state) (fun _ => rfl) fun _ => .of_eq rfl rfl) fun _ => rfl
    · grind
  · grind

@[grind ←] theorem quiet_currentGlobals : A.Quiet m currentGlobals := by
  refine .bind (.look fun _ _ => plain_bares) fun running _ => ?_
  split
  · grind
  · exact .bind (.heap fun _ state => OrderedMap.plain_entries (plain_module state _))
      fun _ known => .newDict (known.imp Dict.plain_ofNames)

@[grind ←] theorem quiet_isResolvable (key name : String) (statics : Bool) : A.Quiet m (isResolvable key name statics) :=
  .look fun _ _ => rfl

@[grind ←] theorem quiet_isCallable (v : Value) : A.Quiet m (isCallable v) := by
  unfold isCallable
  split <;> grind

@[grind ←] theorem rel_findAttr (name : String) (given : A.Plain v) : A.rel m (k.findAttr v name) (k'.findAttr v name) := by
  unfold findAttr
  rw [← bind_assoc]
  refine .bind (.excusing _ (fun _ => rfl) (.bind (rel_getAttr name given) fun _ known => .pure known)) fun found known => ?_
  split
  · refine .bind (quiet_isResolvable ..) fun resolvable _ => ?_
    split <;> grind
  · exact .pure known

theorem rel_inspect (given : A.Plain vs) : A.rel m (k.inspect b vs) (k'.inspect b vs) := by
  unfold inspect
  split <;> grind

-- Builtins on numbers

@[grind ←] theorem rel_roundValue (places : Option Int64) (given : A.Plain v) :
    A.rel m (k.roundValue v places) (k'.roundValue v places) := by
  unfold roundValue
  split <;> grind

@[grind ←] theorem quiet_roundArgument (v : Value) : A.Quiet m (roundArgument v) := by
  unfold roundArgument
  repeat' split
  all_goals grind

@[grind ←] theorem rel_absolute (given : A.Plain v) : A.rel m (k.absolute v) (k'.absolute v) := by
  unfold absolute
  split
  · split <;> grind
  all_goals grind

@[grind ←] theorem quiet_character (v : Value) : A.Quiet m (character v) := by
  unfold character
  repeat' split
  all_goals grind

@[grind ←] theorem quiet_codeOf (v : Value) : A.Quiet m (codeOf v) := by
  unfold codeOf
  repeat' split
  all_goals grind

theorem rel_numeric (given : A.Plain vs) : A.rel m (k.numeric b vs) (k'.numeric b vs) := by
  unfold numeric
  split <;> grind

-- Printing, and all builtins together

theorem rel_printOptions (given : A.Plain keywords) : A.rel m (k.printOptions keywords) (k'.printOptions keywords) := by
  refine .foldlM given (fun _ => rfl) fun options ⟨name,value⟩ _ entry => ?_
  dsimp only
  split
  · exact .pure fun _ => rfl
  · refine .bind (rel_str (pair.mp entry).2) fun text _ => ?_
    split <;> grind

theorem rel_printValues (given : A.Passed true vs) : A.rel m (k.printValues vs) (k'.printValues vs) := by
  obtain ⟨positional,keywords,parted,unnamed,named⟩ := given.parted
  unfold printValues
  rw [parted]
  refine .bind (rel_printOptions named) fun options _ => ?_
  refine .bind (.mapM unnamed fun _ => rel_str) fun texts _ => ?_
  exact .map (.write _) fun _ => rfl

theorem rel_applyBuiltin (given : A.Passed b.takesKeywords vs) : A.rel m (k.applyBuiltin b vs) (k'.applyBuiltin b vs) := by
  cases b with
  | print => exact rel_printValues given
  | repr =>
    replace given := given.plain
    unfold applyBuiltin
    dsimp only
    split <;> grind
  | importModule =>
    unfold applyBuiltin
    dsimp only
    split <;> grind
  | len | iter | next | sorted | enumerate | zip | sum | slice => exact rel_collect _ given
  | abs | round | chr | ord => exact rel_numeric _ given.plain
  | isInstance | isSubclass | type | hasAttr | getAttr | setAttr | callable | id | globals | super
  | staticMethod | extend => exact rel_inspect _ given.plain
  | objectNew | objectInit | objectGetAttribute | objectSetAttr | objectDelAttr | objectRepr
  | objectStr | objectEq | objectNe | objectBool =>
    unfold applyBuiltin
    exact rel_objectMember _ given
  | echo => exact .newTuple given.plain
  | refuse => exact .fail _

end EmbedScript.Accord
