import EmbedScript.Proofs.Engine.Accord

/-!
Attributes, truth, equality and order, iteration, texts, items and operators, on two engines.
-/

namespace EmbedScript.Accord

open Exec Engine Heap

variable [Plainness α] {A : Accord} [A.Engines k k'] {v : Value}

attribute [grind ←] Engines.call Engines.step Engines.importModule

-- Arguments and members of host values

@[grind ←] theorem quiet_typeName (v : Value) : A.Quiet m (typeName v) := .heap fun _ _ => rfl

@[grind ←] theorem quiet_wrongReceiver (expected : String) (found : Value) :
    A.Quiet m (wrongReceiver expected found : Exec α) := by
  grind [wrongReceiver]

variable {items : List Value}

@[grind ←] theorem quiet_argument (index : Nat) (given : A.Plain arguments) : A.Quiet m (argument arguments index) := by
  unfold argument
  split
  case h_1 v found => exact .pure (given.mem (List.mem_of_getElem? found))
  case h_2 => exact .fail _

@[grind ←] theorem quiet_textArgument (index : Nat) (given : A.Plain arguments) : A.Quiet m (textArgument arguments index) := by
  refine .bind (quiet_argument index given) fun v _ => ?_
  split <;> grind

@[grind ←] theorem quiet_intArgument (index : Nat) (given : A.Plain arguments) : A.Quiet m (intArgument arguments index) := by
  refine .bind (quiet_argument index given) fun v _ => ?_
  split <;> grind

@[grind ←] theorem quiet_builder (receiver : Value) : A.Quiet m (builder receiver) := by
  unfold builder
  split
  · refine .bind (.heap fun _ _ => rfl) fun state _ => ?_
    split <;> grind
  · grind

@[grind ←] theorem quiet_tally (receiver : Value) : A.Quiet m (tally receiver) := by
  unfold tally
  split
  · refine .bind (.heap fun _ _ => rfl) fun state _ => ?_
    split <;> grind
  · grind

@[grind ←] theorem quiet_range (receiver : Value) : A.Quiet m (range receiver) := by
  unfold range
  split <;> grind

@[grind ←] theorem quiet_read (access : Access) (given : A.Plain v) : A.Quiet m (access.read v) := by
  unfold Access.read
  cases access <;> grind

@[grind ←] theorem quiet_accessWrite (access : Access) (receiver : Value) (text : String) :
    A.Quiet m (access.write receiver text) := by
  unfold Access.write
  split <;> grind

@[grind ←] theorem quiet_assign (p : HostProperty) (receiver v : Value) : A.Quiet m (p.assign receiver v) := by
  unfold HostProperty.assign
  split <;> split <;> grind

@[grind ←] theorem plain_member {hp : Heap} (given : plain hp) (cls : Ref .cls) (name : String) :
    plain ((hp.cls cls).members.get? name) :=
  OrderedMap.plain_get? (plain_cls given cls)

@[grind ←] theorem quiet_classMember (cls : Ref .cls) (name : String) : A.Quiet m (classMember cls name) :=
  .heap fun _ state => plain_member state cls name

@[grind ←]
theorem quiet_hasMember (cls : Ref .cls) (name : String) : A.Quiet m (hasMember cls name) := .heap fun _ _ => rfl

@[grind ←] theorem quiet_extension? (key name : String) : A.Quiet m (extension? key name) := .look fun _ _ => plain_maybe

@[grind ←]
theorem quiet_isBuiltin (f : Ref .function) : A.Quiet m (isBuiltin f) := .heap fun _ _ => rfl

@[grind ←] theorem quiet_hostType? (v : Value) : A.Quiet m (hostType? v) := by
  unfold hostType?
  split
  · exact .pure fun _ => rfl
  · exact .pure fun _ => rfl
  · exact .look fun _ _ => plain_maybe

@[grind ←] theorem quiet_bindMember (first : A.Plain a) (second : A.Plain b) : A.Quiet m (bindMember a b) := by
  unfold bindMember
  split
  · refine .bind (.heap fun _ _ => rfl) fun isStatic _ => ?_
    split <;> grind
  · grind

@[grind ←] theorem quiet_functionAttr (f : Ref .function) (name : String) : A.Quiet m (functionAttr f name) := by
  refine .bind (.heap fun _ _ => rfl) fun info _ => ?_
  split <;> grind

@[grind ←] theorem quiet_superAttr (cls : Ref .cls) (name : String) (given : A.Plain v) : A.Quiet m (superAttr cls v name) := by
  refine .bind (.heap fun hp state => ?_) fun mem known => ?_
  · cases found : (hp.cls cls).bases.findSome? fun base => (hp.cls base).members.get? name with
    | none => rfl
    | some mem =>
      obtain ⟨base,_,found⟩ := List.exists_of_findSome?_eq_some found
      exact found ▸ plain_member state base name
  · split <;> grind

@[grind ←]
theorem quiet_hostAttr (name : String) (given : A.Plain v) : A.Quiet m (hostAttr v name) := by
  refine .bind (quiet_extension? ..) fun extension _ => ?_
  split
  · grind
  · refine .bind (quiet_hostType? v) fun type _ => ?_
    repeat' split
    all_goals grind

@[grind ←] theorem quiet_typeAttr (key name : String) : A.Quiet m (typeAttr key name) := by
  refine .bind (quiet_extension? ..) fun extension _ => ?_
  repeat' split
  all_goals grind

@[grind ←] theorem rel_objectAttr (r : Ref .object) (cls : Ref .cls) (name : String) :
    A.rel m (k.objectAttr r cls name) (k'.objectAttr r cls name) := by
  have reads (hp : Heap) (state : plain hp) : plain (hp.object r).fields := plain_object state r
  refine .bind (.heap reads) fun fields known => ?_
  have entries : A.Plain fields.toList := known.imp OrderedMap.plain_entries
  split
  · grind
  · refine .bind (quiet_classMember ..) fun mem _ => ?_
    split
    · grind
    · split
      · grind
      · split
        · grind
        · refine .bind (quiet_classMember ..) fun fallback _ => ?_
          split <;> grind

@[grind ←] theorem rel_getAttr (name : String) (given : A.Plain v) : A.rel m (k.getAttr v name) (k'.getAttr v name) := by
  unfold getAttr
  split
  · refine .bind (quiet_classMember ..) fun hook _ => ?_
    split
    · grind
    · refine .bind (quiet_isBuiltin _) fun builtin _ => ?_
      split <;> grind
    · grind
  · refine .bind (quiet_classMember ..) fun mem _ => ?_
    split <;> grind
  · refine .bind (.heap fun _ state => plain_module state _) fun info known => ?_
    have globals : A.Plain info.globals := known
    split <;> grind
  · grind
  · split <;> grind
  · grind
  · grind
  · grind

@[grind ←] theorem rel_setAttr (name : String) (given : A.Plain v) (new : A.Plain a) :
    A.rel m (k.setAttr v name a) (k'.setAttr v name a) := by
  unfold setAttr
  split
  · refine .bind (quiet_classMember ..) fun hook _ => ?_
    split
    · grind
    · refine .bind (quiet_isBuiltin _) fun builtin _ => ?_
      split <;> grind
    · grind
  · grind
  · grind
  · refine .bind (quiet_hostType? v) fun type _ => ?_
    split <;> grind

@[grind ←] theorem rel_callMethod (name : String) (given : A.Plain v) (passed : A.Fit arguments) :
    A.rel m (k.callMethod v name arguments) (k'.callMethod v name arguments) := by
  grind [callMethod]

@[grind ←] theorem rel_delAttr (name : String) (given : A.Plain v) : A.rel m (k.delAttr v name) (k'.delAttr v name) := by
  unfold delAttr
  split
  · grind
  · refine .bind (quiet_hasMember ..) fun present _ => ?_
    split <;> grind
  · refine .bind (.heap fun _ state => plain_module state _) fun info _ => ?_
    split <;> grind
  · grind

@[grind ←] theorem rel_objectHook (cls : Ref .cls) (name : String) (given : A.Plain v) (passed : A.Fit arguments) :
    A.rel m (k.objectHook v cls name arguments) (k'.objectHook v cls name arguments) := by
  refine .bind (quiet_hasMember ..) fun present _ => ?_
  split <;> grind

@[grind ←] theorem rel_hostHook (name : String) (given : A.Plain v) (passed : A.Fit arguments) :
    A.rel m (k.hostHook v name arguments) (k'.hostHook v name arguments) := by
  refine .bind (quiet_extension? ..) fun extension _ => ?_
  split
  · grind
  · refine .bind (quiet_hostType? v) fun type _ => ?_
    repeat' split
    all_goals grind

@[grind ←] theorem rel_hook (name : String) (given : A.Plain v)
    (passed : A.Fit arguments) : A.rel m (k.hook v name arguments) (k'.hook v name arguments) := by
  unfold hook
  split <;> grind

-- Truth and casts

@[grind ←] theorem rel_truthy (given : A.Plain v) : A.rel m (k.truthy v) (k'.truthy v) := by
  unfold truthy
  split
  · refine .bind (rel_callMethod _ given fun _ => rfl) fun answer _ => ?_
    split <;> grind
  · grind

@[grind ←] theorem quiet_castValue (target : Value) (given : A.Plain v) : A.Quiet m (castValue v target) := by
  unfold castValue
  split
  · refine .bind (.heap fun _ _ => rfl) fun fits _ => ?_
    split <;> grind
  · repeat' split
    all_goals grind
  · grind

-- Equality and order

theorem rel_allEqual (first : A.Plain as) (second : A.Plain bs)
    (each : ∀ a b, A.Plain a → A.Plain b → A.rel m (equal a b) (equal' a b)) :
    A.rel m (allEqual equal as bs) (allEqual equal' as bs) := by
  induction as generalizing bs with
  | nil => cases bs <;> exact .pure fun _ => rfl
  | cons a as ih =>
    cases bs with
    | nil => exact .pure fun _ => rfl
    | cons b bs =>
      rw [Plain.cons] at first second
      refine .bind (each a b first.1 second.1) fun equal _ => ?_
      split
      · exact ih first.2 second.2
      · exact .pure fun _ => rfl

theorem rel_equalsFrom (fuel : Nat) (first : A.Plain a) (second : A.Plain b) :
    A.rel m (k.equalsFrom fuel a b) (k'.equalsFrom fuel a b) := by
  induction fuel generalizing a b with
  | zero => exact .stop _
  | succ fuel ih =>
    have sameItems {as bs} (first : A.Plain as) (second : A.Plain bs) :
        A.rel m (if as.length = bs.length then allEqual (k.equalsFrom fuel) as bs else pure false)
          (if as.length = bs.length then allEqual (k'.equalsFrom fuel) as bs else pure false) := by
      split
      · exact rel_allEqual first second fun _ _ => ih
      · exact .pure fun _ => rfl
    unfold equalsFrom
    split
    · grind
    · grind
    · split
      · grind
      · exact .bind .listItems fun as first =>
          .bind .listItems fun bs second =>
          sameItems first second
    · exact sameItems (first.imp Value.plain_tuple.symm.trans) (second.imp Value.plain_tuple.symm.trans)
    · split
      · grind
      · refine .bind (.heap fun _ state => Dict.plain_items (plain_dict state _))
          fun entries known => .bind (.heap fun _ _ => rfl) fun size _ => ?_
        split
        · grind
        · refine .allM known fun ⟨key,value⟩ entry => ?_
          refine .bind (.heapExcept fun _ state => Dict.plain_get? (plain_dict state _)) fun theirs _ => ?_
          split <;> grind
    · grind

@[grind ←] theorem rel_equals (first : A.Plain a) (second : A.Plain b) : A.rel m (k.equals a b) (k'.equals a b) := by
  unfold equals
  rw [A.fuel_eq k k']
  exact rel_equalsFrom _ first second

@[grind ←] theorem rel_anyEquals (given : A.Plain items) (other : A.Plain v) :
    A.rel m (k.anyEquals items v) (k'.anyEquals items v) :=
  .anyM given fun _ item => rel_equals item other

@[grind ←] theorem rel_indexOf (start : Nat) (other : A.Plain v)
    (given : A.Plain items) : A.rel m (k.indexOf v start items) (k'.indexOf v start items) := by
  induction items generalizing start with
  | nil => exact .pure fun _ => rfl
  | cons item items ih =>
    rw [Plain.cons] at given
    refine .bind (rel_equals given.1 other) fun equal _ => ?_
    split
    · exact .pure fun _ => rfl
    · exact ih _ given.2

@[grind ←] theorem rel_countOf (other : A.Plain v) (given : A.Plain items) :
    A.rel m (k.countOf v items) (k'.countOf v items) := by
  refine .foldlM given (fun _ => rfl) fun count item _ known => ?_
  refine .bind (rel_equals known other) fun equal _ => ?_
  split <;> exact .pure fun _ => rfl

@[grind ←] theorem quiet_notOrdered (a b : Value) : A.Quiet m (notOrdered a b) := by grind [notOrdered]

theorem rel_orderItems {order} (first : A.Plain as) (second : A.Plain bs)
    (each : ∀ a b, A.Plain a → A.Plain b → A.rel m (order a b) (order' a b)) :
    A.rel m (k.orderItems order as bs) (k'.orderItems order' as bs) := by
  induction as generalizing bs with
  | nil => cases bs <;> exact .pure fun _ => rfl
  | cons a as ih =>
    cases bs with
    | nil => exact .pure fun _ => rfl
    | cons b bs =>
      rw [Plain.cons] at first second
      refine .bind (rel_equals first.1 second.1) fun equal _ => ?_
      split
      · exact ih first.2 second.2
      · refine .bind (each a b first.1 second.1) fun o _ => ?_
        split <;> grind

theorem rel_orderFrom (fuel : Nat) (first : A.Plain a) (second : A.Plain b) :
    A.rel m (k.orderFrom fuel a b) (k'.orderFrom fuel a b) := by
  induction fuel generalizing a b with
  | zero => exact .stop _
  | succ fuel ih =>
    unfold orderFrom
    split
    · exact .pure fun _ => rfl
    · exact .bind .listItems fun as first =>
        .bind .listItems fun bs second =>
        rel_orderItems first second fun _ _ => ih
    · exact rel_orderItems (first.imp Value.plain_tuple.symm.trans) (second.imp Value.plain_tuple.symm.trans) fun _ _ => ih
    · exact .heap fun _ _ => plain_maybe
    · split
      · exact .pure fun _ => rfl
      · split
        · exact .pure fun _ => plain_maybe
        · exact .pure fun _ => rfl

@[grind ←] theorem rel_order (first : A.Plain a) (second : A.Plain b) : A.rel m (k.order a b) (k'.order a b) := by
  unfold order
  rw [A.fuel_eq k k']
  exact rel_orderFrom _ first second

theorem rel_iterFrom (fuel : Nat) (given : A.Plain v) : A.rel m (k.iterFrom fuel v) (k'.iterFrom fuel v) := by
  induction fuel generalizing v with
  | zero => exact .stop _
  | succ fuel ih =>
    unfold iterFrom
    extract_lets byExtension byExtension'
    have extended : A.rel m byExtension byExtension' := by
      refine .bind (quiet_extension? ..) fun extension _ => ?_
      split
      · exact .bind (Engines.call (fun _ => rfl) given.one) fun _ => ih
      · grind
    split
    · exact .newCursor fun _ => rfl
    · exact .newCursor (given.imp Value.plain_tuple.symm.trans)
    · exact .newCursor fun _ => plain_characters _
    · exact .bind (.heap fun _ state => Dict.plain_keys (plain_dict state _)) fun _ known => .newCursor known
    · exact .bind (.heap fun _ state => OrderedMap.plain_values (plain_set state _)) fun _ known => .newCursor known
    · exact .newCursor fun _ => rfl
    · have reads (hp : Heap) (state : plain hp) (g : Ref .generator) : plain (hp.generator g).source := plain_generator state g
      exact .bind (.heap fun hp state => reads hp state _) fun _ known => .bind (ih known) fun _ _ => .newCursor fun _ => rfl
    · exact .newCursor fun _ => rfl
    · refine .bind (quiet_hasMember ..) fun iterable _ => ?_
      split
      · refine .bind (rel_callMethod _ given fun _ => rfl) fun answer known => ?_
        split
        · refine .bind (quiet_hasMember ..) fun advances _ => ?_
          split
          · exact .newCursor fun _ => rfl
          · grind
        · exact ih known
      · refine .bind (quiet_hasMember ..) fun advances _ => ?_
        split
        · exact .newCursor given
        · exact extended
    · exact extended

@[grind ←] theorem rel_iter (given : A.Plain v) : A.rel m (k.iter v) (k'.iter v) := by
  unfold iter
  rw [A.fuel_eq k k']
  exact rel_iterFrom _ given

@[grind ←] theorem rel_nextOfObject (given : A.Plain v) : A.rel m (k.nextOfObject v) (k'.nextOfObject v) :=
  A.rel_excusing Fault.isStopIteration (fun _ => rfl) (rel_getAttr _ given) fun _ next =>
    .bind (Engines.call next fun _ => rfl) fun _ item => .pure item

-- A walk through a container moves on by itself. Reading the cursor and moving it is one step here,
-- because no single change of a cursor tells where it came from.
def takeItem (c : Ref .cursor) : Exec (Option (Option Value)) := do
  match ← heap fun h => (h.cursor c).cursor with
  | .list r index =>
    setCursor c (.list r (index + 1))
    return some (← heap fun h => (h.list r)[index]?)
  | .items [] => return some none
  | .items (item :: rest) =>
    setCursor c (.items rest)
    return some (some item)
  | .range r index =>
    setCursor c (.range r (index + 1))
    return some ((r.get? index).map .int)
  | _ => return none

def askFrom (k : Engine) (fuel : Nat) (c : Ref .cursor) : Cursor → Exec (Option Value)
  | .mapped inner g => do
    match ← k.advanceFrom fuel inner with
    | none => return none
    | some item =>
      match ← k.step g item with
      | some element => return some element
      | none => k.advanceFrom fuel c
  | .object receiver => k.nextOfObject receiver
  | .shared s => do
    if ← heap fun h => (h.cursor s).busy then fail .iteratorBusy
    else
      modify (setBusy s true)
      restoring (setBusy s false) (k.advanceFrom fuel s)
  | _ => return none

theorem advanceFrom_succ (k : Engine) (fuel : Nat) (c : Ref .cursor) : k.advanceFrom (fuel + 1) c = (do
      match ← takeItem c with
      | some item => return item
      | none => askFrom k fuel c (← heap fun h => (h.cursor c).cursor)) := by
  funext w
  have read : heap (fun h => (h.cursor c).cursor) w = .done (w.heap.cursor c).cursor w := rfl
  simp only [advanceFrom,takeItem,bind_apply,read]
  cases held : (w.heap.cursor c).cursor with
  | items items => cases items <;> rfl
  | list | range => rfl
  | mapped | object | shared =>
    change _ = (heap (fun h => (h.cursor c).cursor) >>= askFrom k fuel c) w
    rw [bind_done read,held]
    rfl

theorem quiet_takeItem (c : Ref .cursor) : A.Quiet m (takeItem c) := by
  refine A.quiet_still fun w state => ?_
  have known (tidy : A.tidy) : plain (w.heap.cursor c).cursor := plain_cursor (state tidy) c
  have read : heap (fun h => (h.cursor c).cursor) w = .done (w.heap.cursor c).cursor w := rfl
  have moves {next item} (ran : takeItem c w = .done (some item) { w with
        heap := { w.heap with
          cursors := w.heap.cursors.modify c.id fun i => { i with cursor := next } } })
      (given : A.Plain next) (value : A.Plain item) (onward : next.Onward (w.heap.cursor c).cursor) :
      ∃ a left, Still A.tidy (takeItem c) w a left := by
    refine ⟨_,_,ran,value,fun tidy => ?_,rfl,.modify_cursor onward,List.prefix_rfl⟩
    have tables := plain_iff.mp (state tidy)
    exact plain_iff.mpr
      { tables with cursors := plain_modify tables.cursors fun _ _ => given tidy }
  have rests {taken} (ran : takeItem c w = .done taken w)
      (value : A.Plain taken) : ∃ a left, Still A.tidy (takeItem c) w a left :=
    ⟨_,_,ran,value,state,rfl,.refl w⟩
  unfold takeItem at moves rests ⊢
  rw [bind_done read] at moves rests
  generalize (w.heap.cursor c).cursor = cursor at *
  cases cursor with
  | list r index =>
    exact moves rfl (fun _ => rfl) (fun tidy => plain_getElem? (Heap.plain_list (state tidy) r))
      ⟨_,rfl,Nat.le_succ index⟩
  | items items =>
    cases items with
    | nil => exact rests rfl fun _ => rfl
    | cons item rest =>
      obtain ⟨value,given⟩ := Plain.cons.mp known
      exact moves rfl given value ⟨_,rfl,List.suffix_cons item rest⟩
  | range r index =>
    exact moves rfl (fun _ => rfl) (fun _ => plain_map plain_maybe fun _ _ => rfl)
      ⟨_,rfl,Nat.le_succ index⟩
  | mapped | object | shared => exact rests rfl fun _ => rfl

theorem rel_advanceFrom (fuel : Nat) (c : Ref .cursor) : A.rel m (k.advanceFrom fuel c) (k'.advanceFrom fuel c) := by
  induction fuel generalizing c with
  | zero => exact .stop _
  | succ fuel ih =>
    rw [advanceFrom_succ,advanceFrom_succ]
    refine .bind (quiet_takeItem c) fun taken given => ?_
    split
    · exact .pure given
    refine .bind (.heap fun _ state => plain_cursor state c) fun cursor known => ?_
    unfold askFrom
    split
    · refine .bind (ih _) fun item given => ?_
      split
      · exact .pure fun _ => rfl
      · refine .bind (Engines.step given) fun element known => ?_
        split
        · exact .pure known
        · exact ih c
    · exact rel_nextOfObject known
    · refine .bind (.heap fun _ _ => rfl) fun busy _ => ?_
      split
      · exact .fail _
      · exact .bind (quiet_markBusy ..) fun _ _ => A.rel_setBusy _ _ (ih _)
    · exact .pure fun _ => rfl

@[grind ←] theorem rel_advance (c : Ref .cursor) : A.rel m (k.advance c) (k'.advance c) := by
  unfold advance
  rw [A.fuel_eq k k']
  exact rel_advanceFrom _ c

@[grind ←] theorem rel_advanceShared (c : Ref .cursor) : A.rel m (k.advanceShared c) (k'.advanceShared c) := by
  have advanced : A.rel m (restoring (setBusy c false) (k.advance c)) (restoring (setBusy c false) (k'.advance c)) :=
    A.rel_setBusy c false (rel_advance c)
  refine .bind (.heap fun _ _ => rfl) fun busy _ => ?_
  split
  · exact .fail _
  · exact .bind (quiet_markBusy ..) fun _ _ => advanced

theorem rel_drainFrom (c : Ref .cursor) (fuel : Nat)
    (given : A.Plain before) : A.rel m (k.drainFrom c fuel before) (k'.drainFrom c fuel before) := by
  induction fuel generalizing before with
  | zero => exact .stop _
  | succ fuel ih =>
    refine .bind (rel_advance c) fun item known => ?_
    split
    · exact ih fun tidy => plain_push (given tidy) (known tidy)
    · exact .pure given

@[grind ←] theorem rel_items (given : A.Plain v) : A.rel m (k.items v) (k'.items v) := by
  unfold items
  rw [A.fuel_eq k k']
  split
  · exact .heap fun _ state => Heap.plain_list state _
  · exact .pure (given.imp Value.plain_tuple.symm.trans)
  · exact .bind (rel_iter given) fun c _ => .bind (rel_drainFrom c _ fun _ => rfl) fun _ known => .pure known

@[grind ←] theorem rel_iterator (given : A.Plain v) : A.rel m (k.iterator v) (k'.iterator v) := by
  unfold iterator
  split
  · grind
  · refine .bind (quiet_hasMember ..) fun advances _ => ?_
    split <;> grind
  · grind

@[grind ←] theorem rel_hookText (name : String) (given : A.Plain v) : A.rel m (k.hookText v name) (k'.hookText v name) := by
  refine .bind (rel_callMethod name given fun _ => rfl) fun answer _ => ?_
  split <;> grind

theorem rel_textFrom (fuel : Nat) (asText : Bool) (given : A.Plain v) :
    A.rel m (k.textFrom fuel asText v) (k'.textFrom fuel asText v) := by
  induction fuel generalizing asText v with
  | zero => exact .stop _
  | succ fuel ih =>
    have joined {items : List Value} (given : A.Plain items) :
        A.rel m (do return ", ".intercalate (← items.mapM (k.textFrom fuel false)))
          (do return ", ".intercalate (← items.mapM (k'.textFrom fuel false))) :=
      .map (.mapM given fun _ => ih false) fun _ => rfl
    unfold textFrom
    split
    · exact .pure fun _ => rfl
    · grind
    · extract_lets _ onward _ onward'
      have after (shown : Option Value) (known : A.Plain shown) : A.rel m (onward shown) (onward' shown) := by
        unfold onward onward'
        split
        · exact ih true known
        · refine .bind (rel_hostHook _ given fun _ => rfl) fun text known => ?_
          split
          · exact ih true known
          · grind
      split
      · exact .bind (rel_hostHook _ given fun _ => rfl) after
      · exact .bind (.pure fun _ => rfl) after
    · exact A.rel_showingList _ (.bind .listItems fun items known => .bind (joined known) fun text _ => .pure fun _ => rfl)
    · exact .bind (ih false (Plain.cons.mp (given.imp Value.plain_tuple.symm.trans)).1) fun text _ => .pure fun _ => rfl
    · exact .bind (joined (given.imp Value.plain_tuple.symm.trans)) fun text _ => .pure fun _ => rfl
    · refine A.rel_showingDict _ (.bind (.heap fun _ state => Dict.plain_items (plain_dict state _)) fun entries known => ?_)
      refine .bind (.mapM known fun ⟨key,value⟩ entry => ?_) fun texts _ => .pure fun _ => rfl
      obtain ⟨first,second⟩ := Plain.pair.mp entry
      exact .bind (ih false first) fun key _ => .bind (ih false second) fun value _ => .pure fun _ => rfl
    · refine .bind (.heap fun _ state => OrderedMap.plain_values (plain_set state _)) fun items known => ?_
      split
      · exact .pure fun _ => rfl
      · exact .bind (joined known) fun text _ => .pure fun _ => rfl
    · exact .bind (ih false fun tidy => nomatch given tidy) fun value _ => .pure fun _ => rfl
    · exact .bind (ih false given) fun receiver _ => .bind (.heap fun _ _ => rfl) fun name _ => .pure fun _ => rfl
    · exact .heap fun _ _ => rfl

@[grind ←] theorem rel_repr (given : A.Plain v) : A.rel m (k.repr v) (k'.repr v) := by
  unfold Engine.repr
  rw [A.fuel_eq k k']
  exact rel_textFrom _ _ given

@[grind ←] theorem rel_str (given : A.Plain v) : A.rel m (k.str v) (k'.str v) := by
  unfold str
  rw [A.fuel_eq k k']
  exact rel_textFrom _ _ given

@[grind ←] theorem quiet_sequenceIndex (container index : Value) : A.Quiet m (sequenceIndex container index) := by
  unfold sequenceIndex
  split <;> grind

@[grind ←] theorem quiet_asLength (v : Value) : A.Quiet m (asLength v) := by
  unfold asLength
  repeat' split
  all_goals grind

section

variable (given : A.Plain v)

include given

@[grind ←] theorem rel_missingKey : A.rel m (k.missingKey v : Exec α) (k'.missingKey v) :=
  .bind (rel_repr given) fun _ _ => .fail _

@[grind ←] theorem rel_getItem (place : A.Plain a) : A.rel m (k.getItem v a) (k'.getItem v a) := by
  unfold getItem
  split
  · exact .bind (quiet_sequenceIndex ..) fun _ _ =>
      .bind (.heap fun _ state => Heap.plain_list state _) fun items known =>
      .bind (.lift fun _ => plain_result) fun _ _ => .pure (known.imp fun known => plain_getD (plain_getElem? known) rfl)
  · exact .bind (quiet_sequenceIndex ..) fun _ _ => .bind (.lift fun _ => plain_result) fun _ _ =>
      .pure (given.imp fun given => plain_getD (plain_at (Value.plain_tuple.symm.trans given)) rfl)
  · exact .bind (quiet_sequenceIndex ..) fun _ _ => .bind (.lift fun _ => plain_result) fun _ _ =>
      .pure fun _ => plain_getD (plain_at (plain_characters _)) rfl
  · refine .bind (quiet_sequenceIndex ..) fun _ _ => .bind (.lift fun _ => plain_result) fun position _ => ?_
    refine .pure fun _ => ?_
    cases Range.get? _ position <;> rfl
  · refine .bind (.heapExcept fun _ state => Dict.plain_get? (plain_dict state _)) fun value _ => ?_
    split <;> grind
  · refine .bind (rel_hook _ given place.one) fun value _ => ?_
    split <;> grind

@[grind ←] theorem rel_setItem (place : A.Plain a) (new : A.Plain b) : A.rel m (k.setItem v a b) (k'.setItem v a b) := by
  unfold setItem
  split
  · exact .bind (quiet_sequenceIndex ..) fun _ _ => .bind (.heap fun _ _ => rfl) fun _ _ =>
      .bind (.lift fun _ => plain_result) fun _ _ =>
      .modifyList _ fun _ tidy known => plain_setIfInBounds known (new tidy)
  · exact .setEntry _ place new
  · refine .bind (rel_hook _ given ?_) fun answer _ => ?_
    · exact fun tidy => fit_of_plain (by simp [place tidy,new tidy])
    · split <;> grind

@[grind ←] theorem rel_delItem (place : A.Plain a) : A.rel m (k.delItem v a) (k'.delItem v a) := by
  unfold delItem
  split
  · grind
  · exact .bind (quiet_sequenceIndex ..) fun _ _ => .bind (.heap fun _ _ => rfl) fun _ _ =>
      .bind (.lift fun _ => plain_result) fun _ _ =>
      .modifyList _ fun _ _ known => plain_eraseIdxIfInBounds known
  · refine .bind (.lift fun _ => plain_result) fun hash _ => .bind (.heap fun _ _ => rfl) fun present _ => ?_
    split
    · exact .modifyDict _ fun _ _ known => Dict.plain_erase known
    · grind
  · grind

@[grind ←] theorem rel_contains (item : A.Plain a) : A.rel m (k.contains v a) (k'.contains v a) := by
  unfold contains
  split
  · split <;> grind
  · exact .bind .listItems fun _ known => rel_anyEquals known item
  · grind
  · grind
  · exact .heapExcept fun _ _ => plain_result
  · exact .heapExcept fun _ _ => plain_result
  · refine .bind (rel_hook _ given item.one) fun answer _ => ?_
    split <;> grind

@[grind ←] theorem rel_len : A.rel m (k.len v) (k'.len v) := by
  unfold len
  split
  iterate 6 grind
  refine .bind (rel_hook _ given fun _ => rfl) fun length _ => ?_
  split <;> grind

end

theorem quiet_containerBinary (op : BinaryOp) (first : A.Plain a) (second : A.Plain b) : A.Quiet m (containerBinary op a b) := by
  have made {x : Exec Value} (clean : A.Quiet m x) : A.Quiet m (do return some (← x)) := .bind clean fun _ known => .pure known
  unfold containerBinary
  split
  · exact .pure fun _ => rfl
  · exact made (.lift fun _ => plain_repeatText ..)
  · exact made (.lift fun _ => plain_repeatText ..)
  · exact .bind (.heap fun _ state => Heap.plain_list state _) fun _ first =>
      .bind (.heap fun _ state => Heap.plain_list state _) fun _ second =>
      .map (.newListRef fun tidy => plain_concat (first tidy) (second tidy)) fun _ => rfl
  · exact .bind .listItems fun _ known => .bind (.lift (known.imp plain_repeatItems)) fun _ known => made (.newList known)
  · exact .bind .listItems fun _ known => .bind (.lift (known.imp plain_repeatItems)) fun _ known => made (.newList known)
  · exact made (.newTuple fun tidy => plain_append.mpr
      ⟨Value.plain_tuple.symm.trans (first tidy),Value.plain_tuple.symm.trans (second tidy)⟩)
  · exact .bind (.lift (first.imp fun first => plain_repeatItems (Value.plain_tuple.symm.trans first)))
      fun _ known => made (.newTuple known)
  · exact .bind (.lift (second.imp fun second => plain_repeatItems (Value.plain_tuple.symm.trans second)))
      fun _ known => made (.newTuple known)
  · refine .bind (.heap fun _ state => ValueSet.plain_combine (plain_set state _)
      (plain_set state _)) fun set known => ?_
    split
    · exact made (.newSet known)
    · exact .pure fun _ => rfl
  · exact .bind (.heap fun _ state => plain_dict state _) fun _ first =>
      .bind (.heap fun _ state => plain_dict state _) fun _ second =>
      .bind (.lift fun tidy => Dict.plain_insertItems (first tidy) (Dict.plain_items (second tidy))) fun _ known =>
      made (.newDict known)
  · exact .pure fun _ => rfl

@[grind ←] theorem quiet_builtinBinary (op : BinaryOp) (first : A.Plain a) (second : A.Plain b) :
    A.Quiet m (builtinBinary op a b) := by
  unfold builtinBinary
  split
  case h_1 x y =>
    split
    case h_1 v found =>
      have known := plain_boolBinary op x y
      rw [found] at known
      exact .pure fun _ => known
    case h_2 => exact .lift fun _ => plain_intBinary ..
  case h_2 =>
    split
    · exact .lift fun _ => plain_intBinary ..
    · split
      · exact .bind (.lift fun _ => plain_any fun _ => plain_maybe) fun _ _ => .pure fun _ => plain_map plain_maybe fun _ _ => rfl
      · exact quiet_containerBinary op first second

@[grind ←] theorem rel_compares (op : BinaryOp) (first : A.Plain a) (second : A.Plain b) :
    A.rel m (k.compares op a b) (k'.compares op a b) :=
  .bind (rel_order first second) fun _ _ => .pure fun _ => plain_map plain_maybe fun _ _ => rfl

@[grind ←] theorem quiet_unsupported (op : BinaryOp) (a b : Value) : A.Quiet m (unsupported op a b) := by
  refine .bind (quiet_typeName a) fun a _ => .bind (quiet_typeName b) fun b _ => ?_
  split <;> grind

-- Where a rule goes on after a choice, the rest of it is a continuation that all choices share.
@[grind ←] theorem rel_scriptBinary (op : BinaryOp) (first : A.Plain a) (second : A.Plain b) :
    A.rel m (k.scriptBinary op a b) (k'.scriptBinary op a b) := by
  unfold scriptBinary
  extract_lets right left right' left'
  have afterRight (answer : Option Value) (known : A.Plain answer) : A.rel m (right answer) (right' answer) := by
    unfold right right'
    split
    · exact .pure known
    · split
      · exact .pure fun _ => rfl
      · refine .bind (quiet_extension? ..) fun extension _ => ?_
        split <;> grind
  have afterLeft (answer : Option Value) (known : A.Plain answer) : A.rel m (left answer) (left' answer) := by
    unfold left left'
    split
    · exact .pure known
    · split
      · exact .bind (rel_objectHook _ _ second first.one) afterRight
      · exact .bind (.pure fun _ => rfl) afterRight
  split
  · exact .bind (rel_objectHook _ _ first second.one) afterLeft
  · exact .bind (.pure fun _ => rfl) afterLeft

@[grind ←] theorem rel_binary (op : BinaryOp) (first : A.Plain a) (second : A.Plain b) :
    A.rel m (k.binary op a b) (k'.binary op a b) := by
  refine .bind (rel_scriptBinary op first second) fun answer _ => ?_
  split
  · grind
  · split
    case h_1 | h_2 => grind
    case h_3 | h_4 | h_5 | h_6 =>
      refine .bind (rel_compares _ first second) fun answer _ => ?_
      split <;> grind
    case h_7 =>
      refine .bind (quiet_builtinBinary op first second) fun answer _ => ?_
      split <;> grind

@[grind ←] theorem rel_augment (op : BinaryOp) (first : A.Plain a) (second : A.Plain b) :
    A.rel m (k.augment op a b) (k'.augment op a b) := by
  unfold augment
  extract_lets onward onward'
  have after (answer : Option Value) (known : A.Plain answer) : A.rel m (onward answer) (onward' answer) := by
    unfold onward onward'
    split
    · exact .pure known
    · exact .bind (rel_items second) fun extra known => .map (.modifyList _ fun _ tidy given =>
        plain_concat given (plain_toArray.trans (known tidy))) fun _ => rfl
    · exact rel_binary op first second
  split
  · exact .bind (rel_objectHook _ _ first second.one) after
  · exact .bind (.pure fun _ => rfl) after

@[grind ←] theorem rel_unary (op : UnaryOp) (given : A.Plain v) : A.rel m (k.unary op v) (k'.unary op v) := by
  unfold unary
  extract_lets onward onward'
  have after (answer : Option Value) (known : A.Plain answer) : A.rel m (onward answer) (onward' answer) := by
    refine .bind (quiet_extension? ..) fun extension _ => ?_
    split
    · exact .pure known
    · exact Engines.call (fun _ => rfl) given.one
    · split
      · exact .pure fun _ => rfl
      · exact .pure fun _ => rfl
      · exact .lift fun _ => plain_onScalar _ rfl
      · exact .bind (quiet_typeName _) fun _ _ => .fail _
  split
  · exact .bind (rel_objectHook _ _ given fun _ => rfl) after
  · exact .bind (.pure fun _ => rfl) after

@[grind ←] theorem rel_sort (reverse : Bool) (given : A.Plain items) (criterion : A.Plain key) :
    A.rel m (k.sort items key reverse) (k'.sort items key reverse) := by
  have less {a b : Value × Value} (first : A.Plain a) (second : A.Plain b) :
      A.rel m (do k.truthy (← k.binary .lt a.1 b.1)) (do k'.truthy (← k'.binary .lt a.1 b.1)) :=
    .bind (rel_binary .lt (Plain.pair.mp first).1 (Plain.pair.mp second).1) fun _ => rel_truthy
  refine .bind (.mapM given fun item known => ?_) fun keyed known => ?_
  · split
    · exact .pure (Plain.pair.mpr ⟨known,known⟩)
    · exact .pure (Plain.pair.mpr ⟨known,known⟩)
    · exact .bind (Engines.call criterion known.one) fun _ answer => .pure (Plain.pair.mpr ⟨answer,known⟩)
  · refine .bind (.mergeSort known fun a b first second => ?_) fun sorted known => .pure ?_
    · split
      · exact less second first
      · exact less first second
    · exact known.imp fun known => plain_mapped known fun _ pair => (plain_pair.mp pair).2

end EmbedScript.Accord
