import EmbedScript.Proofs.Keyword.Plain

/-!
Relations between runs on two engines. What the constructs respect, and the requests to the engines,
every rule of the language respects.
-/

namespace EmbedScript

open Exec List Heap

-- What lasts

-- A cursor goes on and never back; one that is no walk through a container stays as it is.
def Cursor.Onward (later : Cursor) : Cursor → Prop
  | .list r index => ∃ next, later = .list r next ∧ index ≤ next
  | .items before => ∃ rest, later = .items rest ∧ rest <:+ before
  | .range r index => ∃ next, later = .range r next ∧ index ≤ next
  | other => later = other

theorem Cursor.Onward.refl (c : Cursor) : c.Onward c := by
  cases c with
  | list | range => exact ⟨_,rfl,Nat.le_refl _⟩
  | items => exact ⟨_,rfl,suffix_rfl⟩
  | mapped | object | shared => rfl

theorem Cursor.Onward.trans {next} {c last : Cursor} (first : next.Onward c) (rest : last.Onward next) :
    last.Onward c := by
  cases c with
  | list | range =>
    obtain ⟨_,rfl,before⟩ := first
    obtain ⟨_,rfl,after⟩ := rest
    exact ⟨_,rfl,Nat.le_trans before after⟩
  | items =>
    obtain ⟨_,rfl,before⟩ := first
    obtain ⟨_,rfl,after⟩ := rest
    exact ⟨_,rfl,after.trans before⟩
  | mapped | object | shared =>
    cases first
    exact rest

-- Cursors and cells are added and never taken away, and a generator stays as it was made.
structure Heap.Grows (h grown : Heap) : Prop where
  generators : h.generators.toList <+: grown.generators.toList
  cursors : h.cursors.size ≤ grown.cursors.size
  onward (c : Ref .cursor) : c.id < h.cursors.size → (grown.cursor c).cursor.Onward (h.cursor c).cursor
  cells : h.cells.size ≤ grown.cells.size

variable {h : Heap}

theorem Heap.Grows.of_eq (generators : grown.generators = h.generators)
    (cursors : grown.cursors = h.cursors) (cells : grown.cells.size = h.cells.size) :
    h.Grows grown where
  generators := generators ▸ prefix_rfl
  cursors := Nat.le_of_eq (congrArg Array.size cursors.symm)
  onward c _ := by
    rw [cursor,cursors]
    exact .refl _
  cells := Nat.le_of_eq cells.symm

theorem Heap.Grows.modify_cursor (onward : (f (h.cursor c)).cursor.Onward (h.cursor c).cursor) :
    h.Grows { h with cursors := h.cursors.modify c.id f } where
  generators := prefix_rfl
  cursors := by simp
  onward other there := by
    rw [cursor,Array.getElem?_modify]
    split
    case isTrue same =>
      obtain rfl : c = other := congrArg Ref.mk same
      rw [cursor,Array.getElem?_eq_getElem there] at onward ⊢
      exact onward
    case isFalse => exact .refl _
  cells := Nat.le_refl _

theorem Heap.Grows.push_cursor (info : CursorInfo) : h.Grows { h with cursors := h.cursors.push info } where
  generators := prefix_rfl
  cursors := by simp
  onward c there := by
    rw [cursor,Array.getElem?_push_lt there,← Array.getElem?_eq_getElem there]
    exact .refl _
  cells := Nat.le_refl _

structure World.Grows (w left : World) : Prop where
  heap : w.heap.Grows left.heap
  elements : w.plans.elements.toList <+: left.plans.elements.toList

theorem World.Grows.of_eq {w : World} (heap : left.heap = w.heap) (plans : left.plans = w.plans) :
    w.Grows left :=
  ⟨heap ▸ .of_eq rfl rfl rfl,plans ▸ prefix_rfl⟩

theorem World.Grows.refl (w : World) : w.Grows w := .of_eq rfl rfl

theorem World.Grows.trans {w left : World} (first : w.Grows middle) (rest : middle.Grows left) : w.Grows left where
  heap := {
    generators := first.heap.generators.trans rest.heap.generators
    cursors := Nat.le_trans first.heap.cursors rest.heap.cursors
    onward c there := (first.heap.onward c there).trans (rest.heap.onward c (Nat.lt_of_lt_of_le there first.heap.cursors))
    cells := Nat.le_trans first.heap.cells rest.heap.cells }
  elements := first.elements.trans rest.elements

-- Constructs and requests

-- How a step may end that is no change of the bookkeeping.
structure Exec.Still {α : Type} [Plainness α] (tidy : Prop) (x : Exec α) (w : World) (a : α)
    (left : World) : Prop where
  ran : x w = .done a left
  value : tidy → plain a
  state : tidy → plain left
  kept : left.toBookkeeping = w.toBookkeeping
  grows : w.Grows left

-- Statements move on from line to line. What is not `moving` leaves the line alone. A relation may
-- hold only as long as keywords stay out of data.
structure Accord where
  tidy : Prop
  rel : {α : Type} → [Plainness α] → (moving : Bool) → Exec α → Exec α → Prop
  rel_bind {α β : Type} [Plainness α] [Plainness β] {m : Bool} {x y : Exec α} {f g : α → Exec β} :
    rel m x y → (∀ a, (tidy → plain a) → rel m (f a) (g a)) → rel m (x >>= f) (y >>= g)
  quiet_still {α : Type} [Plainness α] {m : Bool} {x : Exec α} :
    (∀ w, (tidy → plain w) → ∃ a left, x.Still tidy w a left) → rel m x x
  quiet_fail {α : Type} [Plainness α] {m : Bool} (e : Fault) : rel m (fail e : Exec α) (fail e)
  quiet_stop {α : Type} [Plainness α] {m : Bool} (h : Halt) : rel m (stop h : Exec α) (stop h)
  quiet_setLine (line : Nat) : rel true (setLine line) (setLine line)
  rel_setBusy {α : Type} [Plainness α] {m : Bool} {x y : Exec α} (c : Ref .cursor) (busy : Bool) :
    rel m x y → rel m (restoring (setBusy c busy) x) (restoring (setBusy c busy) y)
  rel_showingList {m : Bool} {x y : Exec String} (r : Ref .list) :
    rel m x y → rel m (showingList r x) (showingList r y)
  rel_showingDict {m : Bool} {x y : Exec String} (r : Ref .dict) :
    rel m x y → rel m (showingDict r x) (showingDict r y)
  -- The mark is set before what leads up to the errors that are excused.
  rel_excusing {α β : Type} [Plainness α] [Plainness β] {m : Bool} {x y : Exec α} {f g : α → Exec β}
    (handles : Fault → Bool) {instead : β} (value : tidy → plain instead) : rel m x y →
    (∀ a, (tidy → plain a) → rel m (f a) (g a)) →
    rel m (do let mark ← look (·.trace.size); let a ← x; excusing mark handles instead (f a))
      (do let mark ← look (·.trace.size); let a ← y; excusing mark handles instead (g a))

namespace Accord

-- A computation that asks no engine has only itself to accord with.
abbrev Quiet (A : Accord) {α : Type} [Plainness α] (moving : Bool) (x : Exec α) : Prop := A.rel moving x x

abbrev Plain (A : Accord) {α : Type} [Plainness α] (a : α) : Prop := A.tidy → plain a

abbrev Fit (A : Accord) (arguments : List Value) : Prop := A.tidy → fit arguments

class Engines (A : Accord) (k k' : Engine) : Prop where
  fuel : k.fuel = k'.fuel
  call {m : Bool} {callee : Value} {arguments : List Value} : A.Plain callee → A.Fit arguments →
    A.rel m (k.call callee arguments) (k'.call callee arguments)
  step {m : Bool} {g : Ref .generator} {item : Value} : A.Plain item →
    A.rel m (k.step g item) (k'.step g item)
  importModule {m : Bool} (path : String) : A.rel m (k.importModule path) (k'.importModule path)
  -- An import whose failure is worded by another import.
  importBelow {m : Bool} (reword : Fault → Fault) (path : String) :
    A.rel m (onFault reword id (k.importModule path)) (onFault reword id (k'.importModule path))
  enter {m : Bool} {c : Call} {x y : Exec Value} (function : c ≠ .module) :
    A.rel true x y → A.rel m (k.enter c x) (k'.enter c y)

theorem fuel_eq (A : Accord) (k k' : Engine) [same : A.Engines k k'] : k.fuel = k'.fuel := same.fuel

variable {A : Accord} [Plainness α] [Plainness β] {y : Exec α}
  {as : List α}

namespace Plain

variable {a : α}

theorem imp {b : β} (known : A.Plain a) (gives : plain a → plain b) : A.Plain b := fun tidy => gives (known tidy)

theorem pair {b : β} : A.Plain (a,b) ↔ A.Plain a ∧ A.Plain b := by simp [Plain,imp_and]

theorem cons : A.Plain (a :: as) ↔ A.Plain a ∧ A.Plain as := by simp [Plain,imp_and]

theorem mem (given : A.Plain as) (member : a ∈ as) : A.Plain a := fun tidy => plain_list.mp (given tidy) a member

theorem two (first : A.Plain a) (second : A.Plain b) : A.Plain [a,b] := cons.mpr ⟨first,cons.mpr ⟨second,fun _ => rfl⟩⟩

theorem one (known : A.Plain v) : A.Fit [v] := fun tidy => fit_of_plain (by simp [known tidy])

end Plain

namespace rel

-- Sequences and states

@[grind ←] theorem bind {f : α → Exec β} (first : A.rel m x y)
    (rest : ∀ a, A.Plain a → A.rel m (f a) (g a)) : A.rel m (x >>= f) (y >>= g) :=
  A.rel_bind first rest

@[grind ←] theorem fail (e : Fault) : A.Quiet m (fail e : Exec α) := A.quiet_fail e

@[grind ←] theorem stop (h : Halt) : A.Quiet m (stop h : Exec α) := A.quiet_stop h

@[grind ←] theorem look {f : World → α} (reads : ∀ w, plain w → plain (f w)) : A.Quiet m (look f) :=
  A.quiet_still fun w state => ⟨_,_,rfl,fun tidy => reads w (state tidy),state,rfl,.refl w⟩

@[grind ←] theorem pure (value : A.Plain a) : A.Quiet m (pure a : Exec α) :=
  A.quiet_still fun w state => ⟨_,_,rfl,value,state,rfl,.refl w⟩

@[grind ←] theorem heap {f : Heap → α} (reads : ∀ hp, plain hp → plain (f hp)) : A.Quiet m (heap f) := look fun w => reads w.heap

theorem listItems {r} : A.Quiet m (Exec.heap fun h => (h.list r).toList) :=
  heap fun _ state => Heap.plain_list state r

theorem ofExcept {r : Except Fault α} (value : A.Plain r) : A.Quiet m (ofExcept r) := by
  cases r with
  | error e => exact fail e
  | ok a => exact pure value

@[grind ←] theorem lift {r : Except Fault α} (value : A.Plain r) : A.Quiet m (liftM r) := ofExcept value

@[grind ←] theorem heapExcept {f : Heap → Except Fault α} (reads : ∀ hp, plain hp → plain (f hp)) : A.Quiet m (heapExcept f) :=
  bind (heap reads) fun _ value => ofExcept value

theorem map {g : α → β} (first : A.rel m x y) (values : ∀ a, plain (g a)) : A.rel m (do return g (← x)) (do return g (← y)) :=
  bind first fun a _ => pure fun _ => values a

@[grind ←] theorem discard (first : A.rel m x y) : A.rel m (discard x) (discard y) := bind first fun _ _ => pure fun _ => rfl

theorem modify {f} (keeps : ∀ w, plain w → plain (f w))
    (kept : ∀ w, (f w).toBookkeeping = w.toBookkeeping) (grows : ∀ w : World, w.Grows (f w)) :
    A.Quiet m (modify f) :=
  A.quiet_still fun w state => ⟨_,_,rfl,fun _ => rfl,fun tidy => keeps w (state tidy),kept w,grows w⟩

theorem modifyGetHeap {f : Heap → α × Heap} (grows : ∀ hp : Heap, hp.Grows (f hp).2)
    (keeps : ∀ hp, A.tidy → hp.Tables → plain (f hp).1 ∧ (f hp).2.Tables) :
    A.Quiet m (modifyGetHeap f) := by
  refine A.quiet_still fun w state => ⟨_,_,rfl,fun tidy => ?_,fun tidy => ?_,rfl,grows w.heap,prefix_rfl⟩
  · exact (keeps w.heap tidy (plain_iff.mp (state tidy))).1
  · exact plain_iff.mpr (keeps w.heap tidy (plain_iff.mp (state tidy))).2

theorem modifyHeap {f} (grows : ∀ hp : Heap, hp.Grows (f hp))
    (keeps : ∀ hp, A.tidy → hp.Tables → (f hp).Tables) : A.Quiet m (modifyHeap f) :=
  modifyGetHeap (f := fun hp => ((),f hp)) grows fun hp tidy tables => ⟨rfl,keeps hp tidy tables⟩

@[grind ←] theorem write (text : String) : A.Quiet m (write text) :=
  A.quiet_still fun _ state => ⟨_,_,rfl,fun _ => rfl,state,rfl,.of_eq rfl rfl⟩

theorem excusing (handles : Fault → Bool) (value : A.Plain instead) (inside : A.rel m x y) :
    A.rel m (do let mark ← Exec.look (·.trace.size); excusing mark handles instead x)
      (do let mark ← Exec.look (·.trace.size); excusing mark handles instead y) :=
  A.rel_excusing handles value (pure (a := ()) fun _ => rfl) fun _ _ => inside

-- New values

@[grind ←] theorem newTag : A.Quiet m newTag :=
  modifyGetHeap (fun _ => .of_eq rfl rfl rfl) fun _ _ tables => ⟨rfl,{ tables with }⟩

@[grind ←] theorem newTuple (given : A.Plain items) : A.Quiet m (newTuple items) :=
  bind newTag fun _ _ => pure (given.imp Value.plain_tuple.trans)

@[grind ←]
theorem newListRef {items} (given : A.Plain items) : A.Quiet m (newListRef items) :=
  modifyGetHeap (fun _ => .of_eq rfl rfl rfl) fun _ tidy tables =>
    ⟨rfl,{ tables with lists := plain_push tables.lists (given tidy) }⟩

@[grind ←] theorem newList (given : A.Plain items) : A.Quiet m (newList items) :=
  bind (newListRef given) fun _ _ => pure fun _ => rfl

@[grind ←] theorem newDict {d} (given : A.Plain d) : A.Quiet m (newDict d) :=
  bind (modifyGetHeap (fun _ => .of_eq rfl rfl rfl) fun _ tidy tables =>
    ⟨rfl,{ tables with dicts := plain_push tables.dicts (given tidy) }⟩) fun _ _ => pure fun _ => rfl

@[grind ←] theorem newSet {s} (given : A.Plain s) : A.Quiet m (newSet s) :=
  bind (modifyGetHeap (fun _ => .of_eq rfl rfl rfl) fun _ tidy tables =>
    ⟨rfl,{ tables with sets := plain_push tables.sets (given tidy) }⟩) fun _ _ => pure fun _ => rfl

@[grind ←] theorem newFunction (f : FunctionInfo) : A.Quiet m (newFunction f) :=
  modifyGetHeap (fun _ => .of_eq rfl rfl rfl) fun _ _ tables => ⟨rfl,{ tables with }⟩

@[grind ←] theorem newBuiltin (b : Builtin) : A.Quiet m (newBuiltin b) := newFunction _

@[grind ←] theorem newClass {c} (given : A.Plain c) : A.Quiet m (newClass c) :=
  modifyGetHeap (fun _ => .of_eq rfl rfl rfl) fun _ tidy tables =>
    ⟨rfl,{ tables with classes := plain_push tables.classes (given tidy) }⟩

@[grind ←] theorem newObject (cls : Ref .cls) : A.Quiet m (newObject cls) :=
  modifyGetHeap (fun _ => .of_eq rfl rfl rfl) fun _ _ tables => ⟨rfl,{ tables with objects := plain_push tables.objects rfl }⟩

@[grind ←] theorem newModuleRef {info} (given : A.Plain info) : A.Quiet m (newModuleRef info) :=
  modifyGetHeap (fun _ => .of_eq rfl rfl rfl) fun _ tidy tables =>
    ⟨rfl,{ tables with modules := plain_push tables.modules (given tidy) }⟩

@[grind ←] theorem newGenerator {g} (given : A.Plain g) : A.Quiet m (newGenerator g) :=
  modifyGetHeap (fun _ => ⟨by simp,Nat.le_refl _,fun _ _ => .refl _,Nat.le_refl _⟩)
    fun _ tidy tables => ⟨rfl,{ tables with generators := plain_push tables.generators (given tidy) }⟩

@[grind ←] theorem newCursor {c} (given : A.Plain c) : A.Quiet m (newCursor c) :=
  modifyGetHeap (fun _ => .push_cursor _) fun _ tidy tables =>
    ⟨rfl,{ tables with cursors := plain_push tables.cursors (given tidy) }⟩

@[grind ←] theorem newIterator (given : A.Plain items) : A.Quiet m (newIterator items) :=
  bind (newCursor given) fun _ _ => pure fun _ => rfl

@[grind ←] theorem newNative (key : String) (s : NativeState) : A.Quiet m (newNative key s) :=
  modifyGetHeap (fun _ => .of_eq rfl rfl rfl) fun _ _ tables => ⟨rfl,{ tables with }⟩

@[grind ←] theorem newCells (count : Nat) : A.Quiet m (newCells count) := by
  refine modifyGetHeap (fun _ => ⟨prefix_rfl,Nat.le_refl _,fun _ _ => .refl _,by simp⟩)
    fun hp _ tables => ⟨rfl,{ tables with cells := ?_ }⟩
  rw [← Array.foldl_toList]
  generalize (Array.range count).toList = places
  suffices ∀ cells : Array (Option Value), plain cells →
      plain (places.foldl (fun cs _ => cs.push none) cells) from this _ tables.cells
  induction places with
  | nil => exact fun _ known => known
  | cons _ places ih => exact fun cells known => ih _ (plain_push known rfl)

@[grind ←]
theorem bindMethod (f : Ref .function) (given : A.Plain v) : A.Quiet m (bindMethod v f) := bind newTag fun _ _ => pure given

@[grind ←] theorem newNil (key name : String) (statics : Bool) (given : A.Plain v) : A.Quiet m (newNil v key name statics) :=
  bind newTag fun _ _ => pure given

@[grind ←] theorem modifyList {f} (r : Ref .list)
    (keeps : ∀ items, A.tidy → plain items → plain (f items)) : A.Quiet m (modifyList r f) :=
  modifyHeap (fun _ => .of_eq rfl rfl rfl) fun _ tidy tables =>
    { tables with lists := plain_modify tables.lists fun items => keeps items tidy }

@[grind ←] theorem setList {items} (r : Ref .list) (given : A.Plain items) : A.Quiet m (setList r items) :=
  modifyList r fun _ tidy _ => given tidy

@[grind ←] theorem modifyDict {f} (r : Ref .dict)
    (keeps : ∀ d, A.tidy → plain d → plain (f d)) : A.Quiet m (modifyDict r f) :=
  modifyHeap (fun _ => .of_eq rfl rfl rfl) fun _ tidy tables =>
    { tables with dicts := plain_modify tables.dicts fun d => keeps d tidy }

@[grind ←]
theorem setEntry (r : Ref .dict) (first : A.Plain key) (second : A.Plain v) : A.Quiet m (setEntry r key v) :=
  bind (lift fun _ => plain_result) fun _ _ => modifyDict r fun _ tidy given =>
    Dict.plain_insertAt given (first tidy) (second tidy)

@[grind ←] theorem modifySet {f} (r : Ref .set)
    (keeps : ∀ s, A.tidy → plain s → plain (f s)) : A.Quiet m (modifySet r f) :=
  modifyHeap (fun _ => .of_eq rfl rfl rfl) fun _ tidy tables =>
    { tables with sets := plain_modify tables.sets fun s => keeps s tidy }

@[grind ←] theorem modifyFields (r : Ref .object)
    (keeps : ∀ fields, A.tidy → plain fields → plain (f fields)) : A.Quiet m (modifyFields r f) :=
  modifyHeap (fun _ => .of_eq rfl rfl rfl) fun _ tidy tables =>
    { tables with objects := plain_modify tables.objects fun o => keeps o.fields tidy }

@[grind ←] theorem modifyMembers (r : Ref .cls)
    (keeps : ∀ members, A.tidy → plain members → plain (f members)) : A.Quiet m (modifyMembers r f) :=
  modifyHeap (fun _ => .of_eq rfl rfl rfl) fun _ tidy tables =>
    { tables with classes := plain_modify tables.classes fun c => keeps c.members tidy }

@[grind ←] theorem modifyGlobals (r : Ref .module)
    (keeps : ∀ globals, A.tidy → plain globals → plain (f globals)) : A.Quiet m (modifyGlobals r f) :=
  modifyHeap (fun _ => .of_eq rfl rfl rfl) fun _ tidy tables =>
    { tables with modules := plain_modify tables.modules fun info => keeps info.globals tidy }

@[grind ←] theorem setGlobal (r : Ref .module) (name : String) (given : A.Plain v) : A.Quiet m (setGlobal r name v) :=
  modifyGlobals r fun _ tidy known => OrderedMap.plain_insert known (given tidy)

@[grind ←] theorem setNative (r : Ref .native) (s : NativeState) : A.Quiet m (setNative r s) :=
  modifyHeap (fun _ => .of_eq rfl rfl rfl) fun _ _ tables => { tables with }

@[grind ←]
theorem setCell (r : Ref .cell) (given : A.Plain v) : A.Quiet m (setCell r v) :=
  modifyHeap (fun _ => .of_eq rfl rfl (Array.size_modify ..)) fun _ tidy tables =>
    { tables with cells := plain_modify tables.cells fun _ _ => given tidy }

@[grind ←] theorem markStatic (r : Ref .function) : A.Quiet m (markStatic r) :=
  modifyHeap (fun _ => .of_eq rfl rfl rfl) fun _ _ tables => { tables with }

-- Walks through lists

section

variable (given : A.Plain as)

include given

theorem mapM {f : α → Exec β} (each : ∀ a, A.Plain a → A.rel m (f a) (g a)) : A.rel m (as.mapM f) (as.mapM g) := by
  induction as with
  | nil => exact pure fun _ => rfl
  | cons a as ih =>
    rw [Plain.cons] at given
    rw [mapM_cons,mapM_cons]
    exact bind (each a given.1) fun b first => bind (ih given.2) fun bs rest => pure (Plain.cons.mpr ⟨first,rest⟩)

theorem foldlM {f : β → α → Exec β} (start : A.Plain b)
    (each : ∀ b a, A.Plain b → A.Plain a → A.rel m (f b a) (g b a)) :
    A.rel m (as.foldlM f b) (as.foldlM g b) := by
  induction as generalizing b with
  | nil => exact pure start
  | cons a as ih =>
    rw [Plain.cons] at given
    exact bind (each b a start given.1) fun b next => ih given.2 next

theorem foldrM {f : α → β → Exec β} (start : A.Plain b)
    (each : ∀ a b, A.Plain a → A.Plain b → A.rel m (f a b) (g a b)) :
    A.rel m (as.foldrM f b) (as.foldrM g b) := by
  induction as with
  | nil => exact pure start
  | cons a as ih =>
    rw [Plain.cons] at given
    rw [foldrM_cons,foldrM_cons]
    exact bind (ih given.2) fun b next => each a b given.1 next

theorem allM {f} (each : ∀ a, A.Plain a → A.rel m (f a) (g a)) : A.rel m (as.allM f) (as.allM g) := by
  induction as with
  | nil => exact pure fun _ => rfl
  | cons a as ih =>
    rw [Plain.cons] at given
    refine bind (each a given.1) fun holds _ => ?_
    cases holds with
    | false => exact pure fun _ => rfl
    | true => exact ih given.2

theorem anyM {f} (each : ∀ a, A.Plain a → A.rel m (f a) (g a)) : A.rel m (as.anyM f) (as.anyM g) := by
  induction as with
  | nil => exact pure fun _ => rfl
  | cons a as ih =>
    rw [Plain.cons] at given
    refine bind (each a given.1) fun holds _ => ?_
    cases holds with
    | false => exact ih given.2
    | true => exact pure fun _ => rfl

theorem forIn {f} (each : ∀ a b, A.Plain a → A.rel m (f a b) (g a b)) (b : PUnit) :
    A.rel m (forIn as b f) (forIn as b g) := by
  induction as generalizing b with
  | nil => exact pure fun _ => rfl
  | cons a as ih =>
    rw [Plain.cons] at given
    rw [forIn_cons,forIn_cons]
    refine bind (each a b given.1) fun next _ => ?_
    cases next with
    | done b => exact pure fun _ => rfl
    | yield b => exact ih given.2 b

end

variable {less' : α → α → Exec Bool}

theorem merge (merged : A.Plain done) (first : A.Plain left) (second : A.Plain right)
    (each : ∀ a b, A.Plain a → A.Plain b → A.rel m (less a b) (less' a b)) :
    A.rel m (Sequence.merge less done left right) (Sequence.merge less' done left right) := by
  have joined {done rest : List α} (merged : A.Plain done) (last : A.Plain rest) : A.Plain (done.reverse ++ rest) := fun tidy =>
    plain_append.mpr ⟨plain_list.mpr fun a mem => plain_list.mp (merged tidy) a (mem_reverse.mp mem),last tidy⟩
  fun_induction Sequence.merge less done left right with
  | case1 done right =>
    rw [Sequence.merge]
    exact pure (joined merged second)
  | case2 done left nonempty =>
    rw [Sequence.merge]
    · exact pure (joined merged first)
    · exact nonempty
  | case3 done a left b right onRight onLeft =>
    rw [Sequence.merge]
    obtain ⟨a_plain,left_plain⟩ := Plain.cons.mp first
    obtain ⟨b_plain,right_plain⟩ := Plain.cons.mp second
    refine bind (each b a b_plain a_plain) fun before _ => ?_
    cases before with
    | true => exact onRight (Plain.cons.mpr ⟨b_plain,merged⟩) first right_plain
    | false => exact onLeft (Plain.cons.mpr ⟨a_plain,merged⟩) left_plain second

theorem mergeSort {items} (given : A.Plain items)
    (each : ∀ a b, A.Plain a → A.Plain b → A.rel m (less a b) (less' a b)) :
    A.rel m (Sequence.mergeSort less items) (Sequence.mergeSort less' items) := by
  fun_induction Sequence.mergeSort less items with
  | case1 items short =>
    rw [Sequence.mergeSort,dif_pos short]
    exact pure given
  | case2 items long half left right =>
    have part {some} (subset : some ⊆ items) : A.Plain some := fun tidy =>
      plain_list.mpr fun a mem => plain_list.mp (given tidy) a (subset mem)
    rw [Sequence.mergeSort.eq_def less' items,dif_neg long]
    exact bind (left (part (take_subset ..))) fun _ first =>
      bind (right (part (drop_subset ..))) fun _ second => merge (fun _ => rfl) first second each

end rel

-- Cursors that are being advanced

variable (c : Ref .cursor) (busy : Bool) (w : World)

theorem plain_setBusy (given : plain w) : plain (setBusy c busy w) := by
  have tables := plain_iff.mp given
  exact plain_iff.mpr { tables with cursors := plain_modify tables.cursors fun _ given => given }

theorem grows_setBusy : w.Grows (setBusy c busy w) := ⟨.modify_cursor (.refl _),prefix_rfl⟩

@[grind ←] theorem quiet_markBusy : A.Quiet m (modify (setBusy c busy)) :=
  .modify (plain_setBusy c busy) (fun _ => rfl) (grows_setBusy c busy)

end Accord

end EmbedScript
