import EmbedScript.Interpreter
import EmbedScript.Proofs.Exec

/-!
Data without keyword arguments. These are values only on their way to a call.
-/

namespace EmbedScript

open List OrderedMap Sequence Value

mutual

def Value.keywordless : Value → Bool
  | .tuple _ items => allKeywordless items
  | .keyword .. => false
  | .method _ receiver _ => receiver.keywordless
  | .super _ _ receiver => receiver.keywordless
  | .nil _ receiver _ _ _ => receiver.keywordless
  | _ => true

def Value.allKeywordless : List Value → Bool
  | [] => true
  | v :: vs => v.keywordless && allKeywordless vs

end

class Plainness (α : Type) where
  plain : α → Bool

export Plainness (plain)

class Bare (κ : Type) : Prop

instance [Bare κ] : Plainness κ := ⟨fun _ => true⟩

instance : Bare Unit where

instance : Bare (ForInStep PUnit) where

instance : Bare Bool where

instance : Bare Nat where

instance : Bare Int64 where

instance : Bare Float where

instance : Bare Char where

instance : Bare String where

instance : Bare Ordering where

instance : Bare HashKey where

instance : Bare Range where

instance : Bare PrintOptions where

instance {t : Table} : Bare (Ref t) where

instance : Bare Frame where

instance : Bare RoutinePlan where

instance : Bare ElementPlan where

instance : Bare Instr where

instance : Bare Store where

instance : Bare ModuleSource where

instance : Bare Disk where

instance : Bare FunctionInfo where

instance : Bare NativeState where

instance : Bare HostType where

instance : Bare HostTypes where

instance : Bare Builtin where

instance : Plainness Value := ⟨keywordless⟩

instance [Plainness α] : Plainness (List α) := ⟨fun as => as.all plain⟩

instance [Plainness α] : Plainness (Array α) := ⟨fun as => plain as.toList⟩

instance [Plainness α] : Plainness (Option α) := ⟨fun a => a.all plain⟩

instance [Plainness α] [Plainness β] : Plainness (α × β) := ⟨fun p => plain p.1 && plain p.2⟩

instance {ε : Type} [Plainness α] : Plainness (Except ε α) := ⟨fun r => r.toOption.all plain⟩

instance [Plainness α] : Plainness (OrderedMap κ α) := ⟨fun m => m.toList.all fun e => plain e.2⟩

instance : Plainness Dict := ⟨fun d => plain d.entries⟩

instance : Plainness Received where
  plain
    | .missing => true
    | .value v => plain v
    | .rest vs => plain vs
    | .keywords entries => plain entries

instance : Plainness Flow where
  plain
    | .returns v => plain v
    | _ => true

instance : Plainness SortOptions := ⟨fun options => plain options.key⟩

instance : Plainness Cursor where
  plain
    | .items rest => plain rest
    | .object receiver => plain receiver
    | _ => true

instance : Plainness CursorInfo := ⟨fun c => plain c.cursor⟩

instance : Plainness ClassInfo := ⟨fun c => plain c.members⟩

instance : Plainness ObjectInfo := ⟨fun o => plain o.fields⟩

instance : Plainness ModuleInfo := ⟨fun m => plain m.globals⟩

instance : Plainness GeneratorInfo := ⟨fun g => plain g.source⟩

instance : Plainness Heap where
  plain h := plain h.lists && plain h.dicts && plain h.sets && plain h.classes && plain h.objects &&
    plain h.modules && plain h.generators && plain h.cursors && plain h.cells

instance : Plainness World := ⟨fun w => plain w.heap⟩

-- Parts of data

section

variable [Plainness α] [Plainness β] {a : α} {as : List α}

@[simp,grind =] theorem plain_bare [Bare κ] {a : κ} : plain a = true := rfl

@[simp,grind =] theorem plain_bares [Bare κ] {as : List κ} : plain as = true := all_eq_true.mpr fun _ _ => rfl

@[simp,grind =] theorem plain_maybe [Bare κ] {a : Option κ} : plain a = true := by cases a <;> rfl

@[simp,grind =] theorem plain_result {ε} [Bare κ] {r : Except ε κ} : plain r = true := by cases r <;> rfl

theorem plain_list : plain as ↔ ∀ a ∈ as, plain a := all_eq_true

@[simp,grind =] theorem plain_nil : plain ([] : List α) = true := rfl

@[simp,grind =]
theorem plain_cons : plain (a :: as) ↔ plain a ∧ plain as := by simp [plain_list]

@[simp,grind =]
theorem plain_append : plain (as ++ bs) ↔ plain as ∧ plain bs := by simp [plain_list,or_imp,forall_and]

@[simp,grind =] theorem plain_none : plain (none : Option α) = true := rfl

@[simp,grind =] theorem plain_some : plain (some a) = plain a := rfl

@[simp,grind =]
theorem plain_pair {b : β} : plain (a,b) ↔ plain a ∧ plain b := Bool.and_eq_true_iff

@[simp,grind =] theorem plain_toList {as : Array α} : plain as.toList = plain as := rfl

@[simp,grind =] theorem plain_toArray : plain as.toArray = plain as := rfl

end

@[simp] theorem Value.allKeywordless_eq (vs : List Value) : allKeywordless vs = plain vs := by
  induction vs with
  | nil => rfl
  | cons v vs ih =>
    rw [allKeywordless,ih]
    rfl

namespace Value

@[simp,grind =] theorem plain_tuple : plain (tuple tag vs) = plain vs := by
  change keywordless _ = _
  rw [keywordless,allKeywordless_eq]

@[simp,grind =] theorem plain_method : plain (method tag v f) = plain v := rfl

@[simp,grind =] theorem plain_super {cls} : plain (super tag cls v) = plain v := rfl

@[simp,grind =] theorem plain_none : plain none = true := rfl

@[simp,grind =] theorem plain_bool : plain (bool b) = true := rfl

@[simp,grind =] theorem plain_int : plain (int n) = true := rfl

@[simp,grind =] theorem plain_float : plain (float x) = true := rfl

@[simp,grind =] theorem plain_str : plain (str text) = true := rfl

@[simp,grind =] theorem plain_list {r} : plain (list r) = true := rfl

@[simp,grind =] theorem plain_function : plain (function r) = true := rfl

@[simp,grind =] theorem plain_cls {r} : plain (cls r) = true := rfl

@[simp,grind =]
theorem plain_object {r c} : plain (object r c) = true := rfl

@[simp,grind =] theorem plain_type : plain (type key) = true := rfl

@[simp,grind =] theorem plain_module {r} : plain (module r) = true := rfl

@[simp,grind =] theorem plain_iterator : plain (iterator r) = true := rfl

end Value

-- Options and arrays

section

variable [Plainness α] [Plainness β] {as bs : Array α} {i : Nat}

@[grind ←]
theorem plain_getD {x : Option α} (given : plain x) (other : plain a) : plain (x.getD a) := by
  cases x with
  | none => exact other
  | some b => exact given

@[grind ←]
theorem plain_map {x : Option α} {f : α → β} (given : plain x) (keeps : ∀ a, plain a → plain (f a)) : plain (x.map f) := by
  cases x with
  | none => rfl
  | some a => exact keeps a given

theorem plain_iff_mem : plain as ↔ ∀ a ∈ as, plain a := by
  rw [← plain_toList,plain_list]
  simp

theorem plain_of_mem (given : plain as) (known : ∀ b ∈ bs, b ∈ as ∨ plain b) : plain bs := by
  rw [plain_iff_mem] at given ⊢
  intro b mem
  exact (known b mem).elim (given b) id

@[grind ←] theorem plain_getElem? (given : plain as) : plain as[i]? := by
  cases found : as[i]? with
  | none => rfl
  | some a => exact plain_iff_mem.mp given a (Array.mem_of_getElem? found)

@[grind ←] theorem plain_at {as : List α} (given : plain as) : plain as[i]? := by
  cases found : as[i]? with
  | none => rfl
  | some a => exact plain_list.mp given a (mem_of_getElem? found)

@[grind ←] theorem plain_push (given : plain as) (new : plain a) : plain (as.push a) := by
  rw [← plain_toList]
  simp [given,new]

@[grind ←] theorem plain_concat (first : plain as) (second : plain bs) : plain (as ++ bs) := by
  rw [← plain_toList]
  simp [first,second]

theorem plain_modify (given : plain as) (keeps : ∀ a, plain a → plain (f a)) : plain (as.modify i f) := by
  refine plain_iff_mem.mpr fun b mem => ?_
  obtain ⟨j,bound,rfl⟩ := Array.mem_iff_getElem.mp mem
  rw [Array.size_modify] at bound
  have old := plain_iff_mem.mp given _ (Array.getElem_mem bound)
  rw [Array.getElem_modify]
  split
  · exact keeps _ old
  · exact old

@[grind ←] theorem plain_setIfInBounds (given : plain as) (new : plain a) : plain (as.setIfInBounds i a) := by
  refine plain_of_mem given fun b mem => ?_
  rcases Array.mem_or_eq_of_mem_setIfInBounds mem with old | rfl
  · exact .inl old
  · exact .inr new

@[grind ←]
theorem plain_eraseIdxIfInBounds (given : plain as) : plain (as.eraseIdxIfInBounds i) := by
  refine plain_of_mem given fun b mem => .inl ?_
  rw [← Array.mem_toList_iff,Array.toList_eraseIdxIfInBounds] at mem
  exact Array.mem_toList_iff.mp (mem_of_mem_eraseIdx mem)

@[grind ←] theorem plain_insertIdxIfInBounds (given : plain as) (new : plain a) : plain (as.insertIdxIfInBounds i a) := by
  unfold Array.insertIdxIfInBounds
  split
  · refine plain_of_mem given fun b mem => ?_
    rcases Array.mem_insertIdx.mp mem with rfl | old
    · exact .inr new
    · exact .inl old
  · exact given

@[grind ←] theorem plain_pop (given : plain as) : plain as.pop := by
  refine plain_of_mem given fun b mem => .inl ?_
  rw [← Array.mem_toList_iff] at mem
  exact Array.mem_toList_iff.mp (dropLast_subset _ mem)

@[grind ←] theorem plain_reverse (given : plain as) : plain as.reverse :=
  plain_of_mem given fun _ mem => .inl (Array.mem_reverse.mp mem)

@[grind ←] theorem plain_back? (given : plain as) : plain as.back? := plain_getElem? given

theorem plain_mapped {as : List α} {f : α → β} (given : plain as) (keeps : ∀ a, plain a → plain (f a)) : plain (as.map f) := by
  refine plain_list.mpr fun b mem => ?_
  obtain ⟨a,inside,rfl⟩ := mem_map.mp mem
  exact keeps a (plain_list.mp given a inside)

theorem plain_folded {as : List α} {b : β} (given : plain as) (start : plain b)
    (keeps : ∀ b a, plain b → plain a → plain (f b a)) : plain (as.foldl f b) := by
  induction as generalizing b with
  | nil => exact start
  | cons a as ih =>
    rw [plain_cons] at given
    exact ih given.2 (keeps b a start given.1)

theorem plain_of_lookup {entries : List (String × α)} (given : plain entries)
    (found : entries.lookup name = some a) : plain a := by
  obtain ⟨_,_,rfl,_⟩ := lookup_eq_some_iff.mp found
  have known := plain_list.mp given (name,a) (by simp)
  exact (plain_pair.mp known).2

theorem plain_any {x : Except Fault α} (every : ∀ a : α, plain a) : plain x := by
  cases x with
  | error e => rfl
  | ok a => exact every a

theorem plain_except {x} {f : β → Except Fault α} (given : plain x)
    (keeps : ∀ b, plain b → plain (f b)) : plain (x >>= f) := by
  cases x with
  | error e => rfl
  | ok b => exact keeps b given

theorem plain_foldlM {f : α → β → Except Fault α} (items : List β) (given : plain items)
    (start : plain a) (keeps : ∀ a b, plain a → plain b → plain (f a b)) :
    plain (items.foldlM f a) := by
  induction items generalizing a with
  | nil => exact start
  | cons item items ih =>
    rw [plain_cons] at given
    exact plain_except (keeps a item start given.1) fun b next => ih given.2 next

end

namespace OrderedMap

variable [Plainness α] {m : OrderedMap κ α} {key : κ} {a : α}

theorem plain_iff : plain m ↔ ∀ e ∈ m.entries, plain e.2 := by
  change m.toList.all _ = true ↔ _
  rw [all_eq_true]
  exact forall_congr' fun e => imp_congr_left Array.mem_toList_iff

@[simp,grind =] theorem plain_empty : plain ({} : OrderedMap κ α) = true := plain_iff.mpr (by simp)

@[grind ←] theorem plain_values (given : plain m) : plain m.values := by
  refine plain_list.mpr fun a mem => ?_
  obtain ⟨e,inside,rfl⟩ := mem_map.mp mem
  exact plain_iff.mp given e (Array.mem_toList_iff.mp inside)

@[grind ←]
theorem plain_filterKeys (given : plain m) : plain (m.filterKeys keep) :=
  plain_iff.mpr fun e mem => plain_iff.mp given e (Array.mem_filter.mp mem).1

theorem plain_entries [Bare κ] (given : plain m) : plain m.toList := plain_list.mpr fun e mem =>
    plain_pair.mpr ⟨rfl,plain_iff.mp given e (Array.mem_toList_iff.mp mem)⟩

theorem plain_foldl (keeps : ∀ m e, plain m → plain e.2 → plain (f m e)) (entries : List (κ × α))
    (given : ∀ e ∈ entries, plain e.2) (start : plain m) : plain (entries.foldl f m) := by
  induction entries generalizing m with
  | nil => exact start
  | cons e entries ih =>
    rw [forall_mem_cons] at given
    exact ih given.2 (keeps m e start given.1)

theorem plain_more (given : plain m) (new : plain a) : plain (⟨m.entries.push (key,a)⟩ : OrderedMap κ α) := by
  refine plain_iff.mpr fun e mem => ?_
  rcases Array.mem_push.mp mem with old | rfl
  · exact plain_iff.mp given e old
  · exact new

variable [BEq κ]

section

variable (given : plain m)

include given

@[grind ←] theorem plain_get? : plain (m.get? key) := by
  unfold get?
  cases found : m.entries.find? (·.1 == key) with
  | none => rfl
  | some e => exact plain_iff.mp given e (Array.mem_of_find?_eq_some found)

@[grind →] theorem plain_of_get? (found : m.get? key = some a) : plain a := by
  have known : plain (m.get? key) := plain_get? given
  rwa [found] at known

@[grind ←] theorem plain_insert (new : plain a) : plain (m.insert key a) := by
  unfold insert
  split
  · refine plain_iff.mpr fun e mem => ?_
    obtain ⟨j,bound,rfl⟩ := Array.mem_iff_getElem.mp mem
    rw [Array.getElem_modify]
    split
    · exact new
    · exact plain_iff.mp given _ (Array.getElem_mem _)
  · exact plain_more given new

theorem plain_insertNew (new : plain a) : plain (m.insertNew key a) := by
  unfold insertNew
  split
  · exact given
  · exact plain_more given new

@[grind ←] theorem plain_erase : plain (m.erase key) := by
  unfold erase
  split
  · refine plain_iff.mpr fun e mem => plain_iff.mp given e ?_
    rw [← Array.mem_toList_iff,Array.toList_eraseIdxIfInBounds] at mem
    exact Array.mem_toList_iff.mp (mem_of_mem_eraseIdx mem)
  · exact given

end

@[grind ←]
theorem plain_insertAll (given : plain m) (more : plain other) : plain (m.insertAll other) := by
  unfold insertAll
  rw [← Array.foldl_toList]
  refine plain_foldl (fun _ _ => plain_insert) _ (fun e mem => ?_) given
  exact plain_iff.mp more e (Array.mem_toList_iff.mp mem)

theorem plain_ofList {entries : List (κ × α)} (given : ∀ e ∈ entries, plain e.2) : plain (ofList entries) :=
  plain_foldl (fun _ _ => plain_insert) _ given plain_empty

end OrderedMap

namespace Dict

variable {d : Dict} {hash : HashKey}

@[simp,grind =] theorem plain_empty : plain ({} : Dict) = true := OrderedMap.plain_empty

section

variable (given : plain d)

include given

@[grind ←] theorem plain_items : plain d.items := plain_values given

@[grind ←] theorem plain_keys : plain d.keys := plain_mapped (plain_items given) fun _ whole => (plain_pair.mp whole).1

@[grind ←] theorem plain_values : plain d.values := plain_mapped (plain_items given) fun _ whole => (plain_pair.mp whole).2

@[grind ←] theorem plain_insertAt (first : plain key) (second : plain v) : plain (d.insertAt hash key v) := by
  have old : plain (d.entries.get? hash) := plain_get? given
  unfold insertAt
  split
  case h_1 kept _ found =>
    rw [found] at old
    exact plain_insert given (plain_pair.mpr ⟨(plain_pair.mp old).1,second⟩)
  case h_2 => exact plain_insert given (plain_pair.mpr ⟨first,second⟩)

@[grind ←] theorem plain_erase : plain (⟨d.entries.erase hash⟩ : Dict) := OrderedMap.plain_erase given

@[grind ←] theorem plain_insert (first : plain key) (second : plain v) : plain (d.insert key v) :=
  plain_except plain_result fun _ _ => plain_insertAt given first second

@[grind ←] theorem plain_get? : plain (d.get? key) := by
  refine plain_except plain_result fun hash _ => ?_
  exact plain_map (OrderedMap.plain_get? given) fun e whole => (Bool.and_eq_true_iff.mp whole).2

end

@[grind ←]
theorem plain_insertItems {items} (given : plain d) (more : plain items) : plain (d.insertItems items) :=
  plain_foldlM items more given fun _ _ given whole =>
    plain_insert given (Bool.and_eq_true_iff.mp whole).1 (Bool.and_eq_true_iff.mp whole).2

@[grind ←] theorem plain_ofNames {entries} (given : plain entries) : plain (ofNames entries) :=
  plain_folded given plain_empty fun _ _ whole entry => plain_insertAt whole rfl (plain_pair.mp entry).2

end Dict

namespace ValueSet

@[grind ←] theorem plain_ofValues (given : plain items) : plain (ofValues items) :=
  plain_foldlM items given plain_empty fun _ _ given new => plain_except plain_result fun _ _ => plain_insert given new

@[grind ←] theorem plain_combine (first : plain s) (second : plain t) : plain (combine op s t) := by
  unfold combine
  split
  · exact plain_insertAll first second
  · exact plain_filterKeys first
  · exact plain_filterKeys first
  · exact plain_insertAll (plain_filterKeys first) (plain_filterKeys second)
  · rfl

end ValueSet

-- Sequences and numbers

@[grind ←] theorem plain_slice [Plainness α] {items : Array α} {start}
    (given : plain items) : plain (slice items start stop step) := by
  have positions : plain (slicePositions items.size start stop step) := by
    cases slicePositions items.size start stop step with
    | error e => rfl
    | ok ns => exact plain_bares
  refine plain_except positions fun ns _ => plain_list.mpr fun a mem => ?_
  obtain ⟨i,_,found⟩ := mem_filterMap.mp mem
  exact plain_iff_mem.mp given a (Array.mem_of_getElem? found)

@[grind ←]
theorem plain_repeatItems [Plainness α] {items : List α} {times} (given : plain items) :
    plain (repeatItems items times) := by
  refine plain_except plain_result fun n _ => ?_
  refine plain_list.mpr fun a mem => ?_
  obtain ⟨copy,inside,mem⟩ := mem_flatten.mp mem
  rw [eq_of_mem_replicate inside] at mem
  exact plain_list.mp given a mem

@[grind ←] theorem plain_characters (text : String) : plain (characters text) := plain_mapped plain_bares fun _ _ => rfl

@[grind ←]
theorem plain_repeatText (text : String) (times : Int64) : plain (repeatText text times) :=
  plain_except plain_result fun _ _ => rfl

theorem plain_intPower (a b : Int64) : plain (intPower a b) := by
  unfold intPower
  split
  · split <;> rfl
  · exact plain_except plain_result fun _ _ => rfl

@[grind ←] theorem plain_intBinary (op : BinaryOp) (a b : Int64) : plain (intBinary op a b) := by
  have word (x : Except Fault Int64) : plain (do return some (int (← x))) := plain_except plain_result fun _ _ => rfl
  cases op with
  | add | sub | mul | floorDiv | mod => exact word _
  | pow => exact plain_except (plain_intPower a b) fun _ known => known
  | div | lshift | rshift =>
    unfold intBinary
    dsimp only
    split
    · rfl
    · first | exact word _ | rfl
  | bitAnd | bitOr | bitXor | lt | le | gt | ge | eq | ne => rfl

@[grind ←] theorem plain_boolBinary (op : BinaryOp) (a b : Bool) : plain (boolBinary op a b) := by
  unfold boolBinary
  split <;> rfl

@[grind ←] theorem plain_onScalars (op : BinaryOp) (a b : Value) : plain (op.onScalars a b) := by
  unfold BinaryOp.onScalars
  split
  · refine plain_except (plain_intBinary ..) fun v known => ?_
    cases v with
    | none => rfl
    | some v => exact known
  · have number (x : Except Fault (Option Float)) : plain (do return (← x).elim Value.none float) := by
      rcases x with e | x
      · rfl
      · cases x <;> rfl
    split
    iterate 4 exact number _
    rfl
  · split <;> rfl
  · rfl
  · rfl

@[grind ←]
theorem plain_onScalar {v} (op : UnaryOp) (given : plain v) : plain (op.onScalar v) := by
  unfold UnaryOp.onScalar
  split
  · exact plain_except plain_result fun _ _ => rfl
  · rfl
  · rfl
  · exact given

-- What may be among the arguments of a call: plain values, and keywords whose values are plain.
def Value.isArgument : Value → Bool
  | .keyword _ _ v => plain v
  | v => plain v

def fit (arguments : List Value) : Bool := arguments.all isArgument

section

variable {v : Value}

@[grind ←] theorem isArgument_of_plain (given : plain v) : v.isArgument := by
  cases v with
  | keyword => contradiction
  | _ => exact given

theorem plain_of_isArgument (given : v.isArgument) (other : v.isKeyword = false) : plain v := by
  cases v with
  | keyword => contradiction
  | _ => exact given

@[simp,grind =] theorem fit_nil : fit [] = true := rfl

@[simp,grind =] theorem fit_cons : fit (v :: vs) ↔ v.isArgument ∧ fit vs := by simp [fit]

theorem fit_append : fit (vs ++ us) ↔ fit vs ∧ fit us := by simp [fit]

@[grind ←] theorem fit_of_plain (given : plain vs) : fit vs :=
  all_eq_true.mpr fun v mem => isArgument_of_plain (plain_list.mp given v mem)

def trailing (arguments : List Value) : Bool := (splitKeywords arguments).1.all (!·.isKeyword)

theorem plain_splitKeywords (given : fit vs) (behind : trailing vs) : plain (splitKeywords vs) := by
  rw [fit,all_eq_true] at given
  refine plain_pair.mpr ⟨plain_list.mpr fun v mem => ?_,plain_list.mpr fun e mem => ?_⟩
  · refine plain_of_isArgument (given v ?_) ?_
    · exact mem_reverse.mp (dropWhile_subset _ (mem_reverse.mp mem))
    · simpa using all_eq_true.mp behind v mem
  · obtain ⟨v,inside,found⟩ := mem_filterMap.mp mem
    have known := given v (mem_reverse.mp (takeWhile_subset _ (mem_reverse.mp inside)))
    unfold keyword? at found
    split at found
    · cases found
      exact plain_pair.mpr ⟨rfl,known⟩
    · cases found

theorem plain_takeKeyword {name} (given : plain keywords) : plain (takeKeyword name keywords) := by
  fun_induction takeKeyword name keywords with
  | case1 => rfl
  | case2 n v rest same =>
    rw [plain_cons,plain_pair] at given
    exact plain_pair.mpr ⟨given.1.2,given.2⟩
  | case3 n v rest differs found others taken ih =>
    rw [plain_cons] at given
    have kept := ih given.2
    rw [taken,plain_pair] at kept
    exact plain_pair.mpr ⟨kept.1,plain_cons.mpr ⟨given.1,kept.2⟩⟩

theorem plain_receive (given : plain vs) (named : plain keywords) : plain (receive vs keywords params) := by
  fun_induction receive vs keywords params with
  | case1 => rfl
  | case2 positional keywords name params ih => exact plain_cons.mpr ⟨given,ih rfl named⟩
  | case3 positional keywords name params ih => exact plain_cons.mpr ⟨named,ih given rfl⟩
  | case4 keywords name params v positional ih =>
    rw [plain_cons] at given
    exact plain_cons.mpr ⟨given.1,ih given.2 named⟩
  | case5 keywords name params v rest taken ih =>
    have kept : plain (takeKeyword name keywords) := plain_takeKeyword named
    rw [taken,plain_pair] at kept
    exact plain_cons.mpr ⟨kept.1,ih rfl kept.2⟩
  | case6 keywords name params rest taken ih =>
    have kept : plain (takeKeyword name keywords) := plain_takeKeyword named
    rw [taken,plain_pair] at kept
    exact plain_cons.mpr ⟨rfl,ih rfl kept.2⟩

theorem plain_receiveArguments (given : fit vs) (behind : trailing vs) : plain (receiveArguments params vs) := by
  have parts := plain_pair.mp (plain_splitKeywords given behind)
  exact plain_receive parts.1 parts.2

end

-- Who takes keyword arguments

def TextAction.takesKeywords : TextAction → Bool
  | .format => true
  | _ => false

def ListAction.takesKeywords : ListAction → Bool
  | .sort => true
  | _ => false

def DictAction.takesKeywords : DictAction → Bool
  | .ofEntries | .update => true
  | _ => false

def Action.takesKeywords : Action → Bool
  | .text a => a.takesKeywords
  | .list a => a.takesKeywords
  | .dict a => a.takesKeywords
  | _ => false

-- The last three never look at what could be a keyword.
def Builtin.takesKeywords : Builtin → Bool
  | .print | .sorted | .enumerate | .objectNew | .objectInit | .refuse _ => true
  | _ => false

-- Keyword arguments are there only if they are taken, and then behind all others. Sources that have
-- them in another order are refused when they are read.
def proper (takes : Bool) (arguments : List Value) : Bool := arguments.all (!·.isKeyword) || takes && trailing arguments

section

theorem isKeyword_of_plain {v : Value} (given : plain v) : v.isKeyword = false := by
  cases v with
  | keyword => contradiction
  | _ => rfl

theorem proper_of_plain (given : plain vs) : proper takes vs := by
  have free : vs.all (!·.isKeyword) := all_eq_true.mpr fun v mem => by simp [isKeyword_of_plain (plain_list.mp given v mem)]
  rw [proper,free]
  rfl

theorem plain_of_proper (given : fit vs) (passed : proper false vs) : plain vs := by
  rw [proper,Bool.false_and,Bool.or_false,all_eq_true] at passed
  refine plain_list.mpr fun v mem => plain_of_isArgument ?_ (by simpa using passed v mem)
  exact all_eq_true.mp given v mem

theorem trailing_of_proper (passed : proper takes vs) : trailing vs := by
  rw [proper,Bool.or_eq_true,Bool.and_eq_true] at passed
  rcases passed with free | ⟨_,behind⟩
  · refine all_eq_true.mpr fun v mem => all_eq_true.mp free v ?_
    exact mem_reverse.mp (dropWhile_subset _ (mem_reverse.mp mem))
  · exact behind

end

-- Looking things up

namespace Heap

variable {h : Heap}

structure Tables (h : Heap) : Prop where
  lists : plain h.lists
  dicts : plain h.dicts
  sets : plain h.sets
  classes : plain h.classes
  objects : plain h.objects
  modules : plain h.modules
  generators : plain h.generators
  cursors : plain h.cursors
  cells : plain h.cells

theorem plain_iff : plain h ↔ h.Tables := by
  change (_ && _) = true ↔ _
  simp only [Bool.and_eq_true]
  constructor
  · rintro ⟨⟨⟨⟨⟨⟨⟨⟨lists,dicts⟩,sets⟩,classes⟩,objects⟩,modules⟩,generators⟩,cursors⟩,cells⟩
    exact ⟨lists,dicts,sets,classes,objects,modules,generators,cursors,cells⟩
  · rintro ⟨lists,dicts,sets,classes,objects,modules,generators,cursors,cells⟩
    exact ⟨⟨⟨⟨⟨⟨⟨⟨lists,dicts⟩,sets⟩,classes⟩,objects⟩,modules⟩,generators⟩,cursors⟩,cells⟩

variable (given : plain h)

include given

@[grind ←] theorem plain_list (r : Ref .list) : plain (h.list r) := plain_getD (plain_getElem? (plain_iff.mp given).lists) rfl

@[grind ←] theorem plain_dict (r : Ref .dict) : plain (h.dict r) := plain_getD (plain_getElem? (plain_iff.mp given).dicts) rfl

@[grind ←] theorem plain_set (r : Ref .set) : plain (h.set r) := plain_getD (plain_getElem? (plain_iff.mp given).sets) rfl

@[grind ←] theorem plain_cls (r : Ref .cls) : plain (h.cls r) := plain_getD (plain_getElem? (plain_iff.mp given).classes) rfl

@[grind ←] theorem plain_object (r : Ref .object) : plain (h.object r) :=
  plain_getD (plain_getElem? (plain_iff.mp given).objects) rfl

@[grind ←] theorem plain_module (r : Ref .module) : plain (h.module r) :=
  plain_getD (plain_getElem? (plain_iff.mp given).modules) rfl

@[grind ←] theorem plain_generator (r : Ref .generator) : plain (h.generator r) :=
  plain_getD (plain_getElem? (plain_iff.mp given).generators) rfl

@[grind ←] theorem plain_cursor (r : Ref .cursor) : plain (h.cursor r) :=
  plain_getD (plain_getElem? (plain_iff.mp given).cursors) rfl

@[grind ←] theorem plain_cell (r : Ref .cell) : plain (h.cell r) := plain_getD (plain_getElem? (plain_iff.mp given).cells) rfl

end Heap

end EmbedScript
