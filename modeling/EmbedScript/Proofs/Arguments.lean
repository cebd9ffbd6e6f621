import EmbedScript.Arguments
import EmbedScript.Proofs.OrderedMap

/-!
Matching arguments to parameters.
-/

namespace EmbedScript

open List OrderedMap HashKey

structure ProperParams (params : List (String × ParamKind)) : Prop where
  distinct : (params.map (·.1)).Nodup
  oneStar : (params.map (·.2)).count .rest ≤ 1
  last : ∀ (i : Nat) (name : String), params[i]? = some (name,.keywords) → i + 1 = params.length

def placed (params : List (String × ParamKind)) : List (String × ParamKind) := params.takeWhile (·.2 == .normal)

def unplaced (params : List (String × ParamKind)) (count : Nat) : List String :=
  ((params.drop (min count (placed params).length)).filter (·.2 == .normal)).map (·.1)

def byName (keywords : List (String × Value)) (name : String) : Received :=
  match keywords.lookup name with
  | some v => .value v
  | none => .missing

def share (params : List (String × ParamKind)) (positional : List Value)
    (keywords : List (String × Value)) (i : Nat) : String × ParamKind → Received
  | (name,.normal) =>
    match positional[i]? with
    | some v => if i < (placed params).length then .value v else byName keywords name
    | none => byName keywords name
  | (_,.rest) => .rest (positional.drop i)
  | (_,.keywords) => .keywords (keywords.filter fun entry => !(unplaced params positional.length).contains entry.1)

def Received.supplied : Received → List Value
  | .missing => []
  | .value v => [v]
  | .rest values => values
  | .keywords entries => entries.map (·.2)

variable {params : List (String × ParamKind)} {positional : List Value} {keywords : List (String × Value)}

theorem takeKeyword_eq (distinct : (keywords.map (·.1)).Nodup) :
    takeKeyword name keywords = (keywords.lookup name,keywords.filter (·.1 != name)) := by
  induction keywords with
  | nil => rfl
  | cons entry keywords ih =>
    obtain ⟨n,v⟩ := entry
    rw [map_cons,nodup_cons] at distinct
    obtain ⟨fresh,others⟩ := distinct
    rw [takeKeyword]
    by_cases same : n = name
    · subst same
      have kept : keywords.filter (·.1 != n) = keywords := by
        rw [filter_eq_self]
        intro entry mem
        rw [bne_iff_ne]
        intro same
        exact fresh (mem_map.mpr ⟨entry,mem,same⟩)
      simp [kept]
    · have different : (name == n) = false := beq_eq_false_iff_ne.mpr (Ne.symm same)
      simp [ih others,lookup_cons,different,same]

theorem lookup_filter_ne (different : name ≠ other) :
    (keywords.filter (·.1 != other)).lookup name = keywords.lookup name := by
  induction keywords with
  | nil => rfl
  | cons entry keywords ih =>
    obtain ⟨n,v⟩ := entry
    by_cases dropped : n = other
    · subst dropped
      simp [lookup_cons,beq_eq_false_iff_ne.mpr different,ih]
    · simp [dropped,lookup_cons,ih]

theorem takeKeyword_perm (taken : takeKeyword name keywords = (found,rest)) :
    (found.toList ++ rest.map (·.2)).Perm (keywords.map (·.2)) := by
  induction keywords generalizing rest with
  | nil =>
    cases taken
    rfl
  | cons entry keywords ih =>
    obtain ⟨n,v⟩ := entry
    rw [takeKeyword] at taken
    split at taken
    · cases taken
      rfl
    · cases taken
      have step := (ih rfl).cons v
      exact perm_middle.trans step

variable {i : Nat}

namespace ProperParams

theorem tail (proper : ProperParams (p :: params)) : ProperParams params where
  distinct := (nodup_cons.mp proper.distinct).2
  oneStar := by
    have all := proper.oneStar
    rw [map_cons,count_cons] at all
    omega
  last i name found := by
    have place := proper.last (i + 1) name (by simpa using found)
    simpa using place

theorem fresh (proper : ProperParams (p :: params)) (found : params[i]? = some (name,kind)) : name ≠ p.1 := by
  intro same
  have mem : (name,kind) ∈ params := mem_of_getElem? found
  exact (nodup_cons.mp proper.distinct).1 (mem_map.mpr ⟨(name,kind),mem,same⟩)

theorem keywords_alone (proper : ProperParams ((name,.keywords) :: params)) : params = [] := by
  have place := proper.last 0 name rfl
  simpa using place

theorem no_second_star (proper : ProperParams ((name,.rest) :: params)) : params[i]? ≠ some (other,.rest) := by
  intro found
  have mem : ParamKind.rest ∈ params.map (·.2) := mem_map_of_mem (mem_of_getElem? found)
  have once := proper.oneStar
  rw [map_cons,count_cons_self] at once
  have present := count_pos_iff.mpr mem
  omega

end ProperParams

@[simp] theorem placed_normal : placed ((name,.normal) :: params) = (name,.normal) :: placed params := rfl

@[simp] theorem placed_rest : placed ((name,.rest) :: params) = [] := rfl

theorem unplaced_normal (count : Nat) : unplaced ((name,.normal) :: params) (count + 1) = unplaced params count := by
  simp [unplaced]

theorem unplaced_rest (count : Nat) : unplaced ((name,.rest) :: params) count = unplaced params 0 := by simp [unplaced]

theorem placed_getElem? (before : i < (placed params).length) : ∃ name, params[i]? = some (name,.normal) := by
  induction params generalizing i with
  | nil => simp [placed] at before
  | cons p params ih =>
    obtain ⟨n,kind⟩ := p
    cases kind with
    | normal =>
      cases i with
      | zero => exact ⟨n,rfl⟩
      | succ i => exact ih (by simpa using before)
    | rest | keywords => simp [placed] at before

-- What each parameter gets

theorem share_placed (before : i < (placed params).length) (value : positional[i]? = some v) :
    share params positional keywords i (name,.normal) = .value v := by
  simp [share,value,before]

theorem share_unplaced (late : positional.length ≤ i ∨ (placed params).length ≤ i) :
    share params positional keywords i (name,.normal) = byName keywords name := by
  rw [share]
  split
  case h_1 v value =>
    have reached : i < positional.length := (List.getElem?_eq_some_iff.mp value).1
    exact if_neg (by omega)
  case h_2 => rfl

theorem share_alone : share [(name,.keywords)] positional keywords 0 (name,.keywords) = .keywords keywords := by
  have none : unplaced [(name,.keywords)] positional.length = [] := by simp [unplaced,placed]
  rw [share,none]
  simp

theorem receive_named (distinct : (keywords.map (·.1)).Nodup) : receive [] keywords ((name,.normal) :: params) =
      byName keywords name :: receive [] (keywords.filter (·.1 != name)) params := by
  rw [receive,takeKeyword_eq distinct,byName]
  cases keywords.lookup name <;> rfl

-- With no values to take by place, ordinary parameters are served by name, one after the other.
theorem receive_unplaced (proper : ProperParams params) (distinct : (keywords.map (·.1)).Nodup) (found : params[i]? = some p) :
    (receive [] keywords params)[i]? = some (share params [] keywords i p) := by
  induction params generalizing keywords i with
  | nil => simp at found
  | cons q params ih =>
    obtain ⟨n,kind⟩ := q
    cases kind with
    | normal =>
      rw [receive_named distinct]
      cases i with
      | zero =>
        cases found
        rfl
      | succ i =>
        have later : params[i]? = some p := by simpa using found
        have fewer : ((keywords.filter (·.1 != n)).map (·.1)).Nodup := distinct.sublist (filter_sublist.map _)
        rw [getElem?_cons_succ,ih proper.tail fewer later]
        obtain ⟨m,kind⟩ := p
        cases kind with
        | normal => simp [share,byName,lookup_filter_ne (proper.fresh later)]
        | rest => simp [share]
        | keywords =>
          simp only [share,unplaced,filter_filter]
          congr 2
          apply filter_congr
          intro entry _
          by_cases same : entry.1 = n <;> simp [same]
    | rest =>
      rw [receive]
      cases i with
      | zero =>
        cases found
        rfl
      | succ i =>
        have later : params[i]? = some p := by simpa using found
        rw [getElem?_cons_succ,ih proper.tail distinct later]
        obtain ⟨m,kind⟩ := p
        cases kind <;> simp [share,unplaced_rest]
    | keywords =>
      cases proper.keywords_alone
      cases i with
      | zero =>
        cases found
        exact congrArg some share_alone.symm
      | succ i => simp at found

theorem receive_getElem? (proper : ProperParams params) (distinct : (keywords.map (·.1)).Nodup) (found : params[i]? = some p) :
    (receive positional keywords params)[i]? = some (share params positional keywords i p) := by
  induction params generalizing positional i with
  | nil => simp at found
  | cons q params ih =>
    cases positional with
    | nil => exact receive_unplaced proper distinct found
    | cons v positional =>
      obtain ⟨n,kind⟩ := q
      cases kind with
      | normal =>
        rw [receive]
        cases i with
        | zero =>
          cases found
          simp [share]
        | succ i =>
          have later : params[i]? = some p := by simpa using found
          rw [getElem?_cons_succ,ih proper.tail later]
          obtain ⟨m,kind⟩ := p
          cases kind <;> simp [share,unplaced_normal]
      | rest =>
        rw [receive]
        cases i with
        | zero =>
          cases found
          simp [share]
        | succ i =>
          have later : params[i]? = some p := by simpa using found
          rw [getElem?_cons_succ,receive_unplaced proper.tail distinct later]
          obtain ⟨m,kind⟩ := p
          cases kind with
          | normal => rw [share_unplaced (.inl (Nat.zero_le _)),share_unplaced (.inr (Nat.zero_le _))]
          | rest => exact absurd later proper.no_second_star
          | keywords => simp [share,unplaced_rest]
      | keywords =>
        cases proper.keywords_alone
        cases i with
        | zero =>
          cases found
          exact congrArg some share_alone.symm
        | succ i => simp at found

theorem length_receive : (receive positional keywords params).length = params.length := by
  induction params generalizing positional keywords with
  | nil => rfl
  | cons p params ih =>
    obtain ⟨n,kind⟩ := p
    cases kind with
    | normal =>
      cases positional with
      | nil =>
        rw [receive]
        split <;> simp [ih]
      | cons v positional => simp [receive,ih]
    | rest => simp [receive,ih]
    | keywords => simp [receive,ih]

-- Nothing is lost

theorem supplied_keywords (proper : ProperParams params) (collected : (name,.keywords) ∈ params) :
    ((receive [] keywords params).flatMap Received.supplied).Perm (keywords.map (·.2)) := by
  induction params generalizing keywords with
  | nil => simp at collected
  | cons p params ih =>
    obtain ⟨n,kind⟩ := p
    cases kind with
    | normal =>
      have later : (name,.keywords) ∈ params := by simpa using collected
      rw [receive]
      split <;> rename_i taken
      · exact ((ih proper.tail later).append_left _).trans (takeKeyword_perm taken)
      · exact (ih proper.tail later).trans (takeKeyword_perm taken)
    | rest =>
      have later : (name,.keywords) ∈ params := by simpa using collected
      exact ih proper.tail later
    | keywords =>
      cases proper.keywords_alone
      simp [receive,Received.supplied]

theorem supplied_all {star} (proper : ProperParams params) (starred : (star,.rest) ∈ params)
    (collected : (name,.keywords) ∈ params) :
    ((receive positional keywords params).flatMap Received.supplied).Perm (positional ++ keywords.map (·.2)) := by
  induction params generalizing positional with
  | nil => simp at collected
  | cons p params ih =>
    cases positional with
    | nil => exact supplied_keywords proper collected
    | cons v positional =>
      obtain ⟨n,kind⟩ := p
      cases kind with
      | normal => exact (ih proper.tail (by simpa using starred) (by simpa using collected)).cons v
      | rest => exact (supplied_keywords proper.tail (by simpa using collected)).append_left (v :: positional)
      | keywords =>
        cases proper.keywords_alone
        simp at starred

-- Arguments of a call

def callArguments (positional : List Value) (passed : List (Nat × String × Value)) : List Value :=
  positional ++ passed.map fun keyword => .keyword keyword.1 keyword.2.1 keyword.2.2

theorem splitKeywords_callArguments (plain : ∀ v ∈ positional.getLast?, v.isKeyword = false) :
    splitKeywords (callArguments positional passed) = (positional,passed.map (·.2)) := by
  have behind : ∀ v ∈ (passed.map fun keyword =>
      Value.keyword keyword.1 keyword.2.1 keyword.2.2).reverse, v.isKeyword = true := by
    intro v mem
    simp only [mem_reverse,mem_map] at mem
    obtain ⟨_,_,rfl⟩ := mem
    rfl
  have front : positional.reverse.takeWhile Value.isKeyword = [] ∧
      positional.reverse.dropWhile Value.isKeyword = positional.reverse := by
    cases backward : positional.reverse with
    | nil => simp
    | cons v vs =>
      have last : positional.getLast? = some v := by
        rw [← head?_reverse,backward]
        rfl
      simp [plain v (by simp [last])]
  rw [splitKeywords,callArguments]
  simp only [reverse_append,takeWhile_append_of_pos behind,dropWhile_append_of_pos behind,front]
  simp [Function.comp_def,Value.keyword?]

-- Entries under different names stand in a dict as they were passed.
theorem items_foldl_insertAt {d : Dict} (distinct : (d.entries.keys ++ keywords.map fun entry => atom (.str entry.1)).Nodup) :
    (keywords.foldl (fun d entry => d.insertAt (.atom (.str entry.1)) (.str entry.1) entry.2) d).items =
      d.items ++ keywords.map fun entry => (.str entry.1,entry.2) := by
  induction keywords generalizing d with
  | nil => simp
  | cons entry keywords ih =>
    have absent : atom (.str entry.1) ∉ d.entries.keys := by
      intro present
      exact (nodup_append.mp distinct).2.2 _ present _ (.head _) rfl
    have written : d.insertAt (.atom (.str entry.1)) (.str entry.1) entry.2 =
        ⟨d.entries.insert (.atom (.str entry.1)) (.str entry.1,entry.2)⟩ := by
      rw [Dict.insertAt,get?_absent absent]
    rw [foldl_cons,written,ih]
    · simp [Dict.items,values,toList_insert_absent absent]
    · rw [keys_insert_absent absent]
      simpa using distinct

theorem items_ofNames (distinct : (keywords.map (·.1)).Nodup) :
    (Dict.ofNames keywords).items = keywords.map fun entry => (.str entry.1,entry.2) := by
  have keys : (keywords.map fun entry => atom (.str entry.1)).Nodup := by
    rw [Nodup,pairwise_map] at distinct ⊢
    refine distinct.imp ?_
    intro a b different same
    exact different (KeyAtom.str.inj (atom.inj same))
  exact items_foldl_insertAt (by simpa [OrderedMap.keys,OrderedMap.toList] using keys)

-- What parameters have to receive from values passed by place and by name.
structure Fulfils (params : List (String × ParamKind)) (positional : List Value)
    (keywords : List (String × Value)) (bound : List Received) : Prop where
  each : bound.length = params.length
  byPlace : ∀ (i : Nat) (v : Value), i < (placed params).length → positional[i]? = some v →
    bound[i]? = some (.value v)
  starred : ∀ (i : Nat) (star : String), params[i]? = some (star,.rest) →
    bound[i]? = some (.rest (positional.drop i))
  named : ∀ (i : Nat) (name : String), params[i]? = some (name,.normal) →
    positional.length ≤ i ∨ (placed params).length ≤ i → bound[i]? = some (byName keywords name)
  collected : ∀ (i : Nat) (name : String), params[i]? = some (name,.keywords) → ∃ left,
    bound[i]? = some (.keywords left) ∧
    left = keywords.filter (fun entry => !(unplaced params positional.length).contains entry.1) ∧
    (Dict.ofNames left).items = left.map fun entry => (.str entry.1,entry.2)
  once : ∀ star name : String, (star,ParamKind.rest) ∈ params → (name,ParamKind.keywords) ∈ params →
    (bound.flatMap Received.supplied).Perm (positional ++ keywords.map (·.2))

theorem receiveArguments_fulfils (proper : ProperParams params)
    {passed : List (Nat × String × Value)}
    (plain : ∀ v ∈ positional.getLast?, v.isKeyword = false)
    (distinct : (passed.map (·.2.1)).Nodup) :
    Fulfils params positional (passed.map (·.2))
      (receiveArguments params (callArguments positional passed)) := by
  have names : ((passed.map (·.2)).map (·.1)).Nodup := by simpa [Function.comp_def] using distinct
  rw [receiveArguments, splitKeywords_callArguments plain]
  constructor
  case each => exact length_receive
  case byPlace =>
    intro i v before value
    obtain ⟨name, found⟩ := placed_getElem? before
    rw [receive_getElem? proper names found, share_placed before value]
  case starred =>
    intro i star found
    exact receive_getElem? proper names found
  case named =>
    intro i name found late
    rw [receive_getElem? proper names found, share_unplaced late]
  case collected =>
    intro i name found
    refine ⟨_, receive_getElem? proper names found, rfl, items_ofNames ?_⟩
    exact names.sublist (List.filter_sublist.map _)
  case once =>
    intro star name starred collected
    exact supplied_all proper starred collected

-- `def f(a, b, *c, d, **e)` called as `f(1, 2, 3, d=4, b=5, x=6)`: `b` has its value by place, so
-- the keyword of that name is left for `e`.
def starredParams : List (String × ParamKind) := [("a",.normal),("b",.normal),("c",.rest),("d",.normal),("e",.keywords)]

theorem starredParams_proper : ProperParams starredParams where
  distinct := by decide
  oneStar := by decide
  last i name found := by rcases i with _ | _ | _ | _ | _ | i <;> simp [starredParams] at found ⊢

def starredKeywords : List (Nat × String × Value) := [(0,"d",.int 4),(1,"b",.int 5),(2,"x",.int 6)]

theorem receiveArguments_fulfils_starred :
    Fulfils starredParams [.int 1, .int 2, .int 3] (starredKeywords.map (·.2))
      (receiveArguments starredParams (callArguments [.int 1, .int 2, .int 3] starredKeywords)) :=
  receiveArguments_fulfils starredParams_proper (by simp [Value.isKeyword]) (by decide)

end EmbedScript
