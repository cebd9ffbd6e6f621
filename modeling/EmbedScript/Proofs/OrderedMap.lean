import EmbedScript.OrderedMap

namespace EmbedScript.OrderedMap

open List Option Array

variable [BEq κ] [LawfulBEq κ] {m : OrderedMap κ α} {key : κ}

section

variable (absent : key ∉ m.keys)

include absent

theorem findIdx?_absent : m.entries.findIdx? (·.1 == key) = none := by
  rw [Array.findIdx?_eq_none_iff]
  intro entry mem
  rw [beq_eq_false_iff_ne]
  rintro rfl
  exact absent (mem_map_of_mem (mem_toList_iff.mpr mem))

theorem get?_absent : m.get? key = none := by
  have missing : m.entries.find? (·.1 == key) = none := by
    rw [Array.find?_eq_none]
    intro entry mem found
    rw [beq_iff_eq] at found
    subst found
    exact absent (mem_map_of_mem (mem_toList_iff.mpr mem))
  rw [get?,missing]
  rfl

theorem toList_insert_absent (value : α) : (m.insert key value).toList = m.toList ++ [(key,value)] := by
  rw [insert,findIdx?_absent absent]
  simp [toList]

theorem keys_insert_absent (value : α) : (m.insert key value).keys = m.keys ++ [key] := by simp [keys,toList_insert_absent absent]

end

omit [BEq κ] [LawfulBEq κ] in
theorem find?_modify {entries : List (κ × α)}
    (blind : ∀ e ∈ entries[i]?, p e = false ∧ p (g e) = false) :
    (entries.modify i g).find? p = entries.find? p := by
  induction entries generalizing i with
  | nil => simp
  | cons e entries ih =>
    cases i with
    | zero =>
      obtain ⟨before,after⟩ := blind e rfl
      simp [before,after]
    | succ i =>
      have rest := @ih i (by simpa using blind)
      simp [find?_cons,rest]

theorem get?_insert_of_ne (different : key ≠ other) (value : α) :
    (m.insert key value).get? other = m.get? other := by
  have blind : (key == other) = false := beq_eq_false_iff_ne.mpr different
  unfold insert
  cases place : m.entries.findIdx? (·.1 == key) with
  | none => simp [get?,find?_push,blind]
  | some i =>
    obtain ⟨bound,found,_⟩ := findIdx?_eq_some_iff_getElem.mp place
    rw [beq_iff_eq] at found
    simp only [get?]
    rw [← find?_toList,← find?_toList,toList_modify,find?_modify]
    intro e here
    have same : m.entries[i] = e := by simpa [bound] using here
    rw [← same,found]
    exact ⟨blind,blind⟩

theorem get?_eq_lookup (m : OrderedMap κ α) (key : κ) : m.get? key = m.toList.lookup key := by
  rw [get?,← find?_toList,toList]
  induction m.entries.toList with
  | nil => rfl
  | cons e entries ih =>
    rw [find?_cons,lookup_cons,BEq.comm]
    cases key == e.1 with
    | true => rfl
    | false => exact ih

omit [LawfulBEq κ] in
theorem contains_eq_isSome (m : OrderedMap κ α) (key : κ) : m.contains key = (m.get? key).isSome := by
  rw [contains,get?,isSome_map,Bool.eq_iff_iff,Array.any_eq_true',Array.find?_isSome]

theorem contains_iff_mem_keys (m : OrderedMap κ α) (key : κ) : m.contains key = true ↔ key ∈ m.keys := by
  simp [contains,keys,toList,← any_toList]

theorem get?_insertNew (m : OrderedMap κ α) (key : κ) (value : α) (other : κ) :
    (m.insertNew key value).get? other = (m.get? other).or ([(key,value)].lookup other) := by
  unfold insertNew
  split
  case isTrue there =>
    by_cases same : other = key
    · subst same
      rw [contains_eq_isSome] at there
      obtain ⟨v,stored⟩ := isSome_iff_exists.mp there
      rw [stored,some_or]
    · have missed : [(key,value)].lookup other = none := by simpa using same
      rw [missed,or_none]
  case isFalse =>
    rw [get?_eq_lookup,get?_eq_lookup,← lookup_append]
    simp [toList]

theorem get?_foldl_insertNew (entries : List (κ × α)) (m : OrderedMap κ α) (key : κ) :
    (entries.foldl (fun m (k,v) => m.insertNew k v) m).get? key = (m.get? key).or (entries.lookup key) := by
  induction entries generalizing m with
  | nil => simp
  | cons e entries ih =>
    rw [foldl_cons,ih,get?_insertNew,Option.or_assoc,← lookup_append]
    rfl

def assign (key : κ) (value : α) : List (κ × α) → List (κ × α)
  | [] => [(key,value)]
  | e :: entries => if e.1 == key then (e.1,value) :: entries else e :: assign key value entries

omit [LawfulBEq κ] in
theorem assign_eq (key : κ) (value : α) (entries : List (κ × α)) :
    assign key value entries = (entries.findIdx? (·.1 == key)).elim (entries ++ [(key,value)])
      fun i => entries.modify i fun (k,_) => (k,value) := by
  induction entries with
  | nil => rfl
  | cons e entries ih =>
    rw [assign,ih,findIdx?_cons]
    cases e.1 == key with
    | true => rfl
    | false =>
      cases entries.findIdx? (·.1 == key) with
      | none => rfl
      | some i => simp

omit [LawfulBEq κ] in
theorem toList_insert (m : OrderedMap κ α) (key : κ) (value : α) : (m.insert key value).toList = assign key value m.toList := by
  have place : m.entries.findIdx? (·.1 == key) = m.toList.findIdx? (·.1 == key) := findIdx?_toArray ..
  rw [insert,place,assign_eq]
  cases m.toList.findIdx? (·.1 == key) with
  | none => simp [toList]
  | some i => simp [toList]

omit [LawfulBEq κ] in
theorem toList_erase (m : OrderedMap κ α) (key : κ) : (m.erase key).toList = m.toList.eraseP (·.1 == key) := by
  have place : m.entries.findIdx? (·.1 == key) = m.toList.findIdx? (·.1 == key) := findIdx?_toArray ..
  rw [erase,place,eraseP_eq_eraseIdx]
  cases m.toList.findIdx? (·.1 == key) with
  | none => rfl
  | some i => exact toList_eraseIdxIfInBounds

theorem mem_assign {entries}
    (mem : e ∈ assign key value entries) : e ∈ entries ∨ e = (key,value) := by
  induction entries with
  | nil => exact .inr (mem_singleton.mp mem)
  | cons first entries ih =>
    rw [assign] at mem
    split at mem
    case isTrue same =>
      rw [beq_iff_eq] at same
      rcases mem_cons.mp mem with rfl | mem
      · exact .inr (by rw [same])
      · exact .inl (.tail _ mem)
    case isFalse =>
      rcases mem_cons.mp mem with rfl | mem
      · exact .inl (.head _)
      · exact (ih mem).imp_left (mem_cons_of_mem _)

theorem mem_of_get?_eq_some (found : m.get? key = some value) : (key,value) ∈ m.toList := by
  obtain ⟨e,there,rfl⟩ := map_eq_some_iff.mp found
  have same := find?_some there
  rw [beq_iff_eq] at same
  subst same
  exact mem_toList_iff.mpr (mem_of_find?_eq_some there)

end EmbedScript.OrderedMap
