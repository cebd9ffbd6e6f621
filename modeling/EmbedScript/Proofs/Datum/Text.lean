import EmbedScript.Proofs.Datum
import EmbedScript.Proofs.Exec
import EmbedScript.Protocol.Text

/-!
The text of plain data. `repr` of a value gives the text of the tree it is read as.
-/

namespace EmbedScript

open Datum Exec List

namespace Datum

mutual

def chars : Datum → List Char
  | .none => "None".toList
  | .bool b => (if b then "True" else "False").toList
  | .int n => (Word.text n).toList
  | .str text => (Text.quoted text).toList
  | .list ds => '[' :: (charsAll ds ++ [']'])
  -- The comma tells a tuple of one from an expression in brackets.
  | .tuple ds => '(' :: (charsAll ds ++ (if ds.length = 1 then [',',')'] else [')']))
  -- Empty braces are a dict.
  | .set ds => if ds.isEmpty then "set()".toList else '\x7b' :: (charsAll ds ++ ['\x7d'])
  | .dict es => '\x7b' :: (charsOf es ++ ['\x7d'])

def charsAll : List Datum → List Char
  | [] => []
  | d :: ds => d.chars ++ charsMore ds

def charsMore : List Datum → List Char
  | [] => []
  | d :: ds => ',' :: ' ' :: (d.chars ++ charsMore ds)

def charsOf : List Binding → List Char
  | [] => []
  | .mk k v :: es => k.chars ++ ':' :: ' ' :: (v.chars ++ charsOfMore es)

def charsOfMore : List Binding → List Char
  | [] => []
  | .mk k v :: es => ',' :: ' ' :: (k.chars ++ ':' :: ' ' :: (v.chars ++ charsOfMore es))

end

def text (d : Datum) : String := String.ofList d.chars

end Datum

def Binding.text (b : Binding) : String := b.key.text ++ ": " ++ b.value.text

namespace Datum

theorem toList_text (d : Datum) : d.text.toList = d.chars := String.toList_ofList

theorem intercalate_text (d : Datum) (ds : List Datum) :
    (", ".intercalate (d.text :: ds.map text)).toList = d.chars ++ charsMore ds := by
  induction ds generalizing d with
  | nil => simp [charsMore,toList_text]
  | cons d' ds ih =>
    rw [map_cons,String.intercalate_cons_cons,String.toList_append,ih d']
    simp [charsMore,toList_text]

theorem intercalate_bindings (b : Binding) (es : List Binding) : (", ".intercalate (b.text :: es.map Binding.text)).toList =
      b.key.chars ++ ':' :: ' ' :: (b.value.chars ++ charsOfMore es) := by
  induction es generalizing b with
  | nil => simp [charsOfMore,Binding.text,toList_text]
  | cons b' es ih =>
    obtain ⟨k,v⟩ := b'
    rw [map_cons,String.intercalate_cons_cons,String.toList_append,ih ⟨k,v⟩]
    simp [charsOfMore,Binding.text,Binding.key,Binding.value,toList_text]

theorem intercalate_all (ds : List Datum) : ", ".intercalate (ds.map text) = String.ofList (charsAll ds) := by
  cases ds with
  | nil => rfl
  | cons d ds => rw [← String.toList_inj,map_cons,intercalate_text,String.toList_ofList,charsAll]

theorem intercalate_entries (es : List Binding) : ", ".intercalate (es.map Binding.text) = String.ofList (charsOf es) := by
  cases es with
  | nil => rfl
  | cons b es =>
    obtain ⟨k,v⟩ := b
    rw [← String.toList_inj,map_cons,intercalate_bindings,String.toList_ofList]
    rfl

theorem text_list (ds : List Datum) : (list ds).text = "[" ++ ", ".intercalate (ds.map text) ++ "]" := by
  rw [intercalate_all,← String.toList_inj]
  simp [text,chars]

theorem text_single (d : Datum) : (tuple [d]).text = "(" ++ d.text ++ ",)" := by
  rw [← String.toList_inj]
  simp [text,chars,charsAll,charsMore]

theorem text_tuple (many : ds.length ≠ 1) : (tuple ds).text = "(" ++ ", ".intercalate (ds.map text) ++ ")" := by
  rw [intercalate_all,← String.toList_inj]
  simp [text,chars,many]

theorem text_set (d : Datum) (ds : List Datum) : (set (d :: ds)).text = inBraces (", ".intercalate ((d :: ds).map text)) := by
  rw [intercalate_all,← String.toList_inj]
  simp [text,chars,inBraces]

theorem text_dict (es : List Binding) : (dict es).text = inBraces (", ".intercalate (es.map Binding.text)) := by
  rw [intercalate_entries,← String.toList_inj]
  simp [text,chars,inBraces]

end Datum

variable {d : Datum}

namespace Exec

theorem showingList_done {text} (hidden : r ∉ w.shownLists)
    (ran : x { w with shownLists := r :: w.shownLists } = .done text { w with shownLists := r :: w.shownLists }) :
    showingList r x w = .done text w := by
  have unseen : w.shownLists.contains r = false := by simpa using hidden
  rw [showingList,bind_done (look_apply ..),unseen,if_neg Bool.false_ne_true,bind_done (modify_apply ..),restoring_done ran]
  simp

theorem showingDict_done {r text} (hidden : r ∉ w.shownDicts)
    (ran : x { w with shownDicts := r :: w.shownDicts } = .done text { w with shownDicts := r :: w.shownDicts }) :
    showingDict r x w = .done text w := by
  have unseen : w.shownDicts.contains r = false := by simpa using hidden
  rw [showingDict,bind_done (look_apply ..),unseen,if_neg Bool.false_ne_true,bind_done (modify_apply ..),restoring_done ran]
  simp

end Exec

-- Containers whose text is being made hold what is shown now, so their trees are deeper.
structure Unshown (w : World) (depth : Nat) : Prop where
  lists : ∀ r ∈ w.shownLists, ∀ d, Shows w.heap (.list r) d → depth < d.depth
  dicts : ∀ r ∈ w.shownDicts, ∀ d, Shows w.heap (.dict r) d → depth < d.depth

namespace Unshown

theorem of_le (unshown : Unshown w n) (less : m ≤ n) : Unshown w m :=
  ⟨fun r shown d read => Nat.lt_of_le_of_lt less (unshown.lists r shown d read),
    fun r shown d read => Nat.lt_of_le_of_lt less (unshown.dicts r shown d read)⟩

section

variable (unshown : Unshown w d.depth)

include unshown

theorem enterList (read : Shows w.heap (.list r) d) (less : n < d.depth) :
    Unshown { w with shownLists := r :: w.shownLists } n := by
  refine ⟨?_,(unshown.of_le (Nat.le_of_lt less)).dicts⟩
  intro r' shown d' read'
  rcases mem_cons.mp shown with rfl | shown
  · rw [read'.functional read]
    exact less
  · exact Nat.lt_trans less (unshown.lists r' shown d' read')

theorem enterDict {r} (read : Shows w.heap (.dict r) d) (less : n < d.depth) :
    Unshown { w with shownDicts := r :: w.shownDicts } n := by
  refine ⟨(unshown.of_le (Nat.le_of_lt less)).lists,?_⟩
  intro r' shown d' read'
  rcases mem_cons.mp shown with rfl | shown
  · rw [read'.functional read]
    exact less
  · exact Nat.lt_trans less (unshown.dicts r' shown d' read')

end

end Unshown

section Walks

variable {w : World}

theorem ShowsMembers.values
    (shown : ShowsMembers h members ds) : ShowsAll h (members.map (·.2)) ds := by
  induction members generalizing ds with
  | nil =>
    cases shown
    exact .nil
  | cons mem members ih =>
    cases shown with
    | cons _ first rest => exact .cons first (ih rest)

theorem ShowsAll.mapM_text {f : Value → Exec String} (shown : ShowsAll w.heap vs ds)
    (each : ∀ v d, Shows w.heap v d → d.depth ≤ depths ds → f v w = .done d.text w) :
    vs.mapM f w = .done (ds.map text) w := by
  induction vs generalizing ds with
  | nil =>
    cases shown
    rfl
  | cons v vs ih =>
    cases shown with
    | @cons _ _ d ds first rest =>
      have here := each v d first (Nat.le_max_left ..)
      have remaining := ih rest fun v' d' read less => each v' d' read (Nat.le_trans less (Nat.le_max_right ..))
      rw [mapM_cons,bind_done here,bind_done remaining]
      rfl

theorem ShowsEntries.mapM_text {f : Value → Exec String} (shown : ShowsEntries w.heap entries es)
    (each : ∀ v d, Shows w.heap v d → d.depth ≤ depthsOf es → f v w = .done d.text w) :
    ((entries.map Prod.snd).mapM fun (key,value) => do
      let key ← f key
      let value ← f value
      return s!"{key}: {value}") w = .done (es.map Binding.text) w := by
  induction entries generalizing es with
  | nil =>
    cases shown
    rfl
  | cons entry entries ih =>
    cases shown with
    | @cons _ key v _ k d es _ keyed valued rest =>
      have bound : max k.depth d.depth ≤ depthsOf (.mk k d :: es) := Nat.le_max_left ..
      have ofKey := each key k keyed (Nat.le_trans (Nat.le_max_left ..) bound)
      have ofValue := each v d valued (Nat.le_trans (Nat.le_max_right ..) bound)
      have remaining := ih rest fun v' d' read less => each v' d' read (Nat.le_trans less (Nat.le_max_right ..))
      rw [map_cons,mapM_cons,bind_assoc,bind_done ofKey,bind_assoc,bind_done ofValue,pure_bind,bind_done remaining]
      rfl

end Walks

-- One container

section Containers

variable (k : Engine)

theorem textFrom_tuple {tag} (shown : ShowsAll w.heap items ds)
    (each : ∀ v d, Shows w.heap v d → d.depth ≤ depths ds → k.textFrom fuel false v w = .done d.text w) :
    k.textFrom (fuel + 1) false (.tuple tag items) w = .done (tuple ds).text w := by
  have texts := shown.mapM_text each
  match items, ds, shown with
  | [], [], .nil => rfl
  | [v], [d], .cons first .nil =>
    rw [text_single,Engine.textFrom,bind_done (each v d first (Nat.le_max_left ..))]
    rfl
  | _ :: _ :: _, _ :: _ :: _, .cons _ (.cons _ _) =>
    rw [text_tuple (by simp),Engine.textFrom,bind_assoc,bind_done texts]
    · rfl
    · simp

theorem textFrom_set {r} (stored : w.heap.sets[r.id]? = some s) (shown : ShowsMembers w.heap s.toList ds)
    (each : ∀ v d, Shows w.heap v d → d.depth ≤ depths ds → k.textFrom fuel false v w = .done d.text w) :
    k.textFrom (fuel + 1) false (.set r) w = .done (Datum.set ds).text w := by
  have found : (w.heap.set r).values = s.toList.map (·.2) := by simp [Heap.set,stored,OrderedMap.values]
  have texts := shown.values.mapM_text each
  rw [Engine.textFrom,bind_done (heap_apply ..),found]
  cases ds with
  | nil =>
    cases members : s.toList with
    | nil => rfl
    | cons mem rest =>
      rw [members] at shown
      cases shown
  | cons d ds =>
    cases members : s.toList with
    | nil =>
      rw [members] at shown
      cases shown
    | cons mem rest =>
      rw [members] at texts
      simp only [map_cons] at texts ⊢
      rw [bind_assoc,bind_done texts,text_set]
      rfl

theorem textFrom_list {items} (stored : w.heap.lists[r.id]? = some items) (shown : ShowsAll w.heap items.toList ds)
    (hidden : r ∉ w.shownLists) (each : ∀ v d, Shows w.heap v d → d.depth ≤ depths ds →
      k.textFrom fuel false v { w with shownLists := r :: w.shownLists } =
        .done d.text { w with shownLists := r :: w.shownLists }) :
    k.textFrom (fuel + 1) false (.list r) w = .done (list ds).text w := by
  have found : (w.heap.list r).toList = items.toList := by simp [Heap.list,stored]
  have texts := @ShowsAll.mapM_text { w with shownLists := r :: w.shownLists } _ _ _ shown each
  apply showingList_done hidden
  rw [bind_done (heap_apply ..),found,bind_assoc,bind_done texts,text_list]
  rfl

theorem textFrom_dict {r} (stored : w.heap.dicts[r.id]? = some table)
    (shown : ShowsEntries w.heap table.entries.toList es) (hidden : r ∉ w.shownDicts)
    (each : ∀ v d, Shows w.heap v d → d.depth ≤ depthsOf es → k.textFrom fuel false v { w with shownDicts := r :: w.shownDicts } =
        .done d.text { w with shownDicts := r :: w.shownDicts }) :
    k.textFrom (fuel + 1) false (.dict r) w = .done (dict es).text w := by
  have found : (w.heap.dict r).items = table.entries.toList.map Prod.snd := by
    simp [Heap.dict,stored,Dict.items,OrderedMap.values]
  have texts := @ShowsEntries.mapM_text { w with shownDicts := r :: w.shownDicts } _ _ _ shown each
  apply showingDict_done hidden
  rw [bind_done (heap_apply ..),found,bind_done texts,text_dict]
  rfl

end Containers

-- By induction on the fuel; what is shown already is deeper than what is left to show.
theorem Shows.textFrom (k : Engine) (fuel : Nat) {w}
    (shown : Shows w.heap v d) (enough : d.depth < fuel) (unshown : Unshown w d.depth) :
    k.textFrom fuel false v w = .done d.text w := by
  induction fuel generalizing w v d with
  | zero => exact absurd enough (Nat.not_lt_zero _)
  | succ fuel ih =>
    cases shown with
    | none => rfl
    | bool b => cases b <;> rfl
    | int n =>
      rw [text,chars,String.ofList_toList]
      rfl
    | str text =>
      rw [Datum.text,Datum.chars,String.ofList_toList]
      rfl
    | @list r items ds stored shown =>
      have read : Shows w.heap (.list r) (.list ds) := .list stored shown
      have inside := unshown.enterList read (Nat.lt_succ_self (depths ds))
      refine textFrom_list k stored shown (fun held => Nat.lt_irrefl _ (unshown.lists r held _ read)) ?_
      intro v d read less
      exact ih read (Nat.lt_of_le_of_lt less (Nat.lt_of_succ_lt_succ enough)) (inside.of_le less)
    | tuple shown =>
      refine textFrom_tuple k shown ?_
      intro v d read less
      exact ih read (Nat.lt_of_le_of_lt less (Nat.lt_of_succ_lt_succ enough)) (unshown.of_le (Nat.le_succ_of_le less))
    | set stored shown nodup =>
      refine textFrom_set k stored shown ?_
      intro v d read less
      exact ih read (Nat.lt_of_le_of_lt less (Nat.lt_of_succ_lt_succ enough)) (unshown.of_le (Nat.le_succ_of_le less))
    | @dict r table es stored shown nodup =>
      have read : Shows w.heap (.dict r) (.dict es) := .dict stored shown nodup
      have inside := unshown.enterDict read (Nat.lt_succ_self (depthsOf es))
      refine textFrom_dict k stored shown (fun held => Nat.lt_irrefl _ (unshown.dicts r held _ read)) ?_
      intro v d read less
      exact ih read (Nat.lt_of_le_of_lt less (Nat.lt_of_succ_lt_succ enough)) (inside.of_le less)

end EmbedScript
