import EmbedScript.Interpreter
import EmbedScript.Proofs.Dict.History

/-!
Merging dicts, by the operator, by a display, and by updating a copy.
-/

namespace EmbedScript

open Exec

def Makes (x : Exec Value) (w : World) (entries : List (Value × Value)) : Prop :=
  ∃ t left, x w = .done (.dict t) left ∧ (left.heap.dict t).items = entries

theorem Heap.dict_push (h : Heap) (d : Dict) : ({ h with dicts := h.dicts.push d }).dict ⟨h.dicts.size⟩ = d := by
  simp [dict]

theorem Heap.dict_push_older {h : Heap} {r} (older : r.id < h.dicts.size) (d : Dict) :
    ({ h with dicts := h.dicts.push d }).dict r = h.dict r := by
  rw [dict,dict,Array.getElem?_push,if_neg (Nat.ne_of_lt older)]

theorem newDict_makes (d : Dict) (w : World) : Makes (newDict d) w d.items := ⟨_,_,rfl,by rw [Heap.dict_push]⟩

variable {k : Engine} {w : World} {r s : Ref .dict}

theorem Dict.Keyed.isKey {d : Dict} (keyed : d.Keyed) : ∀ e ∈ d.items, e.1.IsKey := by
  intro e mem
  obtain ⟨filed,there,rfl⟩ := List.mem_map.mp mem
  exact keyed.key filed there

theorem bitOr_makes (left : (w.heap.dict r).Keyed) (right : (w.heap.dict s).Keyed) :
    ∃ t after, builtinBinary .bitOr (.dict r) (.dict s) w = .done (some (.dict t)) after ∧
      (after.heap.dict t).items = Entries.merge (w.heap.dict r).items (w.heap.dict s).items ∧
      (w.extensions.get? "dict" "__or__" = none → k.binary .bitOr (.dict r) (.dict s) w = .done (.dict t) after) := by
  obtain ⟨merged,ran,_,same⟩ := left.insertItems right.isKey
  obtain ⟨t,after,made,items⟩ := newDict_makes merged w
  have joined : builtinBinary .bitOr (.dict r) (.dict s) w = .done (some (.dict t)) after := by
    change (ofExcept ((w.heap.dict r).insertItems (w.heap.dict s).items) >>= fun d => newDict d >>= fun v => pure (some v)) w = _
    rw [ran]
    change (newDict merged >>= fun v => pure (some v)) w = _
    exact bind_done made _
  refine ⟨t,after,joined,items.trans same,fun plain => ?_⟩
  rw [Engine.binary_silent .bitOr rfl rfl plain]
  exact bind_done joined _

-- The display starts from nothing, so the entries of the first dict come in as they are.
theorem eval_dict_makes {f first} (left : (w.heap.dict r).Keyed)
    (right : (w.heap.dict s).Keyed) (reads : first.eval k f w = .done (.dict r) w)
    (rereads : second.eval k f w = .done (.dict s) w) :
    Makes (Code.eval k f (.dict [.unpack first,.unpack second])) w
      (Entries.merge (w.heap.dict r).items (w.heap.dict s).items) := by
  obtain ⟨copied,began,keyed,copy⟩ := Dict.keyed_empty.insertItems left.isKey
  obtain ⟨merged,ended,_,same⟩ := keyed.insertItems right.isKey
  rw [copy.trans (@Entries.merge_distinct [] _ left.distinct)] at same
  obtain ⟨t,after,made,items⟩ := newDict_makes merged w
  have unpacked : ∀ {d e} {u}, d.insertItems (w.heap.dict u).items = .ok e →
      k.mergeMapping d (.dict u) w = .done e w := by
    intro d e u ran
    change ofExcept (d.insertItems (w.heap.dict u).items) w = _
    rw [ran]
    rfl
  have collected : Code.evalEntries k f {} [.unpack first,.unpack second] w = .done merged w := by
    rw [Code.evalEntries,bind_done reads,bind_done (unpacked began),Code.evalEntries,bind_done rereads,bind_done (unpacked ended)]
    rfl
  refine ⟨t,after,?_,items.trans same⟩
  rw [Code.eval,bind_done collected]
  exact made

theorem setEntry_key (there : r.id < w.heap.dicts.size) (keyed : (w.heap.dict r).Keyed)
    (given : key.IsKey) (value : Value) :
    ∃ left, setEntry r key value w = .done () left ∧ left.heap.dicts.size = w.heap.dicts.size ∧
      (left.heap.dict r).Keyed ∧ (left.heap.dict r).items = Entries.put key value (w.heap.dict r).items := by
  obtain ⟨h,hashed⟩ := HashKey.exists_ofValue key given.mutable?_eq_none
  refine ⟨_,by rw [setEntry,hashed]; rfl,Array.size_modify ..,?_⟩
  rw [Heap.dict_modify there]
  exact ⟨keyed.insertAt given hashed value,keyed.items_insertAt given hashed⟩

theorem forIn_setEntry (each : ∀ e u, body e u = setEntry r e.1 e.2 >>= fun _ => pure (.yield u))
    {others} (there : r.id < w.heap.dicts.size)
    (keyed : (w.heap.dict r).Keyed) (given : ∀ e ∈ others, e.1.IsKey) :
    ∃ left, (forIn others PUnit.unit body : Exec PUnit) w = .done PUnit.unit left ∧
      (left.heap.dict r).items = Entries.merge (w.heap.dict r).items others := by
  induction others generalizing w with
  | nil => exact ⟨w,rfl,rfl⟩
  | cons e others ih =>
    obtain ⟨middle,first,size,kept,same⟩ := setEntry_key there keyed (given e (.head _)) e.2
    obtain ⟨left,rest,items⟩ := ih (size ▸ there) kept fun e mem => given e (.tail _ mem)
    refine ⟨left,?_,by rw [items,same]; rfl⟩
    rw [List.forIn_cons,each,bind_assoc,bind_done first]
    exact rest

theorem update_makes (there : s.id < w.heap.dicts.size) (left : (w.heap.dict r).Keyed) (right : (w.heap.dict s).Keyed) : Makes (do
      let copy ← k.performDict .copy (.dict r) []
      discard (k.performDict .update copy [.dict s])
      return copy) w (Entries.merge (w.heap.dict r).items (w.heap.dict s).items) := by
  let middle : World := { w with heap := { w.heap with
    dicts := w.heap.dicts.push (w.heap.dict r) } }
  have copied : k.performDict .copy (.dict r) [] w = .done (.dict ⟨w.heap.dicts.size⟩) middle := rfl
  have copy : middle.heap.dict ⟨w.heap.dicts.size⟩ = w.heap.dict r := Heap.dict_push ..
  have source : middle.heap.dict s = w.heap.dict s := Heap.dict_push_older there _
  obtain ⟨after,ran,items⟩ := @forIn_setEntry middle ⟨w.heap.dicts.size⟩
    (fun e u => setEntry ⟨w.heap.dicts.size⟩ e.1 e.2 >>= fun _ => pure (.yield u)) (fun _ _ => rfl)
    (middle.heap.dict s).items (by simp [middle]) (copy ▸ left) (source ▸ right.isKey)
  have given : k.entries [.dict s] middle = .done ((middle.heap.dict s).items ++ []) middle := rfl
  rw [List.append_nil] at given
  have updated : k.performDict .update (.dict ⟨w.heap.dicts.size⟩) [.dict s] middle =
      .done .none after := by
    change (k.entries [.dict s] >>= fun entries => forIn entries PUnit.unit (fun e u =>
      setEntry ⟨w.heap.dicts.size⟩ e.1 e.2 >>= fun _ => pure (.yield u)) >>= fun _ => pure Value.none) middle = _
    rw [bind_done given]
    exact bind_done ran _
  refine ⟨⟨w.heap.dicts.size⟩,after,?_,?_⟩
  · have dropped : discard (k.performDict .update (.dict ⟨w.heap.dicts.size⟩) [.dict s]) middle =
        .done () after := bind_done updated fun _ => pure ()
    rw [bind_done copied,bind_done dropped]
    rfl
  · rw [items,copy,source]

-- An empty dict is `Keyed`, and histories keep it so. The fuel has to reach into the tuples that are
-- compared; the operators `==` and `|` are the equality and the merging of the language as long as no
-- extension takes them over.
theorem dict_follows_entries (there : r.id < w.heap.dicts.size) (keyed : (w.heap.dict r).Keyed) :
    (∀ ops : List DictOp, (∀ op ∈ ops, op.Fits) →
      ∃ left, (ops.mapM fun op => attempt (op.run k r)) w =
          .done (DictOp.answers (w.heap.dict r).items ops).1 left ∧
        (left.heap.dict r).items = (DictOp.answers (w.heap.dict r).items ops).2 ∧
        (left.heap.dict r).Keyed) ∧
    (∀ (op : KeyOp) (key : Value) (kind : String), key.mutable? = some kind →
      op.run k r key w = fail (.unhashable kind) w) ∧
    (∀ a b : Value, a.IsKey → b.IsKey → a.height ≤ k.fuel →
      k.equals a b w = .done (a.alike b) w ∧
      (w.extensions.get? a.typeKey "__eq__" = none →
        k.binary .eq a b w = .done (.bool (a.alike b)) w)) ∧
    (∀ s : Ref .dict, s.id < w.heap.dicts.size → (w.heap.dict s).Keyed →
      (∃ t left, builtinBinary .bitOr (.dict r) (.dict s) w = .done (some (.dict t)) left ∧
        (left.heap.dict t).items = Entries.merge (w.heap.dict r).items (w.heap.dict s).items ∧
        (w.extensions.get? "dict" "__or__" = none →
          k.binary .bitOr (.dict r) (.dict s) w = .done (.dict t) left)) ∧
      (∀ (f : Frame) (first second : Code), first.eval k f w = .done (.dict r) w →
        second.eval k f w = .done (.dict s) w →
        Makes (Code.eval k f (.dict [.unpack first, .unpack second])) w
          (Entries.merge (w.heap.dict r).items (w.heap.dict s).items)) ∧
      Makes (do
        let copy ← k.performDict .copy (.dict r) []
        discard (k.performDict .update copy [.dict s])
        return copy) w (Entries.merge (w.heap.dict r).items (w.heap.dict s).items)) := by
  refine ⟨fun ops fits => ?_, fun op key kind refused => KeyOp.run_refused refused,
    fun a b left right enough => ?_, fun s other right => ⟨?_, ?_, ?_⟩⟩
  · obtain ⟨left, ran, kept, items⟩ := @DictOp.run_answers k w r ops there keyed fits
    exact ⟨left, ran, items, kept⟩
  · exact ⟨Engine.equals_keys left right enough, Engine.binary_eq_keys left right enough⟩
  · exact bitOr_makes keyed right
  · intro f first second reads rereads
    exact eval_dict_makes keyed right reads rereads
  · exact update_makes other keyed right

-- `True` and `1` share an entry, which keeps its first key; a tuple with a list in it is no key.
def sharing : List DictOp := [.keyed (.insert (.str "a")) (.bool true),.keyed (.insert .none) (.tuple 0 [.none]),
    .keyed (.insert (.str "b")) (.int 1),.keyed .remove (.tuple 7 [.none]),
    .keyed (.insert .none) (.tuple 8 [.int 1,.list ⟨0⟩]),.keyed .get (.int 1)]

theorem dict_follows_entries_sharing :
    ∃ left, (sharing.mapM fun op => attempt (op.run (engine 1) ⟨0⟩))
        { types := ⟨[]⟩, maxDepth := 0, heap := { dicts := #[{}] } } =
        .done [.ok .none, .ok .none, .ok .none, .ok .none, .error (.unhashable "list"),
          .ok (.str "b")] left ∧
      (left.heap.dict ⟨0⟩).items = [(.bool true, .str "b")] ∧ (left.heap.dict ⟨0⟩).Keyed := by
  have fits : ∀ op ∈ sharing, op.Fits := by
    have single : ∀ tag, (Value.tuple tag [.none]).IsKey := fun tag =>
      .tuple tag (List.forall_mem_singleton.mpr .none)
    simp only [sharing, List.forall_mem_cons, DictOp.Fits]
    exact ⟨.inl (.bool _), .inl (single 0), .inl (.int _), .inl (single 7), .inr rfl, .inl (.int _),
      fun _ member => nomatch member⟩
  have follows := @dict_follows_entries (engine 1)
    { types := ⟨[]⟩, maxDepth := 0, heap := { dicts := #[{}] } } ⟨0⟩ (by decide) Dict.keyed_empty
  obtain ⟨left, ran, items, kept⟩ := follows.1 sharing fits
  have answered : DictOp.answers [] sharing =
      ([.ok .none, .ok .none, .ok .none, .ok .none, .error (.unhashable "list"), .ok (.str "b")],
        [(.bool true, .str "b")]) := by with_unfolding_all rfl
  refine ⟨left, ran.trans ?_, items.trans ?_, kept⟩
  · exact congrArg (fun a => Outcome.done a.1 left) answered
  · exact congrArg Prod.snd answered

end EmbedScript
