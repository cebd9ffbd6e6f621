import EmbedScript.Proofs.Dict.Separation

namespace EmbedScript

open Exec List OrderedMap

namespace OrderedMap

variable [BEq κ] [LawfulBEq κ]

variable (m : OrderedMap κ α) (keep : κ → Bool)

theorem get?_filterKeys (key : κ) : (m.filterKeys keep).get? key = if keep key then m.get? key else none := by
  simp only [get?_eq_lookup,toList,filterKeys,Array.toList_filter]
  induction m.entries.toList with
  | nil => simp
  | cons e entries ih =>
    obtain ⟨here,value⟩ := e
    by_cases same : key = here
    · subst same
      cases kept : keep key with
      | true => simp [kept]
      | false =>
        rw [filter_cons_of_neg (by simp [kept]),ih,kept]
        rfl
    · have passed : (key == here) = false := beq_eq_false_iff_ne.mpr same
      rw [lookup_cons,passed,filter_cons]
      split
      · rw [lookup_cons,passed]
        exact ih
      · exact ih

omit [BEq κ] [LawfulBEq κ] in
theorem keys_filterKeys : (m.filterKeys keep).keys.Sublist m.keys := by
  simp only [keys,toList,filterKeys,Array.toList_filter]
  exact filter_sublist.map _

theorem get?_insertAll [DecidableEq κ] (nodup : other.keys.Nodup) (key : κ) :
    (m.insertAll other).get? key = (other.get? key).or (m.get? key) := by
  rw [insertAll,get?_eq_lookup other,← Array.foldl_toList]
  change (other.toList.map (·.1)).Nodup at nodup
  change (other.toList.foldl _ m).get? key = _
  generalize other.toList = entries at nodup ⊢
  induction entries generalizing m with
  | nil => rfl
  | cons e entries ih =>
    obtain ⟨absent,nodup⟩ := nodup_cons.mp nodup
    rw [foldl_cons,ih _ nodup,get?_insert,lookup_cons]
    by_cases same : e.1 = key
    · subst same
      have missing : entries.lookup e.1 = none := by
        rw [lookup_eq_none_iff]
        intro p mem
        exact bne_iff_ne.mpr fun found => absent (mem_map.mpr ⟨p,mem,found.symm⟩)
      simp [missing]
    · have passed : (key == e.1) = false := beq_eq_false_iff_ne.mpr (Ne.symm same)
      simp [same,passed]

end OrderedMap

-- What every module starts with, apart from its own name.
def World.seeds (w : World) : OrderedMap String Value :=
  match w.prelude with
  | some m => (w.heap.module m).globals
  | none => {}

def World.global? (w : World) (m : Ref .module) (name : String) : Option Value := (w.heap.module m).globals.get? name

theorem newModule_seeds
    (new : newModule path start = .done own fresh) (shown : name.startsWith "_" = false) :
    fresh.global? own name = start.seeds.get? name := by
  have other : "__name__" ≠ name := by
    rintro rfl
    exact absurd shown (by decide +kernel)
  cases new
  simp only [World.global?,Heap.module,Array.getElem?_push_size]
  exact get?_insert_of_ne other _

theorem importAll_done
    (loads : k.importModule path w = .done m mid) (made : home.id < mid.heap.modules.size)
    (nodup : (mid.heap.module m).globals.keys.Nodup) :
    ∃ left, importAll k home path w = .done .next left ∧
      left = { mid with heap := { mid.heap with modules := left.heap.modules } } ∧
      (∀ other ≠ home, left.heap.module other = mid.heap.module other) ∧
      ∀ name, left.global? home name = if name.startsWith "_" then mid.global? home name
        else (mid.global? m name).or (mid.global? home name) := by
  refine ⟨_,bind_done loads _,rfl,fun other different => ?_,fun name => ?_⟩
  · have elsewhere : home.id ≠ other.id := fun same => different (congrArg Ref.mk same.symm)
    simp [Heap.module,Array.getElem?_modify,elsewhere]
  · have exported := nodup.sublist (keys_filterKeys _ fun name => !name.startsWith "_")
    have taken := get?_insertAll (mid.heap.module home).globals exported name
    rw [get?_filterKeys] at taken
    refine Eq.trans ?_ (taken.trans ?_)
    · simp [World.global?,Heap.module,made,Array.getElem_modify]
    · cases name.startsWith "_" <;> rfl

-- A name that the other module has not bound itself, but has from the start, is left alone just if
-- the importing module has not bound it either.
theorem star_import_binds {k : Engine} {home m : Ref .module} {path : String} {w mid : World}
    (loads : k.importModule path w = .done m mid) (made : home.id < mid.heap.modules.size)
    (distinct : (mid.heap.module m).globals.keys.Nodup) :
    ∃ left, importAll k home path w = .done .next left ∧
      left = { mid with heap := { mid.heap with modules := left.heap.modules } } ∧
      (∀ other ≠ home, left.heap.module other = mid.heap.module other) ∧
      ∀ name, (left.global? home name = if name.startsWith "_" then mid.global? home name
          else (mid.global? m name).or (mid.global? home name)) ∧
        ∀ start own fresh, newModule path start = .done own fresh →
          mid.global? m name = fresh.global? own name →
          (left.global? home name = mid.global? home name ↔ name.startsWith "_" ∨
            start.seeds.get? name = none ∨ mid.global? home name = start.seeds.get? name) := by
  obtain ⟨left,ran,same,others,binds⟩ := importAll_done loads made distinct
  refine ⟨left,ran,same,others,fun name => ⟨binds name,fun start own fresh new unbound => ?_⟩⟩
  rw [binds name,unbound]
  cases shown : name.startsWith "_" with
  | true => simp
  | false =>
    rw [newModule_seeds new shown]
    cases start.seeds.get? name <;> simp [eq_comm]

-- Module 0 is what modules start with. Module 1 has given `len` another value, module 2 has an `x`.
def starWorld : World := { World.blank with
    prelude := some ⟨0⟩, loaded := [("m",⟨2⟩)]
    heap := { modules := #[⟨"builtins",⟨#[("len",.function ⟨0⟩)]⟩⟩,⟨"main",⟨#[("len",.int 5)]⟩⟩,
      ⟨"m",⟨#[("len",.function ⟨0⟩),("x",.int 1)]⟩⟩] } }

theorem starWorld_imports : (engine 1).importModule "m" starWorld = .done ⟨2⟩ starWorld := rfl

theorem star_import_binds_x : ∃ left, importAll (engine 1) ⟨1⟩ "m" starWorld = .done .next left ∧
    left.global? ⟨1⟩ "x" = some (.int 1) := by
  obtain ⟨left,ran,_,_,binds⟩ :=
    star_import_binds starWorld_imports (show 1 < 3 by decide) (by decide)
  refine ⟨left,ran,(binds "x").1.trans ?_⟩
  rw [if_neg (by decide +kernel)]
  rfl

-- The module that is imported has never bound `len`, but it has the name, and its value replaces the
-- one of the importing module.
theorem star_import_restores : ¬ ∀ (name : String) (left : World),
    starWorld.global? ⟨2⟩ name = starWorld.seeds.get? name →
    importAll (engine 1) ⟨1⟩ "m" starWorld = .done .next left →
    left.global? ⟨1⟩ name = starWorld.global? ⟨1⟩ name := by
  intro spared
  obtain ⟨left,ran,_,_,binds⟩ :=
    importAll_done starWorld_imports (show 1 < 3 by decide) (by decide)
  have kept := (binds "len").symm.trans (spared "len" left rfl ran)
  rw [if_neg (by decide +kernel)] at kept
  cases kept

end EmbedScript
