import EmbedScript.Heap
import Mathlib.Data.Finset.Card
import Mathlib.Logic.Relation

/-!
Ancestry. Where the bases of classes form no cycle, the search for an ancestor and the list of the
ancestors' names both go deep enough to see all of them.
-/

namespace EmbedScript

open List Relation

namespace Heap

variable {h : Heap} {c d : Ref .cls}

def IsBase (h : Heap) (c base : Ref .cls) : Prop := base ∈ (h.cls c).bases

structure Hierarchy (h : Heap) : Prop where
  known : ∀ c base, h.IsBase c base → base.id < h.classes.size
  acyclic : ∀ c, ¬ TransGen h.IsBase c c

-- The height of a class is the number of its proper ancestors.
open Classical in
theorem Hierarchy.exists_height (hierarchy : h.Hierarchy) : ∃ height : Ref .cls → Nat,
    (∀ c, c.id < h.classes.size → height c < h.classes.size) ∧ ∀ c base, h.IsBase c base → height base < height c := by
  let above (c : Ref .cls) := (Finset.range h.classes.size).filter fun i => TransGen h.IsBase c ⟨i⟩
  refine ⟨fun c => (above c).card,fun c here => ?_,fun c base isBase => Finset.card_lt_card ?_⟩
  · have fewer : (above c).card < _ :=
      Finset.card_lt_card (Finset.filter_ssubset.mpr ⟨c.id,Finset.mem_range.mpr here,hierarchy.acyclic c⟩)
    rwa [Finset.card_range] at fewer
  · refine (Finset.ssubset_iff_of_subset fun i mem => ?_).mpr ⟨base.id,?_⟩
    · have ⟨inside,derived⟩ := Finset.mem_filter.mp mem
      exact Finset.mem_filter.mpr ⟨inside,.head isBase derived⟩
    · have inside := Finset.mem_range.mpr (hierarchy.known c base isBase)
      refine ⟨Finset.mem_filter.mpr ⟨inside,.single isBase⟩,fun mem => ?_⟩
      exact hierarchy.acyclic base (Finset.mem_filter.mp mem).2

-- Names are added behind the known ones, each once.
structure Gathered (names more result : List String) : Prop where
  first : names <+: result
  nodup : names.Nodup → result.Nodup
  mem : ∀ name, name ∈ result ↔ name ∈ names ∨ name ∈ more

theorem gathered (names more : List String) : Gathered names more
    (more.foldl (fun names name => if names.contains name then names else names ++ [name]) names) := by
  induction more generalizing names with
  | nil => exact ⟨prefix_rfl,id,fun name => by simp⟩
  | cons next more ih =>
    rw [foldl_cons]
    split
    · obtain ⟨first,nodup,mem⟩ := ih names
      exact ⟨first,nodup,by grind⟩
    · obtain ⟨first,nodup,mem⟩ := ih (names ++ [next])
      exact ⟨(prefix_append ..).trans first,fun once => nodup (nodup_append.mpr (by grind)),by grind⟩

theorem lineageFrom_succ (h : Heap) (fuel : Nat) (c : Ref .cls) :
    Gathered [(h.cls c).name] ((h.cls c).bases.flatMap (h.lineageFrom fuel)) (h.lineageFrom (fuel + 1) c) := by
  rw [lineageFrom,← foldl_flatMap]
  exact gathered ..

section

variable {height : Ref .cls → Nat} (lower : ∀ c base, h.IsBase c base → height base < height c) (deep : height c < fuel)

include lower deep

theorem derives_iff : h.derives d fuel c ↔ ReflTransGen h.IsBase c d := by
  induction fuel generalizing c with
  | zero => contradiction
  | succ fuel ih =>
    rw [derives,Bool.or_eq_true,beq_iff_eq,any_eq_true,ReflTransGen.cases_head_iff]
    refine or_congr .rfl (exists_congr fun base => and_congr_right fun isBase => ih ?_)
    exact Nat.lt_of_lt_of_le (lower c base isBase) (Nat.le_of_lt_succ deep)

theorem mem_lineageFrom_iff :
    name ∈ h.lineageFrom fuel c ↔ ∃ d, ReflTransGen h.IsBase c d ∧ (h.cls d).name = name := by
  induction fuel generalizing c with
  | zero => contradiction
  | succ fuel ih =>
    rw [(lineageFrom_succ h fuel c).mem,mem_singleton,mem_flatMap]
    have below base (isBase : h.IsBase c base) := ih (Nat.lt_of_lt_of_le (lower c base isBase) (Nat.le_of_lt_succ deep))
    constructor
    · rintro (rfl | ⟨base,isBase,mem⟩)
      · exact ⟨c,.refl,rfl⟩
      · obtain ⟨d,derived,same⟩ := (below base isBase).mp mem
        exact ⟨d,.head isBase derived,same⟩
    · rintro ⟨d,derived,rfl⟩
      rcases derived.cases_head with rfl | ⟨base,isBase,derived⟩
      · exact .inl rfl
      · exact .inr ⟨base,isBase,(below base isBase).mpr ⟨d,derived,rfl⟩⟩

end

theorem Hierarchy.of_older (older : ∀ c base, h.IsBase c base → base.id < c.id) : h.Hierarchy := by
  have less {c d} (derived : TransGen h.IsBase c d) : d.id < c.id := by
    induction derived with
    | single isBase => exact older _ _ isBase
    | tail _ isBase ih => exact Nat.lt_trans (older _ _ isBase) ih
  refine ⟨fun c base isBase => ?_,fun c cycle => Nat.lt_irrefl _ (less cycle)⟩
  by_contra outside
  have none : (h.cls c).bases = [] := by rw [cls,Array.getElem?_eq_none (by have := older c base isBase; omega)]; rfl
  rw [IsBase,none] at isBase
  contradiction

theorem name_inj (distinct : (h.classes.toList.map (·.name)).Nodup) (known : c.id < h.classes.size)
    (known' : d.id < h.classes.size) (same : (h.cls c).name = (h.cls d).name) : c = d := by
  have position : c.id = d.id := (getElem?_inj (by simpa) distinct).mp (by simpa [cls,known,known'] using same)
  cases c
  exact congrArg Ref.mk position

theorem Hierarchy.known_of_derived (hierarchy : h.Hierarchy) (known : c.id < h.classes.size)
    (derived : ReflTransGen h.IsBase c d) : d.id < h.classes.size := by
  cases derived with
  | refl => exact known
  | tail _ isBase => exact hierarchy.known _ _ isBase

theorem ancestry_by_name (hierarchy : h.Hierarchy) (distinct : (h.classes.toList.map (·.name)).Nodup)
    (known : c.id < h.classes.size) :
    (h.lineage c).head? = some (h.cls c).name ∧ (h.lineage c).Nodup ∧
    (∀ d, d.id < h.classes.size → ((h.cls d).name ∈ h.lineage c ↔ h.isSubclass c d)) ∧
    h.isSubclass c c ∧ (∀ d e, h.isSubclass c d → h.isSubclass d e → h.isSubclass c e) ∧
    ∀ d, h.isSubclass c d → h.isSubclass d c → c = d := by
  obtain ⟨height,bounded,lower⟩ := hierarchy.exists_height
  have sub {c d} (known : c.id < h.classes.size) : h.isSubclass c d ↔ ReflTransGen h.IsBase c d :=
    derives_iff lower (bounded c known)
  have own := lineageFrom_succ h (h.classes.size - 1) c
  rw [Nat.sub_add_cancel (Nat.zero_lt_of_lt known)] at own
  refine ⟨?_,own.nodup (nodup_singleton _),fun d known' => ?_,(sub known).mpr .refl,fun d e up further => ?_,fun d up down => ?_⟩
  · obtain ⟨rest,shape⟩ := own.first
    exact congrArg head? shape.symm
  · rw [sub known,lineage,mem_lineageFrom_iff lower (bounded c known)]
    constructor
    · rintro ⟨e,derived,same⟩
      exact name_inj distinct (hierarchy.known_of_derived known derived) known' same ▸ derived
    · exact fun derived => ⟨d,derived,rfl⟩
  · have up := (sub known).mp up
    exact (sub known).mpr (up.trans ((sub (hierarchy.known_of_derived known up)).mp further))
  · have up := (sub known).mp up
    have down := (sub (hierarchy.known_of_derived known up)).mp down
    by_contra different
    rcases reflTransGen_iff_eq_or_transGen.mp up with same | up
    · exact different same.symm
    · exact hierarchy.acyclic c (up.trans_left down)

def diamond : Heap :=
  { classes := #[⟨"Base","",[],{}⟩,⟨"Left","",[⟨0⟩],{}⟩,⟨"Right","",[⟨0⟩],{}⟩,⟨"Leaf","",[⟨1⟩,⟨2⟩],{}⟩] }

theorem diamond_hierarchy : diamond.Hierarchy := by
  refine .of_older fun ⟨i⟩ base isBase => ?_
  rcases i with _ | _ | _ | _ | i
  all_goals simp [IsBase,cls,diamond] at isBase ⊢
  all_goals grind

theorem ancestry_by_name_diamond : diamond.Hierarchy ∧ diamond.lineage ⟨3⟩ = ["Leaf","Left","Base","Right"] ∧
    ("Base" ∈ diamond.lineage ⟨3⟩ ↔ diamond.isSubclass ⟨3⟩ ⟨0⟩) :=
  ⟨diamond_hierarchy,by decide,(ancestry_by_name (c := ⟨3⟩) diamond_hierarchy (by decide) (by decide)).2.2.1 ⟨0⟩ (by decide)⟩

end Heap

end EmbedScript
