import EmbedScript.Host.Signature

/-!
Overloads. The choice is the first candidate at the strictest level that has one, and depends on
the candidates that match alone.
-/

namespace EmbedScript

open List

namespace Signature

def accepts (s : Signature) (args : List Kind) (fit : Fit) : Bool := !s.variadic && s.takes args fit

def byValue (s : Signature) : Signature := { s with params := s.params.map fun p => { p with byRef := false } }

variable {α : Type} (signature : α → Signature) (candidates : List α) (args : List Kind) (widen : Bool)

def matching : List α := candidates.filter fun c => [Fit.exact,.dynamic,.widened].any ((signature c).takes args)

-- The first candidate of which something holds.
def Earliest (p : α → Prop) (c : α) : Prop :=
  p c ∧ ∃ before after, candidates = before ++ c :: after ∧ ∀ b ∈ before, ¬ p b

-- The first candidate at the strictest level that has one. Stricter levels are tried before others.
def BestFit (c : α) : Prop :=
  ∃ stricter fit looser, fits widen = stricter ++ fit :: looser ∧
    Earliest candidates (fun c => (signature c).accepts args fit) c ∧
    ∀ level ∈ stricter, ∀ other ∈ candidates, (signature other).accepts args level = false

def Unfit : Prop := ∀ fit ∈ fits widen, ∀ c ∈ candidates, (signature c).accepts args fit = false

def fitting? : Option α := (fits widen).findSome? fun fit => candidates.find? fun c => (signature c).accepts args fit

theorem resolve_eq : resolve signature candidates args widen =
    (fitting? signature candidates args widen).or (candidates.find? fun c => (signature c).variadic) := rfl

variable {signature candidates args widen}

theorem find?_eq_some_iff_earliest : candidates.find? p = some c ↔ Earliest candidates (p ·) c := by
  simp [find?_eq_some_iff_append,Earliest]

theorem fitting?_eq_some_iff :
    fitting? signature candidates args widen = some c ↔ BestFit signature candidates args widen c := by
  simp [fitting?,findSome?_eq_some_iff,find?_eq_some_iff_earliest,BestFit]

theorem fitting?_eq_none_iff : fitting? signature candidates args widen = none ↔ Unfit signature candidates args widen := by
  simp [fitting?,Unfit]

theorem takes_mono {s : Signature} (weaker : ∀ param arg, strict.takes param arg → lax.takes param arg)
    (taken : s.takes args strict) : s.takes args lax := by
  simp only [takes,Bool.or_eq_true,Bool.and_eq_true,all_eq_true] at taken ⊢
  exact taken.imp_right (.imp_right fun all p mem => weaker _ _ (all p mem))

-- A candidate that matches at no level is passed over by every search.
theorem find?_matching (fit : Fit) (taken : ∀ c, p c → (signature c).takes args fit) :
    (matching signature candidates args).find? p = candidates.find? p := by
  rw [matching,find?_filter]
  congr
  funext c
  have level : fit ∈ [Fit.exact,.dynamic,.widened] := by cases fit <;> simp
  exact Bool.eq_iff_iff.mpr (by simpa using fun found => any_eq_true.mpr ⟨fit,level,taken c found⟩)

theorem resolve_matching : resolve signature (matching signature candidates args) args widen =
    resolve signature candidates args widen := by
  have accepted (fit : Fit) (c : α) (accepts : (signature c).accepts args fit) : (signature c).takes args fit :=
    (Bool.and_eq_true _ _ ▸ accepts).2
  simp only [resolve_eq,fitting?,find?_matching _ (accepted _)]
  rw [find?_matching .exact fun c variadic => by simp [takes,variadic]]

end Signature

open Signature

structure OverloadLaws {α : Type} (signature : α → Signature) (candidates : List α) (args : List Kind)
    (widen : Bool) : Prop where
  exact_dynamic : ∀ s : Signature, s.takes args .exact → s.takes args .dynamic
  dynamic_widened : ∀ s : Signature, s.takes args .dynamic → s.takes args .widened
  picked : ∀ c, resolve signature candidates args widen = some c ↔
    BestFit signature candidates args widen c ∨
      Unfit signature candidates args widen ∧ Earliest candidates (fun c => (signature c).variadic) c
  nothing : resolve signature candidates args widen = none ↔
    Unfit signature candidates args widen ∧ ∀ c ∈ candidates, (signature c).variadic = false
  widening : ∀ c, (signature c).variadic = false → resolve signature candidates args false = some c →
    resolve signature candidates args true = some c
  appended : ∀ extra, (∀ fit, (signature extra).takes args fit = false) →
    resolve signature (candidates ++ [extra]) args widen = resolve signature candidates args widen
  reordered : ∀ others, matching signature others args = matching signature candidates args →
    resolve signature others args widen = resolve signature candidates args widen
  byReference : resolve (fun c => (signature c).byValue) candidates args widen =
    resolve signature candidates args widen

theorem overload_laws {α : Type} (signature : α → Signature) (candidates : List α) (args : List Kind)
    (widen : Bool) : OverloadLaws signature candidates args widen where
  exact_dynamic s := takes_mono fun param arg same => by simp_all [Fit.takes]
  dynamic_widened s := takes_mono fun param arg fits => by
    simp only [Fit.takes, Kind.widensTo, Bool.or_eq_true, beq_iff_eq] at fits ⊢
    exact .inl (fits.symm.imp_left Eq.symm)
  picked c := by
    rw [resolve_eq, Option.or_eq_some_iff, fitting?_eq_some_iff, fitting?_eq_none_iff,
      find?_eq_some_iff_earliest]
  nothing := by
    rw [resolve_eq, Option.or_eq_none_iff, fitting?_eq_none_iff]
    simp
  widening c fixed chosen := by
    rw [resolve_eq, Option.or_eq_some_iff] at chosen ⊢
    refine .inl (chosen.elim (fun best => ?_) fun late => ?_)
    · have grown : fits true = fits false ++ [.widened] := rfl
      rw [fitting?, grown, findSome?_append]
      exact congrArg (Option.or · _) best
    · exact absurd (find?_some late.2) (by simp [fixed])
  appended extra unmatched := by
    have dropped : matching signature (candidates ++ [extra]) args = matching signature candidates args := by
      simp [matching, unmatched]
    rw [← resolve_matching, dropped, resolve_matching]
  reordered others same := by rw [← resolve_matching, same, resolve_matching]
  byReference := by
    have same (c : α) (fit : Fit) : (signature c).byValue.accepts args fit = (signature c).accepts args fit := by
      simp [accepts, takes, byValue, zip_map_left, Function.comp_def]
    simp only [resolve_eq, fitting?, same]
    rfl

end EmbedScript
