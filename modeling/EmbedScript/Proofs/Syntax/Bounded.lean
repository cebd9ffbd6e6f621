import EmbedScript.Proofs.Number.Word
import EmbedScript.Proofs.Syntax.Grouping
import EmbedScript.Syntax.Program
import Mathlib

/-!
The integers of a parsed program lie between the greatest word and its negation. A literal has no
sign, and a minus before an integer keeps it there.
-/

namespace EmbedScript

open List Run Std.Do

mutual

def Expr.Fits : Expr → Prop
  | .int n => n.toInt.natAbs ≤ Word.greatest
  | .none | .nil | .bool _ | .float _ | .str _ | .name _ | .super => True
  | .format e | .star e | .doubleStar e | .unary _ e | .not e | .attribute e _ | .lambda _ e | .typed e => e.Fits
  | .binary _ a b | .and a b | .or a b | .identity _ a b | .membership _ a b | .index a b | .convert a b | .cast a b =>
    a.Fits ∧ b.Fits
  | .tuple items | .list items | .set items => ∀ e ∈ items, e.Fits
  | .dict entries => ∀ e ∈ entries, e.Fits
  | .ternary a b c => a.Fits ∧ b.Fits ∧ c.Fits
  | .slice e a b c => e.Fits ∧ Expr.Fits? a ∧ Expr.Fits? b ∧ Expr.Fits? c
  | .call callee arguments => callee.Fits ∧ ∀ a ∈ arguments, a.Fits
  | .comprehension _ e t source condition => e.Fits ∧ t.Fits ∧ source.Fits ∧ Expr.Fits? condition
termination_by x => sizeOf x

def Expr.Fits? : Option Expr → Prop
  | some e => e.Fits
  | none => True
termination_by x => sizeOf x

def DictEntry.Fits : DictEntry → Prop
  | .pair key value => key.Fits ∧ value.Fits
  | .unpack value => value.Fits
termination_by x => sizeOf x

def Argument.Fits : Argument → Prop
  | .positional value | .keyword _ value | .star value | .doubleStar value => value.Fits
termination_by x => sizeOf x

def Target.Fits : Target → Prop
  | .name _ => True
  | .attribute object _ => object.Fits
  | .index object place => object.Fits ∧ place.Fits
  | .tuple items => ∀ t ∈ items, t.Fits
termination_by x => sizeOf x

end

def Operand.Fits : Operand → Prop
  | .expr value => value.Fits
  | .arms condition no => condition.Fits ∧ no.Fits

def Item.Fits : Item → Prop
  | .operand value => value.Fits
  | .op .. => True

def Param.Fits (p : Param) : Prop := Expr.Fits? p.default

def FunctionHead.Fits (f : FunctionHead) : Prop := (∀ p ∈ f.params, p.Fits) ∧ ∀ e ∈ f.decorators, e.Fits

def ClassHead.Fits (c : ClassHead) : Prop := ∀ e ∈ c.bases ++ c.decorators, e.Fits

mutual

def Stmt.Fits : Stmt → Prop
  | .mk _ kind => kind.Fits
termination_by x => sizeOf x

def StmtKind.Fits : StmtKind → Prop
  | .expr value => value.Fits
  | .assign targets value => (∀ t ∈ targets, t.Fits) ∧ value.Fits
  | .augAssign target _ value => target.Fits ∧ value.Fits
  | .cond branches no => (∀ b ∈ branches, b.Fits) ∧ ∀ s ∈ no, s.Fits
  | .whileLoop condition body => condition.Fits ∧ ∀ s ∈ body, s.Fits
  | .forLoop target iterable body => target.Fits ∧ iterable.Fits ∧ ∀ s ∈ body, s.Fits
  | .function head body => head.Fits ∧ ∀ s ∈ body, s.Fits
  | .classDef head body => head.Fits ∧ ∀ s ∈ body, s.Fits
  | .returns value | .raises value => Expr.Fits? value
  | .deletes targets => ∀ t ∈ targets, t.Fits
  | .asserts test message => test.Fits ∧ Expr.Fits? message
  | .breaks | .continues | .pass | .globals _ | .nonlocals _ | .importModule _ | .importNames .. => True
termination_by x => sizeOf x

def Branch.Fits : Branch → Prop
  | .mk condition body => condition.Fits ∧ ∀ s ∈ body, s.Fits
termination_by x => sizeOf x

end

attribute [grind =] Expr.Fits Expr.Fits? DictEntry.Fits Argument.Fits Target.Fits Operand.Fits Item.Fits Param.Fits
  FunctionHead.Fits ClassHead.Fits Stmt.Fits StmtKind.Fits Branch.Fits

-- Reading. Each reader has its triple, and mvcgen leaves only what is said of the nodes it builds.

set_option mvcgen.warning false

abbrev Grants (P : α → Prop) (x : Parse α) : Prop := ⦃⌜True⌝⦄ x ⦃⇓? a => ⌜P a⌝⦄

theorem grants_iff {P : α → Prop} {x : Parse α} : Grants P x ↔ ∀ a, x = .ok a → P a := by
  cases x with
  | ok a =>
    simp only [Grants,Triple,Except.ok.injEq,forall_eq']
    exact ⟨fun holds => holds trivial,fun holds _ => holds⟩
  | error => exact ⟨fun _ _ => nofun,fun _ _ => trivial⟩

namespace Grants

variable {P : α → Prop} {f : γ → Parse Expr} {items : List γ}

@[spec] theorem fails (cause : ParseCause) (line : Nat) : Grants P (cause.at line) := by mvcgen [ParseCause.at]

@[spec] theorem ok {Q : PostCond α (.except ParseError .pure)} (a : α) : ⦃Q.1 a⦄ (.ok a : Parse α) ⦃Q⦄ := Spec.pure

@[spec] theorem string (x : Parse String) : Grants (fun _ => True) x := grants_iff.mpr fun _ _ => trivial

@[spec] theorem strings (x : Parse (List String)) : Grants (fun _ => True) x := grants_iff.mpr fun _ _ => trivial

@[spec] theorem string? (x : Parse (Option String)) : Grants (fun _ => True) x := grants_iff.mpr fun _ _ => trivial

theorem mapM {f : γ → Parse α} (each : ∀ a, Grants P (f a)) : Grants (∀ b ∈ ·, P b) (items.mapM f) := by
  induction items with
  | nil =>
    rw [mapM_nil]
    mvcgen
    grind
  | cons a items ih =>
    rw [mapM_cons]
    mvcgen [each,ih]
    grind

@[spec] theorem exprs : (∀ a, Grants Expr.Fits (f a)) → Grants (∀ e ∈ ·, e.Fits) (items.mapM f) := mapM

@[spec] theorem entries {f : γ → Parse DictEntry} :
    (∀ a, Grants DictEntry.Fits (f a)) → Grants (∀ e ∈ ·, e.Fits) (items.mapM f) := mapM

@[spec] theorem targets {f : γ → Parse Target} :
    (∀ a, Grants Target.Fits (f a)) → Grants (∀ t ∈ ·, t.Fits) (items.mapM f) := mapM

@[spec] theorem optional {item : Option γ} (each : ∀ a, Grants Expr.Fits (f a)) : Grants Expr.Fits? (item.mapM f) := by
  cases item <;> mvcgen [Option.mapM,each] <;> grind

end Grants

mutual

@[spec] theorem Expr.target?_fits (line : Nat) (e : Expr) (fits : e.Fits) : Grants Target.Fits (e.target? line) := by
  cases e with
  | tuple items | list items =>
    have items := Expr.targets?_fits line items (by grind)
    mvcgen [Expr.target?,items] <;> grind
  | _ => mvcgen [Expr.target?] <;> grind

theorem Expr.targets?_fits (line : Nat) : (items : List Expr) → (∀ e ∈ items, e.Fits) →
    Grants (∀ t ∈ ·, Target.Fits t) (Expr.targets? line items)
  | [], _ => by
    mvcgen [Expr.targets?]
    grind
  | e :: rest, fits => by
    have first := e.target?_fits line (by grind)
    have others := Expr.targets?_fits line rest (by grind)
    mvcgen [Expr.targets?,first,others]
    grind

end

namespace Run

section

variable {inner : Reader} (fair : ∀ ts line, Grants Expr.Fits (inner ts line)) (ts : List Token) (line : Nat) {e : Expr}

include fair

@[spec] theorem expressions_fits : Grants Expr.Fits (expressions inner ts line) := by
  mvcgen [expressions,fair]
  grind

@[spec] theorem target_fits : Grants Target.Fits (target inner ts line) := by
  mvcgen [target,fair]
  exact id

@[spec] theorem comprehension_fits (kind : Collection) : Grants Expr.Fits (comprehension inner ts kind line) := by
  mvcgen [comprehension,fair] <;> grind

@[spec] theorem dictEntry_fits : Grants DictEntry.Fits (dictEntry inner line ts) := by
  mvcgen [dictEntry,fair] <;> grind

@[spec] theorem argument_fits : Grants Argument.Fits (argument inner line ts) := by
  mvcgen [argument,fair] <;> grind

@[spec] theorem argumentsFrom_fits (keyword : Bool) (parts : List (List Token)) :
    Grants (∀ a ∈ ·, Argument.Fits a) (argumentsFrom inner line keyword parts) := by
  induction parts generalizing keyword with
  | nil =>
    mvcgen [argumentsFrom]
    grind
  | cons ts parts ih => mvcgen [argumentsFrom,fair,ih] <;> grind

@[spec] theorem arguments_fits : Grants (∀ a ∈ ·, Argument.Fits a) (arguments inner ts line) := by
  mvcgen [arguments,fair]
  grind

@[spec] theorem subscript_fits (fits : e.Fits) : Grants Expr.Fits (subscript inner e ts line) := by
  mvcgen [subscript,fair] <;> grind

omit fair in
theorem call_fits (callee : e.Fits) (given : ∀ a ∈ args, Argument.Fits a) : (call e args).Fits := by
  unfold call
  split <;> simp_all [Expr.Fits,Argument.Fits]

omit fair in
theorem word_fits (name : String) : (word name).Fits := by
  unfold word
  split <;> grind

omit fair in
@[spec] theorem number_fits (text : String) : Grants Expr.Fits (number text line) := by
  have whole {n : Nat} {v} (read : Word.ofInt? n = some v) : (Expr.int v).Fits := by
    have same := Word.ofInt?_eq_some_iff.mp read
    have top := (Word.fits v).2
    rw [Expr.Fits]
    omega
  mvcgen [number] <;> grind

@[spec] theorem primary_fits (t : Token) : Grants (·.1.Fits) (primary inner t ts) := by
  mvcgen [primary,paren,bracket,brace,Token.near,fair] <;> grind [word_fits]

@[spec] theorem trailer_fits (t : Token) (fits : e.Fits) : Grants Expr.Fits (trailer inner e t) := by
  mvcgen [trailer,Token.near,fair] <;> grind [call_fits]

@[spec] theorem operand_fits : Grants Expr.Fits (operand inner ts line) := by
  mvcgen [operand,fair] invariants
  | inv1 => ⇓? p => ⌜p.2.Fits⌝
  all_goals grind

@[spec] theorem segment_fits (fits : ∀ i ∈ items, Item.Fits i) (span : List Token) :
    Grants (∀ i ∈ ·, i.Fits) (segment inner line items span ts) := by
  induction ts generalizing items span with
  | nil => mvcgen [segment,closeSpan,fair] <;> grind
  | cons t ts ih => mvcgen [segment,closeSpan,Token.near,fair,ih] <;> grind

end

end Run

-- Folding

theorem Word.toInt_neg {n : Int64} (fits : n.toInt.natAbs ≤ greatest) : (-n).toInt = -n.toInt := by
  rw [Int64.toInt_neg,Int.bmod_eq_of_le] <;> simp only [greatest] at fits <;> omega

namespace Item

theorem applyUnary_fits (o : Op) (fits : e.Fits) : (o.applyUnary e).Fits := by
  unfold Op.applyUnary
  split <;> try grind
  split <;> try grind
  rw [Expr.Fits] at fits ⊢
  rwa [Word.toInt_neg fits,Int.natAbs_neg]

@[spec] theorem expr?_fits {x : Operand} (fits : x.Fits) : Grants Expr.Fits (x.expr? line) := by
  cases x <;> mvcgen [Operand.expr?]

theorem combine_fits (l : left.Fits) (r : right.Fits) : Grants Operand.Fits (Operand.combine o left right line) := by
  mvcgen [Operand.combine] <;> grind

theorem reduce_fits (fits : ∀ i ∈ run, Item.Fits i) (reduced : reduce run i line = .ok shorter) :
    ∀ i ∈ shorter.val, i.Fits := by
  obtain ⟨sub,k,v,before,after,folds,rfl,_,same⟩ := Tree.reduce_folds reduced
  have made : v.Fits := by
    cases folds with
    | @unary o x e read => exact applyUnary_fits o (grants_iff.mp (expr?_fits (fits (.operand x) (by simp [Tree.items]))) e read)
    | @binary o a b _ made =>
      have left := fits (.operand a) (by simp [Tree.items])
      have right := fits (.operand b) (by simp [Tree.items])
      exact grants_iff.mp (combine_fits left right) v made
  rw [same]
  grind

@[spec] theorem fold_fits (fits : ∀ i ∈ run, Item.Fits i) : Grants Expr.Fits (fold run line) := by
  fun_induction fold run line with
  | case1 value => exact expr?_fits (fits (.operand value) mem_cons_self)
  | case2 | case3 | case4 => exact .fails _ _
  | case5 _ _ _ _ _ _ _ reduced ih => exact ih (reduce_fits fits reduced)
  | case6 => exact fun _ => trivial

end Item

theorem within_fits (depth : Nat) : ∀ ts line, Grants Expr.Fits (within depth ts line) := by
  induction depth with
  | zero => exact fun _ line => .fails _ line
  | succ depth ih =>
    intro ts line
    mvcgen [within,level,ih] <;> grind

namespace Program

section

variable {read : Reader} (fair : ∀ ts line, Grants Expr.Fits (read ts line)) (ts : List Token) (line : Nat)

include fair

@[spec] theorem value?_fits : Grants Expr.Fits? (value? read ts line) := by
  mvcgen [value?,value,fair] <;> grind

@[spec] theorem simple_fits : Grants StmtKind.Fits (simple read ts line) := by
  mvcgen [simple,value,target,fair] <;> grind

@[spec] theorem assertion_fits : Grants StmtKind.Fits (assertion read ts line) := by
  mvcgen [assertion,fair] <;> grind

@[spec] theorem deletion_fits : Grants StmtKind.Fits (deletion read ts line) := by
  mvcgen [deletion,fair] <;> grind

@[spec] theorem parameter_fits : Grants Param.Fits (parameter read ts line) := by
  mvcgen [parameter,plainParameter,fair] <;> grind

@[spec] theorem parametersFrom_fits (parts : List (List Token)) (fits : ∀ p ∈ before, Param.Fits p) :
    Grants (∀ p ∈ ·, p.Fits) (parametersFrom read line before parts) := by
  induction parts generalizing before with
  | nil =>
    mvcgen [parametersFrom]
    grind
  | cons ts parts ih => mvcgen [parametersFrom,fair,ih] <;> grind

variable {decorators : List Expr} (fits : ∀ e ∈ decorators, e.Fits)

include fits in
@[spec] theorem functionHead_fits : Grants FunctionHead.Fits (functionHead read ts decorators line) := by
  mvcgen [functionHead,parameters,fair] <;> grind

include fits in
@[spec] theorem classHead_fits : Grants ClassHead.Fits (classHead read ts decorators line) := by
  mvcgen [classHead,fair] <;> grind

@[spec] theorem leaf_fits (keyword : Option Keyword) : Grants StmtKind.Fits (leaf read keyword ts line) := by
  mvcgen [leaf,fair] <;> grind

mutual

theorem body_fits (line : Nat) : (below : Option (List Line)) → Grants (∀ s ∈ ·, Stmt.Fits s) (body read line below)
  | some (first :: rest) => by
    have lines := @block_fits (first :: rest) []
    mvcgen [body,lines]
    grind
  | some [] | none => .fails _ _

theorem block_fits : (lines : List Line) → ∀ {decorators}, (∀ e ∈ decorators, e.Fits) →
    Grants (∀ s ∈ ·, Stmt.Fits s) (block read decorators lines)
  | [], _, _ => by
    mvcgen [block]
    grind
  | l :: rest, _, _ => by
    have first := @statement_fits l
    have others := @block_fits rest
    mvcgen [block,fair,first,others] <;> grind

theorem statement_fits : (l : Line) → ∀ {decorators}, (∀ e ∈ decorators, e.Fits) →
    Grants Stmt.Fits (statement read decorators l)
  | .mk head below tiers, _, _ => by
    have below line := body_fits line below
    have tiers := alternatives_fits tiers
    mvcgen [statement,value,target,fair,below,tiers] <;> grind

theorem alternatives_fits : (tiers : List Line) →
    Grants (fun r => (∀ b ∈ r.1, Branch.Fits b) ∧ ∀ s ∈ r.2, Stmt.Fits s) (alternatives read tiers)
  | [] => by
    mvcgen [alternatives]
    grind
  | .mk head below _ :: rest => by
    have below line := body_fits line below
    have rest := alternatives_fits rest
    mvcgen [alternatives,value,fair,below,rest] <;> grind

end

end

end Program

end EmbedScript
