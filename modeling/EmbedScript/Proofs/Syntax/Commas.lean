import EmbedScript.Proofs.Syntax.Run

/-!
Commas. The strict reader reads expressions only from runs that no comma breaks; reading agrees with
it wherever no comma stands in a place that is not cut at commas.
-/

namespace EmbedScript

open List Token

variable {before after : List Token}

namespace Token

-- Cutting at commas

def commas (ts : List Token) : Nat := ts.countP comma

def clean (ts : List Token) : Bool := ts.all (!·.comma)

def unbroken (ts : List Token) : Bool := clean ts.dropLast

variable {ts : List Token}

theorem clean_iff : clean ts = true ↔ ∀ t ∈ ts, t.comma = false := by simp [clean]

theorem unbroken_of_clean (free : clean ts = true) : unbroken ts = true := by
  rw [unbroken,clean_iff]
  exact fun t member => clean_iff.mp free t (dropLast_subset ts member)

theorem unbroken_cons (free : t.comma = false) (rest : unbroken ts = true) : unbroken (t :: ts) = true := by
  cases ts with
  | nil => rfl
  | cons u ts =>
    rw [unbroken,clean_iff] at rest ⊢
    exact forall_mem_cons.mpr ⟨free,rest⟩

theorem unbroken_append (other : after ≠ [])
    (whole : unbroken (before ++ after) = true) : clean before = true ∧ unbroken after = true := by
  rw [unbroken,dropLast_append_of_ne_nil other,clean_iff] at whole
  rw [unbroken,clean_iff,clean_iff]
  exact ⟨fun t member => whole t (mem_append_left _ member),fun t member => whole t (mem_append_right _ member)⟩

theorem unbroken_tail (whole : unbroken (t :: ts) = true) : unbroken ts = true := by
  cases ts with
  | nil => rfl
  | cons u ts => exact (@unbroken_append [t] (u :: ts) (cons_ne_nil u ts) whole).2

-- The segments are the run again, and there is one for each comma, and one behind the last comma if
-- anything stands there.
theorem splitCommas_flatten (ts : List Token) : (splitCommas ts).flatten = ts := by
  induction ts with
  | nil => rfl
  | cons t rest ih =>
    unfold splitCommas
    split
    · simp [ih]
    · cases cut : splitCommas rest with
      | nil =>
        rw [cut] at ih
        simp [← ih]
      | cons first more =>
        rw [cut] at ih
        simp [← ih]

theorem unbroken_of_mem_splitCommas {segment} (member : segment ∈ splitCommas ts) : unbroken segment = true := by
  induction ts generalizing segment with
  | nil => contradiction
  | cons t rest ih =>
    unfold splitCommas at member
    split at member
    · rcases mem_cons.mp member with rfl | later
      · rfl
      · exact ih later
    · rename_i free
      rw [Bool.not_eq_true] at free
      cases cut : splitCommas rest with
      | nil =>
        rw [cut] at member
        rw [mem_singleton.mp member]
        rfl
      | cons first more =>
        rw [cut] at member ih
        rcases mem_cons.mp member with rfl | later
        · exact unbroken_cons free (ih (.head _))
        · exact ih (.tail _ later)

def endsOpen (ts : List Token) : Bool := ts.getLast?.any (!·.comma)

theorem splitCommas_ne_nil (written : ts ≠ []) : splitCommas ts ≠ [] := by
  intro none
  exact written (by rw [← splitCommas_flatten ts,none]; rfl)

theorem splitCommas_length (ts : List Token) : (splitCommas ts).length = commas ts + (endsOpen ts).toNat := by
  induction ts with
  | nil => rfl
  | cons t rest ih =>
    cases rest with
    | nil => cases marked : t.comma <;> simp [splitCommas,commas,endsOpen,marked]
    | cons u rest =>
      have last : endsOpen (t :: u :: rest) = endsOpen (u :: rest) := rfl
      obtain ⟨first,more,cut⟩ := exists_cons_of_ne_nil (splitCommas_ne_nil (cons_ne_nil u rest))
      rw [last]
      cases marked : t.comma with
      | true =>
        have count : commas (t :: u :: rest) = commas (u :: rest) + 1 := countP_cons_of_pos marked
        rw [splitCommas,if_pos marked,length_cons]
        omega
      | false =>
        have count : commas (t :: u :: rest) = commas (u :: rest) := countP_cons_of_neg (by simp [marked])
        rw [splitCommas,if_neg (by simp [marked]),count,← ih,cut]
        rfl

theorem cutAt?_eq_some (cut : cutAt? o ts = some (before,after)) : ∃ t, t.isOp o = true ∧ ts = before ++ t :: after := by
  unfold cutAt? at cut
  rw [span_eq_takeWhile_dropWhile] at cut
  cases rest : ts.dropWhile (!·.isOp o) with
  | nil =>
    rw [rest] at cut
    cases cut
  | cons t more =>
    rw [rest] at cut
    cases cut
    have here := head?_dropWhile_not (!·.isOp o) ts
    rw [rest] at here
    refine ⟨t,by simpa using here,?_⟩
    rw [← rest,takeWhile_append_dropWhile]

theorem forall_cut {P : Token → Prop} (all : ∀ t ∈ ts, P t)
    (cut : cutAt? o ts = some (before,after)) : (∀ t ∈ before, P t) ∧ ∀ t ∈ after, P t := by
  obtain ⟨t,_,rfl⟩ := cutAt?_eq_some cut
  obtain ⟨first,rest⟩ := forall_mem_append.mp all
  exact ⟨first,(forall_mem_cons.mp rest).2⟩

theorem mem_of_mem_splitAt (member : piece ∈ splitAt o ts) (inside : t ∈ piece) : t ∈ ts := by
  induction ts generalizing piece with
  | nil =>
    rw [mem_singleton.mp member] at inside
    contradiction
  | cons u rest ih =>
    unfold splitAt at member
    split at member
    · rcases mem_cons.mp member with rfl | later
      · contradiction
      · exact .tail _ (ih later inside)
    · cases cut : splitAt o rest with
      | nil =>
        rw [cut] at member
        rw [mem_singleton.mp member,mem_singleton] at inside
        rw [inside]
        exact .head _
      | cons first more =>
        rw [cut] at member ih
        rcases mem_cons.mp member with rfl | later
        · rcases mem_cons.mp inside with rfl | deeper
          · exact .head _
          · exact .tail _ (ih (.head _) deeper)
        · exact .tail _ (ih (.tail _ later) inside)

-- Places that are not cut at commas

def conditionOf (clause : List Token) : List Token :=
  match cutAt? .within clause with
  | some (_,tail) => ((cutAt? .when tail).map (·.2)).getD []
  | none => []

def tidyClauses (ts : List Token) : Bool :=
  match cutAt? .each ts with
  | some (element,clause) => clean element && clean (conditionOf clause)
  | none => true

def tidySlice (shape : Shape) (ts : List Token) : Bool := !(shape == .bracket && hasOp .colon ts) || clean ts

mutual

-- No comma, however deep, stands in a place that is not cut at commas.
def tidy : Token → Bool
  | .group shape inner _ => tidyClauses inner && tidySlice shape inner && allTidy inner
  | _ => true

def allTidy : List Token → Bool
  | [] => true
  | t :: rest => t.tidy && allTidy rest

end

theorem allTidy_iff : allTidy ts = true ↔ ∀ t ∈ ts, t.tidy = true := by
  induction ts with
  | nil => simp [allTidy]
  | cons t rest ih => simp [allTidy,ih]

theorem tidy_group {inner spot} (neat : (group shape inner spot).tidy = true) :
    tidyClauses inner = true ∧ tidySlice shape inner = true ∧ ∀ t ∈ inner, t.tidy = true := by
  simp only [tidy,Bool.and_eq_true] at neat
  exact ⟨neat.1.1,neat.1.2,allTidy_iff.mp neat.2⟩

structure Neat (ts : List Token) : Prop where
  whole : unbroken ts = true
  tidy : ∀ t ∈ ts, t.tidy = true

theorem Neat.segment {segment} (neat : ∀ t ∈ ts, t.tidy = true)
    (member : segment ∈ splitCommas ts) : Neat segment := by
  refine ⟨unbroken_of_mem_splitCommas member,?_⟩
  intro t inside
  refine neat t ?_
  rw [← splitCommas_flatten ts]
  exact mem_flatten_of_mem member inside

theorem Neat.of_clean (neat : ∀ t ∈ ts, t.tidy = true)
    (inside : ∀ t ∈ part, t ∈ ts) (free : clean part = true) : Neat part :=
  ⟨unbroken_of_clean free,fun t member => neat t (inside t member)⟩

theorem Neat.tail (neat : Neat (t :: ts)) : Neat ts := ⟨unbroken_tail neat.whole,fun u member => neat.tidy u (.tail _ member)⟩

theorem Neat.cut (neat : Neat ts) (cut : cutAt? o ts = some (before,after)) : Neat before ∧ Neat after := by
  obtain ⟨first,second⟩ := forall_cut neat.tidy cut
  obtain ⟨t,_,rfl⟩ := cutAt?_eq_some cut
  obtain ⟨free,rest⟩ := unbroken_append (cons_ne_nil t after) neat.whole
  exact ⟨⟨unbroken_of_clean free,first⟩,unbroken_tail rest,second⟩

end Token

-- The strict reader

namespace Run

-- One expression from a run that no comma breaks, and so for every run inside it.
def strictWithin : (depth : Nat) → Reader
  | 0 => fun _ line => ParseCause.invalid.at line
  | depth + 1 => fun ts line =>
    if unbroken ts then level (strictWithin depth) ts line else ParseCause.invalid.at line

def strict : Reader := fun ts line => strictWithin (depths ts + 1) ts line

def Agree (read read' : Reader) : Prop := ∀ ts line, Neat ts → read ts line = read' ts line

theorem mapM_congr {g : α → Parse β} {items : List α}
    (same : ∀ item ∈ items, f item = g item) : items.mapM f = items.mapM g := by
  induction items with
  | nil => rfl
  | cons item items ih =>
    obtain ⟨first,rest⟩ := forall_mem_cons.mp same
    rw [mapM_cons,mapM_cons,first,ih rest]

theorem mem_of_adjacent {text} (member : t ∈ (adjacent text rest).2) : t ∈ rest := by
  fun_induction adjacent text rest with
  | case1 text more spot rest ih => exact .tail _ (ih member)
  | case2 => exact member

theorem paired_rest {g : Expr → Expr}
    (found : (do return (g (← x),rest)) = Except.ok (object,trailers)) : trailers = rest := by
  cases x with
  | error e => cases found
  | ok value =>
    cases found
    rfl

theorem mem_of_primary {read}
    (found : primary read first rest = .ok (object,trailers)) (member : t ∈ trailers) :
    t ∈ rest := by
  cases first with
  | name =>
    cases found
    exact member
  | str =>
    cases found
    exact mem_of_adjacent member
  | number => exact paired_rest found ▸ member
  | group shape => cases shape <;> exact paired_rest found ▸ member
  | member | op => cases found

section

variable {read : Reader} (agree : Agree read read') {ts : List Token}

include agree

theorem dictEntry_congr (neat : Neat ts) (line : Nat) : dictEntry read line ts = dictEntry read' line ts := by
  have spread : read ts.tail = read' ts.tail := by
    funext line
    cases ts with
    | nil => exact agree [] line neat
    | cons t rest => exact agree rest line neat.tail
  simp only [dictEntry,spread]
  cases cut : cutAt? .colon ts with
  | none => rfl
  | some parts =>
    obtain ⟨key,value⟩ := neat.cut cut
    simp only [agree _ _ key,agree _ _ value]

theorem argument_congr (neat : Neat ts) (line : Nat) : argument read line ts = argument read' line ts := by
  unfold argument
  rw [agree ts line neat]
  split
  · rename_i name spot equals value
    rw [agree value line neat.tail.tail]
  · rfl

theorem argumentsFrom_congr (line : Nat) (keyword : Bool) (neat : ∀ segment ∈ segments, Neat segment) :
    argumentsFrom read line keyword segments = argumentsFrom read' line keyword segments := by
  induction segments generalizing keyword with
  | nil => rfl
  | cons segment segments ih =>
    obtain ⟨first,rest⟩ := forall_mem_cons.mp neat
    simp only [argumentsFrom,argument_congr agree first,ih _ rest]

section

variable (neat : ∀ t ∈ ts, t.tidy = true)

include neat

theorem segments_congr (line : Nat) : (splitCommas ts).mapM (read · line) = (splitCommas ts).mapM (read' · line) :=
  mapM_congr fun segment member => agree segment line (.segment neat member)

theorem expressions_congr (line : Nat) : expressions read ts line = expressions read' ts line := by
  have segments := segments_congr agree neat line
  unfold expressions
  split
  case h_1 => rfl
  case h_2 single cut _ => exact agree single line (.segment neat (by rw [cut]; exact mem_singleton_self single))
  case h_3 => rw [segments]

theorem target_congr (line : Nat) : target read ts line = target read' ts line := by
  simp only [target,expressions_congr agree neat]

section

variable (clauses : tidyClauses ts = true)

include clauses

theorem comprehension_congr (kind : Collection) (line : Nat) :
    comprehension read ts kind line = comprehension read' ts kind line := by
  unfold comprehension
  cases cut : cutAt? .each ts with
  | none => rfl
  | some parts =>
    obtain ⟨element,clause⟩ := parts
    obtain ⟨own,later⟩ := forall_cut neat cut
    simp only [tidyClauses,cut,Bool.and_eq_true] at clauses
    have first : Neat element := ⟨unbroken_of_clean clauses.1,own⟩
    simp only
    cases behind : cutAt? .within clause with
    | none => rfl
    | some parts =>
      obtain ⟨binding,tail⟩ := parts
      obtain ⟨bound,later⟩ := forall_cut later behind
      simp only [conditionOf,behind] at clauses
      have pair {parts} (colon : cutAt? .colon element = some parts) :
          read parts.1 line = read' parts.1 line ∧ read parts.2 line = read' parts.2 line :=
        ⟨agree _ line (first.cut colon).1,agree _ line (first.cut colon).2⟩
      cases test : cutAt? .when tail with
      | none =>
        simp only [test,target_congr agree bound,expressions_congr agree later,agree element line first,Option.mapM_none]
        cases colon : cutAt? .colon element with
        | none => rfl
        | some parts => simp only [pair colon]
      | some parts =>
        obtain ⟨iterable,condition⟩ := parts
        rw [test] at clauses
        obtain ⟨source,last⟩ := forall_cut later test
        have tested : read condition line = read' condition line := agree condition line ⟨unbroken_of_clean clauses.2,last⟩
        simp only [test,target_congr agree bound,expressions_congr agree source,agree element line first,Option.mapM_some,tested]
        cases colon : cutAt? .colon element with
        | none => rfl
        | some parts => simp only [pair colon]

theorem paren_congr (line : Nat) : paren read ts line = paren read' ts line := by
  simp only [paren,comprehension_congr agree neat clauses,expressions_congr agree neat]

theorem bracket_congr (line : Nat) : bracket read ts line = bracket read' ts line := by
  simp only [bracket,comprehension_congr agree neat clauses,segments_congr agree neat]

theorem brace_congr (line : Nat) : brace read ts line = brace read' ts line := by
  have entries : (splitCommas ts).mapM (dictEntry read line) = (splitCommas ts).mapM (dictEntry read' line) :=
    mapM_congr fun segment member => dictEntry_congr agree (.segment neat member) line
  simp only [brace,comprehension_congr agree neat clauses,segments_congr agree neat,entries]

theorem arguments_congr (line : Nat) : arguments read ts line = arguments read' ts line := by
  have listed := argumentsFrom_congr agree line false fun segment member => Neat.segment neat member
  simp only [arguments,comprehension_congr agree neat clauses,listed]

end

theorem subscript_congr (slice : tidySlice .bracket ts = true) (object : Expr) (line : Nat) :
    subscript read object ts line = subscript read' object ts line := by
  unfold subscript
  split
  case isFalse => simp only [expressions_congr agree neat]
  case isTrue colon =>
    have free : clean ts = true := by simpa [tidySlice,colon] using slice
    have part {piece} (member : piece ∈ splitAt .colon ts) : read piece line = read' piece line := by
      have inside : ∀ t ∈ piece, t ∈ ts := fun t => mem_of_mem_splitAt member
      refine agree piece line (.of_clean neat inside (clean_iff.mpr ?_))
      exact fun t own => clean_iff.mp free t (inside t own)
    generalize splitAt .colon ts = pieces at part ⊢
    match pieces with
    | [] | [_] | _ :: _ :: _ :: _ :: _ => rfl
    | [start,stop] =>
      have first : read start line = read' start line := part (by simp)
      have second : read stop line = read' stop line := part (by simp)
      simp only [first,second]
    | [start,stop,step] =>
      have first : read start line = read' start line := part (by simp)
      have second : read stop line = read' stop line := part (by simp)
      have third : read step line = read' step line := part (by simp)
      simp only [first,second,third]

end

theorem primary_congr (neat : first.tidy = true) (rest : List Token) :
    primary read first rest = primary read' first rest := by
  cases first with
  | group shape inner spot =>
    obtain ⟨clauses,_,inside⟩ := tidy_group neat
    cases shape <;> simp only [primary,paren_congr agree inside clauses,
      bracket_congr agree inside clauses,brace_congr agree inside clauses,
      expressions_congr agree inside]
  | _ => rfl

theorem trailer_congr (neat : t.tidy = true) (object : Expr) : trailer read object t = trailer read' object t := by
  cases t with
  | group shape inner spot =>
    obtain ⟨clauses,slice,inside⟩ := tidy_group neat
    cases shape with
    | paren => simp only [trailer,arguments_congr agree inside clauses]
    | bracket => simp only [trailer,subscript_congr agree inside slice]
    | _ => rfl
  | _ => rfl

theorem trailers_congr (neat : ∀ t ∈ ts, t.tidy = true) (object : Expr) :
    ts.foldlM (trailer read) object = ts.foldlM (trailer read') object := by
  induction ts generalizing object with
  | nil => rfl
  | cons t rest ih =>
    obtain ⟨first,later⟩ := forall_mem_cons.mp neat
    rw [foldlM_cons,trailer_congr agree first]
    exact bind_congr fun next => ih later next

theorem operand_congr {span} (neat : ∀ t ∈ span, t.tidy = true) (line : Nat) :
    operand read span line = operand read' span line := by
  cases span with
  | nil => rfl
  | cons first rest =>
    obtain ⟨head,tail⟩ := forall_mem_cons.mp neat
    simp only [operand,primary_congr agree head]
    cases found : primary read' first rest with
    | error e => rfl
    | ok parts =>
      obtain ⟨object,trailers⟩ := parts
      exact trailers_congr agree (fun t member => tail t (mem_of_primary found member)) object

theorem segment_congr (line : Nat) (items : List Item) {span}
    (before : ∀ t ∈ span, t.tidy = true) (neat : ∀ t ∈ ts, t.tidy = true) :
    segment read line items span ts = segment read' line items span ts := by
  have closed (items : List Item) {span} (tidy : ∀ t ∈ span, t.tidy = true) :
      closeSpan read line items span = closeSpan read' line items span := by
    have inside : ∀ t ∈ span.reverse, t.tidy = true := fun t member => tidy t (mem_reverse.mp member)
    simp only [closeSpan,operand_congr agree inside]
  induction ts generalizing items span with
  | nil => simp only [segment,closed items before]
  | cons t rest ih =>
    obtain ⟨first,later⟩ := forall_mem_cons.mp neat
    cases t with
    | op o augmented spot =>
      simp only [segment,closed items before]
      refine bind_congr fun items => ?_
      split
      · rfl
      · exact ih _ (fun t member => by contradiction) later
    | _ => exact ih items (forall_mem_cons.mpr ⟨first,before⟩) later

theorem level_congr (neat : ∀ t ∈ ts, t.tidy = true) (line : Nat) : level read ts line = level read' ts line := by
  have none : ∀ t ∈ ([] : List Token), t.tidy = true := fun t member => by contradiction
  simp only [level,segment_congr agree _ [] none neat]

end

theorem within_strict (depth : Nat) : Agree (within depth) (strictWithin depth) := by
  induction depth with
  | zero => exact fun _ _ _ => rfl
  | succ depth ih =>
    intro ts line neat
    exact (level_congr ih neat.tidy line).trans (if_pos neat.whole).symm

theorem expression_strict : Agree expression strict := fun ts line neat => within_strict (depths ts + 1) ts line neat

end Run

end EmbedScript
