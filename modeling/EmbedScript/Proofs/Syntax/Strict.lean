import EmbedScript.Syntax.Program
import EmbedScript.Proofs.Syntax.Commas

/-!
Strict reading of programs: no operand, call or operator application reaches over a comma.
-/

namespace EmbedScript

open List Token Run

namespace Program

theorem mem_of_assignments :
    (∀ part ∈ (assignments ts).1, t ∈ part.1 → t ∈ ts) ∧ (t ∈ (assignments ts).2 → t ∈ ts) := by
  induction ts with
  | nil => exact ⟨fun part mem => by contradiction,fun inside => inside⟩
  | cons u rest ih =>
    unfold assignments
    split
    · refine ⟨?_,fun inside => .tail _ (ih.2 inside)⟩
      intro part mem inside
      rcases mem_cons.mp mem with rfl | later
      · contradiction
      · exact .tail _ (ih.1 part later inside)
    · generalize assignments rest = cut at ih ⊢
      obtain ⟨runs,last⟩ := cut
      cases runs with
      | nil =>
        refine ⟨fun part mem => by contradiction,fun inside => ?_⟩
        rcases mem_cons.mp inside with rfl | later
        · exact .head _
        · exact .tail _ (ih.2 later)
      | cons first more =>
        refine ⟨?_,fun inside => .tail _ (ih.2 inside)⟩
        intro part mem inside
        rcases mem_cons.mp mem with rfl | later
        · rcases mem_cons.mp inside with rfl | deeper
          · exact .head _
          · exact .tail _ (ih.1 first (.head _) deeper)
        · exact .tail _ (ih.1 part (.tail _ later) inside)

section

variable {read : Reader} (agree : Agree read read') {ts : List Token}

include agree

theorem plainParameter_congr {name} (neat : Neat rest) (line : Nat) :
    plainParameter read name rest line = plainParameter read' name rest line := by
  unfold plainParameter
  cases cut : cutAt? .assign rest with
  | none => rfl
  | some parts => simp only [Option.mapM_some,agree _ line (neat.cut cut).2]

theorem parameter_congr (neat : Neat ts) (line : Nat) : parameter read ts line = parameter read' ts line := by
  match ts with
  | [] => rfl
  | [first] | first :: second :: third :: rest => exact plainParameter_congr agree neat.tail line
  | [first,second] => simp only [parameter,plainParameter_congr agree neat.tail]

theorem parametersFrom_congr (line : Nat) (before : List Param)
    (neat : ∀ segment ∈ segments, Neat segment) :
    parametersFrom read line before segments = parametersFrom read' line before segments := by
  induction segments generalizing before with
  | nil => rfl
  | cons segment segments ih =>
    obtain ⟨first,rest⟩ := forall_mem_cons.mp neat
    simp only [parametersFrom,parameter_congr agree first,ih _ rest]

variable (neat : ∀ t ∈ ts, t.tidy = true)

include neat

theorem value_congr (line : Nat) : value read ts line = value read' ts line := expressions_congr agree neat line

theorem value?_congr (line : Nat) : value? read ts line = value? read' ts line := by simp only [value?,value_congr agree neat]

theorem target_congr (line : Nat) : target read ts line = target read' ts line := Run.target_congr agree neat line

theorem simple_congr (line : Nat) : simple read ts line = simple read' ts line := by
  have parts : ∀ part ∈ (assignments ts).1, target read part.1 line = target read' part.1 line := by
    intro part mem
    refine target_congr agree (fun t inside => ?_) line
    exact neat t (mem_of_assignments.1 part mem inside)
  have last : value read (assignments ts).2 line = value read' (assignments ts).2 line :=
    value_congr agree (fun t inside => neat t (mem_of_assignments.2 inside)) line
  unfold simple
  generalize assignments ts = cut at parts last ⊢
  obtain ⟨runs,behind⟩ := cut
  cases runs with
  | nil => simp only [last]
  | cons first more =>
    have here := parts first (.head _)
    simp only [last]
    refine bind_congr fun assigned => ?_
    split
    · cases more with
      | nil => simp only [here]
      | cons => rfl
    · exact congrArg (· >>= _) (mapM_congr fun part mem => parts part mem)

theorem assertion_congr (line : Nat) : assertion read ts line = assertion read' ts line := by
  have each {segment} (mem : segment ∈ splitCommas ts) :
      read segment line = read' segment line := agree segment line (.segment neat mem)
  unfold assertion
  generalize splitCommas ts = segments at each ⊢
  match segments with
  | [] | _ :: _ :: _ :: _ => rfl
  | [test] =>
    have first : read test line = read' test line := each (by simp)
    simp only [first]
  | [test,message] =>
    have first : read test line = read' test line := each (by simp)
    have second : read message line = read' message line := each (by simp)
    simp only [first,second]

theorem deletion_congr (line : Nat) : deletion read ts line = deletion read' ts line := by
  have same : (splitCommas ts).mapM (fun ts => do (← read ts line).target? line) =
      (splitCommas ts).mapM (fun ts => do (← read' ts line).target? line) :=
    mapM_congr fun segment mem => by rw [agree segment line (.segment neat mem)]
  unfold deletion
  split
  · rfl
  · rw [same]

theorem parameters_congr (line : Nat) : parameters read ts line = parameters read' ts line :=
  parametersFrom_congr agree line [] fun _ mem => .segment neat mem

variable (decorators : List Expr)

theorem functionHead_congr (line : Nat) : functionHead read ts decorators line = functionHead read' ts decorators line := by
  unfold functionHead
  split
  · have group := (forall_mem_cons.mp (forall_mem_cons.mp neat).2).1
    simp only [parameters_congr agree (tidy_group group).2.2]
  · rfl

theorem classHead_congr (line : Nat) : classHead read ts decorators line = classHead read' ts decorators line := by
  unfold classHead
  split
  · rfl
  · have group := (forall_mem_cons.mp (forall_mem_cons.mp neat).2).1
    simp only [segments_congr agree (tidy_group group).2.2]
  · rfl

theorem leaf_congr (keyword : Option Keyword) (line : Nat) : leaf read keyword ts line = leaf read' keyword ts line := by
  unfold leaf
  split
  case h_1 => exact simple_congr agree neat line
  case h_2 => simp only [value?_congr agree neat]
  case h_3 => simp only [value?_congr agree neat]
  case h_9 => exact deletion_congr agree neat line
  case h_10 => exact assertion_congr agree neat line
  all_goals rfl

end

end Program

-- No comma stands in a place that is not cut at commas. A decorator is read as one expression.
def Head.tidy (h : Head) : Bool := allTidy h.tokens && (Program.decorator? h).all clean

mutual

def Line.tidy : Line → Bool
  | .mk head none tiers => head.tidy && Line.allTidy tiers
  | .mk head (some below) tiers => head.tidy && Line.allTidy below && Line.allTidy tiers

def Line.allTidy : List Line → Bool
  | [] => true
  | l :: rest => l.tidy && Line.allTidy rest

end

theorem Head.tokens_tidy {h : Head} (neat : h.tidy = true) : ∀ t ∈ h.tokens, t.tidy = true := by
  rw [tidy,Bool.and_eq_true] at neat
  exact allTidy_iff.mp neat.1

theorem Head.decorator_neat {h} (neat : h.tidy = true)
    (found : Program.decorator? h = some ts) : Neat ts := by
  have inside : ∀ t ∈ ts, t ∈ h.tokens := by
    unfold Program.decorator? at found
    split at found
    · rename_i shape
      rw [shape]
      split at found
      · cases found
        exact fun t mem => .tail _ mem
      · contradiction
    · contradiction
  refine .of_clean (Head.tokens_tidy neat) inside ?_
  rw [tidy,Bool.and_eq_true,found] at neat
  exact neat.2

theorem Line.tidy_parts {head tiers} (neat : (Line.mk head below tiers).tidy = true) :
    head.tidy = true ∧ (∀ lines, below = some lines → Line.allTidy lines = true) ∧ Line.allTidy tiers = true := by
  cases below with
  | none =>
    rw [Line.tidy,Bool.and_eq_true] at neat
    exact ⟨neat.1,fun lines given => by contradiction,neat.2⟩
  | some lines =>
    rw [Line.tidy,Bool.and_eq_true,Bool.and_eq_true] at neat
    exact ⟨neat.1.1,fun _ given => Option.some.inj given ▸ neat.1.2,neat.2⟩

namespace Program

variable {read : Reader}

mutual

theorem block_congr (agree : Agree read read') (decorators : List Expr) :
    (lines : List Line) → Line.allTidy lines = true → block read decorators lines = block read' decorators lines
  | [], _ => rfl
  | l :: rest, neat => by
    rw [Line.allTidy,Bool.and_eq_true] at neat
    have later (decorators : List Expr) := block_congr agree decorators rest neat.2
    have here := statement_congr agree decorators l neat.1
    have head : l.head.tidy = true := by
      cases l
      exact (Line.tidy_parts neat.1).1
    unfold block
    cases found : decorator? l.head with
    | none => simp only [here,later]
    | some ts => simp only [agree ts _ (Head.decorator_neat head found),later]

theorem statement_congr (agree : Agree read read') (decorators : List Expr) :
    (l : Line) → l.tidy = true → statement read decorators l = statement read' decorators l
  | .mk head below tiers, neat => by
    obtain ⟨own,under,beside⟩ := Line.tidy_parts neat
    have tokens := Head.tokens_tidy own
    have nested := body_congr agree head.line below under
    have others := alternatives_congr agree tiers beside
    unfold statement
    simp only
    split
    · rfl
    · split
      · simp only [value_congr agree tokens,nested,others]
      · simp only [value_congr agree tokens,nested]
      · cases cut : cutAt? .within head.tokens with
        | none => rfl
        | some parts =>
          obtain ⟨binding,iterable⟩ := parts
          obtain ⟨bound,source⟩ := forall_cut tokens cut
          simp only [target_congr agree bound,value_congr agree source,nested]
      · simp only [functionHead_congr agree tokens,nested]
      · simp only [classHead_congr agree tokens,nested]
      · simp only [leaf_congr agree tokens]

theorem alternatives_congr (agree : Agree read read') :
    (tiers : List Line) → Line.allTidy tiers = true → alternatives read tiers = alternatives read' tiers
  | [], _ => rfl
  | .mk head below tiers :: rest, neat => by
    rw [Line.allTidy,Bool.and_eq_true] at neat
    obtain ⟨own,under,_⟩ := Line.tidy_parts neat.1
    have tokens := Head.tokens_tidy own
    have nested := body_congr agree head.line below under
    have others := alternatives_congr agree rest neat.2
    unfold alternatives
    split
    · simp only [value_congr agree tokens,nested,others]
    · simp only [nested,others]
    · rfl

theorem body_congr (agree : Agree read read') (line : Nat) :
    (below : Option (List Line)) → (∀ lines, below = some lines → Line.allTidy lines = true) →
      body read line below = body read' line below
  | none, _ => rfl
  | some [], _ => rfl
  | some (first :: rest), under => block_congr agree [] (first :: rest) (under _ rfl)

end

end Program

-- Counting items

namespace Run

variable {read : Reader} {line : Nat}

theorem mapM_length {f : α → Parse β} {items : List α}
    (ran : items.mapM f = .ok out) : out.length = items.length := by
  induction items generalizing out with
  | nil =>
    cases ran
    rfl
  | cons item items ih =>
    rw [mapM_cons] at ran
    obtain ⟨value,_,ran⟩ := Except.bind_eq_ok ran
    obtain ⟨values,rest,ran⟩ := Except.bind_eq_ok ran
    cases ran
    rw [length_cons,length_cons,ih rest]

def Itemizes (ts : List Token) (items : Nat) : Prop := items = commas ts ∨ items = commas ts + 1

theorem itemizes_segments (ts : List Token) : Itemizes ts (splitCommas ts).length := by
  rw [splitCommas_length]
  cases endsOpen ts with
  | false => exact .inl rfl
  | true => exact .inr rfl

theorem itemizes_mapM {f : List Token → Parse β} {out}
    (ran : (splitCommas ts).mapM f = .ok out) : Itemizes ts out.length := by
  rw [mapM_length ran]
  exact itemizes_segments ts

theorem expressions_items (ran : expressions read ts line = .ok e) :
    commas ts = 0 ∧ read ts line = .ok e ∨ ∃ items, e = .tuple items ∧ Itemizes ts items.length := by
  unfold expressions at ran
  split at ran
  case h_1 => cases ran
  case h_2 single cut ends =>
    have flat := splitCommas_flatten ts
    have count := splitCommas_length ts
    rw [cut] at flat count
    obtain rfl : single = ts := by simpa using flat
    have last : endsOpen single = true := by
      cases final : single.getLast? with
      | none =>
        rw [getLast?_eq_none_iff.mp final] at cut
        contradiction
      | some t =>
        simp only [endsInComma,final,Option.any_some] at ends
        simp [endsOpen,final,ends]
    rw [last] at count
    simp only [length_singleton,Bool.toNat_true] at count
    exact .inl ⟨by omega,ran⟩
  case h_3 =>
    obtain ⟨items,read,ran⟩ := Except.bind_eq_ok ran
    cases ran
    exact .inr ⟨items,rfl,itemizes_mapM read⟩

theorem bracket_items (plain : hasOp .each ts = false) (ran : bracket read ts line = .ok e) :
    ∃ items, e = .list items ∧ Itemizes ts items.length := by
  rw [bracket,if_neg (by simp [plain])] at ran
  obtain ⟨items,read,ran⟩ := Except.bind_eq_ok ran
  cases ran
  exact ⟨items,rfl,itemizes_mapM read⟩

theorem brace_items (plain : hasOp .each ts = false) (ran : brace read ts line = .ok e) :
    (∃ items, e = .set items ∧ Itemizes ts items.length) ∨ ∃ entries, e = .dict entries ∧ Itemizes ts entries.length := by
  unfold brace at ran
  rw [cutAt?_none plain] at ran
  split at ran
  case isTrue empty =>
    cases ran
    rw [isEmpty_iff.mp empty]
    exact .inr ⟨[],rfl,.inl rfl⟩
  case isFalse =>
    simp only at ran
    split at ran
    · obtain ⟨entries,read,ran⟩ := Except.bind_eq_ok ran
      cases ran
      exact .inr ⟨entries,rfl,itemizes_mapM read⟩
    · obtain ⟨items,read,ran⟩ := Except.bind_eq_ok ran
      cases ran
      exact .inl ⟨items,rfl,itemizes_mapM read⟩

theorem argumentsFrom_length {out}
    (ran : argumentsFrom read line keyword segments = .ok out) : out.length = segments.length := by
  induction segments generalizing keyword out with
  | nil =>
    cases ran
    rfl
  | cons segment segments ih =>
    obtain ⟨argument,_,ran⟩ := Except.bind_eq_ok ran
    split at ran
    case h_1 | h_2 => cases ran
    all_goals
      obtain ⟨others,rest,ran⟩ := Except.bind_eq_ok ran
      cases ran
      rw [length_cons,length_cons,ih rest]

theorem arguments_items (plain : hasOp .each ts = false)
    (ran : arguments read ts line = .ok out) : Itemizes ts out.length := by
  rw [arguments,if_neg (by simp [plain])] at ran
  rw [argumentsFrom_length ran]
  exact itemizes_segments ts

end Run

def parseStrictly (lines : List Line) : Parse (List Stmt) := Program.block strict [] lines

structure Run.Counts (read : Reader) : Prop where
  tuple {ts : List Token} {line : Nat} {e : Expr} : expressions read ts line = .ok e →
    commas ts = 0 ∧ read ts line = .ok e ∨
      ∃ items, e = .tuple items ∧ Itemizes ts items.length
  list {ts : List Token} {line : Nat} {e : Expr} : hasOp .each ts = false →
    bracket read ts line = .ok e → ∃ items, e = .list items ∧ Itemizes ts items.length
  setOrDict {ts : List Token} {line : Nat} {e : Expr} : hasOp .each ts = false →
    brace read ts line = .ok e → (∃ items, e = .set items ∧ Itemizes ts items.length) ∨
      ∃ entries, e = .dict entries ∧ Itemizes ts entries.length
  call {ts : List Token} {line : Nat} {out : List Argument} : hasOp .each ts = false →
    arguments read ts line = .ok out → Itemizes ts out.length

-- A program with no comma in a place that is not cut at commas is read strictly: what stands on the
-- two sides of a comma never meets in one operand, call or operator application.
theorem parse_cuts_at_commas {lines : List Line} (neat : Line.allTidy lines = true) :
    parseLines lines = parseStrictly lines ∧
      (∀ source program, tokenize source = .ok lines →
        (parse source = .ok program ↔ parseStrictly lines = .ok program)) ∧
      ∀ read, Run.Counts read := by
  have strict : parseLines lines = parseStrictly lines :=
    Program.block_congr Run.expression_strict [] lines neat
  refine ⟨strict, ?_, ?_⟩
  · intro source program lexed
    simp only [parse, lexed, strict]
    cases parseStrictly lines <;> simp
  · intro read
    exact ⟨Run.expressions_items, Run.bracket_items, Run.brace_items, Run.arguments_items⟩

-- `f(a, [x for x, y in b], c[i:j])`
def neatLines : List Line :=
  let listed : Token := .group .bracket [.name "x" ⟨1,false⟩,.op .each false ⟨1,false⟩,
    .name "x" ⟨1,true⟩,.name "y" ⟨1,false⟩,.op .within false ⟨1,false⟩,.name "b" ⟨1,false⟩]
    ⟨1,true⟩
  let slice : Token := .group .bracket [.name "i" ⟨1,false⟩,.op .colon false ⟨1,false⟩,.name "j" ⟨1,false⟩] ⟨1,false⟩
  [.mk ⟨1,none,[.name "f" ⟨1,false⟩,.group .paren [.name "a" ⟨1,true⟩,listed,.name "c" ⟨1,false⟩,slice] ⟨1,false⟩]⟩ none []]

def neatProgram : List Stmt :=
  let listed : Expr := .comprehension .list (.name "x") (.tuple [.name "x",.name "y"]) (.name "b") none
  [.mk 1 (.expr (.call (.name "f") [.positional (.name "a"),.positional listed,
    .positional (.slice (.name "c") (some (.name "i")) (some (.name "j")) none)]))]

theorem parse_cuts_at_commas_nested : Line.allTidy neatLines = true ∧
    tokenize "f(a, [x for x, y in b], c[i:j])" = .ok neatLines ∧
    parseStrictly neatLines = .ok neatProgram := by
  have neat : Line.allTidy neatLines = true := rfl
  refine ⟨neat, by with_unfolding_all rfl, ?_⟩
  rw [← (parse_cuts_at_commas neat).1]
  with_unfolding_all rfl

-- `[f, (x) for x in xs]`
def brokenLines : List Line := [.mk ⟨1,none,[.group .bracket [.name "f" ⟨1,true⟩,.group .paren [.name "x" ⟨1,false⟩] ⟨1,false⟩,
    .op .each false ⟨1,false⟩,.name "x" ⟨1,false⟩,.op .within false ⟨1,false⟩,
    .name "xs" ⟨1,false⟩] ⟨1,false⟩]⟩ none []]

theorem comma_joins_call : tokenize "[f, (x) for x in xs]" = .ok brokenLines ∧
    parse "[f, (x) for x in xs]" = .ok [.mk 1 (.expr (.comprehension .list
      (.call (.name "f") [.positional (.name "x")]) (.name "x") (.name "xs") none))] ∧
    parseStrictly brokenLines = ParseCause.invalid.at 1 := by
  have lexed : tokenize "[f, (x) for x in xs]" = .ok brokenLines := by with_unfolding_all rfl
  have joined : parseLines brokenLines = .ok [.mk 1 (.expr (.comprehension .list
      (.call (.name "f") [.positional (.name "x")]) (.name "x") (.name "xs") none))] := by
    with_unfolding_all rfl
  refine ⟨lexed, ?_, by with_unfolding_all rfl⟩
  rw [parse, lexed]
  simp only [joined]

end EmbedScript
