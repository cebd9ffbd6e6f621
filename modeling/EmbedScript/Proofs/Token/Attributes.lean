import EmbedScript.Proofs.Token.Sentences

/-!
Member names. A dot waits behind blanks, commas and closing brackets; any other lexeme but a word
drops it.
-/

namespace EmbedScript

open List Token Text

inductive Mark where
  | opens (shape : Shape)
  | closes
  | member (name : String)
  deriving DecidableEq

theorem Except.forall₂_of_mapM {α : Type} {f : α → Except LexError β} {xs}
    (all : xs.mapM f = .ok ys) : Forall₂ (fun x y => f x = .ok y) xs ys := by
  induction xs generalizing ys with
  | nil =>
    cases all
    exact .nil
  | cons x xs ih =>
    rw [mapM_cons] at all
    obtain ⟨y,first,all⟩ := Except.bind_eq_ok all
    obtain ⟨zs,rest,⟨⟩⟩ := Except.bind_eq_ok all
    exact .cons first (ih rest)

namespace Token

mutual

def marks : Token → List Mark
  | .member text _ => [.member text]
  | .group shape inner _ => .opens shape :: (marksAll inner ++ [.closes])
  | _ => []

def marksAll : List Token → List Mark
  | [] => []
  | t :: ts => t.marks ++ marksAll ts

end

theorem marksAll_eq (ts : List Token) : marksAll ts = ts.flatMap marks := by
  induction ts with
  | nil => rfl
  | cons t ts ih => rw [marksAll,ih,flatMap_cons]

theorem marksAll_append (as bs : List Token) : marksAll (as ++ bs) = marksAll as ++ marksAll bs := by
  simp only [marksAll_eq,flatMap_append]

theorem marks_withSpot (t : Token) (spot : Spot) : (t.withSpot spot).marks = t.marks := by cases t <;> rfl

theorem marks_of_isAtom {t : Token} (atom : t.isAtom) : t.marks = [] := by cases t <;> first | rfl | cases atom

end Token

-- The marks of a sentence

section Lexemes

variable (inner : List Char → Nat → List Mark)

def Piece.marks : Piece → List Mark
  | .text _ => []
  | .splice source line => .opens .splice :: (inner source line ++ [.closes])

def Lexeme.marks (member : Bool) : Lexeme → List Mark
  | .word text => if member then [.member (String.ofList text)] else []
  | .opening shape => [.opens shape]
  | .closing _ => [.closes]
  | .str [.text _] _ => []
  | .str pieces _ => .opens .paren :: (pieces.flatMap (Piece.marks inner) ++ [.closes])
  | _ => []

def Lexeme.pending (member : Bool) : Lexeme → Bool
  | .dot => true
  | .comma | .closing _ => member
  | _ => false

def Lexer.marks (member : Bool) : List Spelling → List Mark
  | [] => []
  | p :: ps => p.lexeme.marks inner member ++ marks (p.lexeme.pending member) ps

def Lexer.dottedMarks : List Spelling → List Mark
  | [] => []
  | ⟨_,_,.dot⟩ :: ⟨_,_,.word text⟩ :: ps => .member (String.ofList text) :: dottedMarks ps
  | p :: ps => p.lexeme.marks inner false ++ dottedMarks ps

end Lexemes

variable {h : Head} {sentence : List Spelling} (inner : List Char → Nat → List Mark)

theorem Lexer.marks_append (member : Bool) (ps qs : List Spelling) : marks inner member (ps ++ qs) = marks inner member ps ++
      marks inner (ps.foldl (fun member p => p.lexeme.pending member) member) qs := by
  induction ps generalizing member with
  | nil => rfl
  | cons p ps ih => rw [cons_append,marks,ih,marks,append_assoc,foldl_cons]

namespace Lexeme

def isDot : Lexeme → Bool
  | .dot => true
  | _ => false

def isWord : Lexeme → Bool
  | .word _ => true
  | _ => false

end Lexeme

def Lexer.dotted : List Spelling → Bool
  | [] => true
  | p :: ps => (!p.lexeme.isDot || ps.head?.any (·.lexeme.isWord)) && dotted ps

theorem Lexer.marks_dotted (named : dotted ps) : marks inner false ps = dottedMarks inner ps := by
  fun_induction dottedMarks inner ps with
  | case1 => rfl
  | case2 _ _ _ _ text ps ih =>
    simp only [dotted,Bool.and_eq_true] at named
    simp [marks,Lexeme.marks,Lexeme.pending,ih named.2.2]
  | case3 p ps other ih =>
    simp only [dotted,Bool.and_eq_true] at named
    have idle : p.lexeme.pending false = false := by
      obtain ⟨before,text,lexeme⟩ := p
      cases lexeme with
      | dot =>
        rcases ps with _ | ⟨⟨_,_,lexeme⟩,ps⟩
        · cases named.1
        · cases lexeme with
          | word text => exact absurd rfl (other _ _ _ _ text ps rfl)
          | _ => cases named.1
      | _ => rfl
    rw [marks,idle,ih named.2]

namespace Scanner

def marks (s : Scanner) : List Mark := marksAll s.tokens.reverse ++
    s.groups.reverse.flatMap fun g => .opens g.shape :: marksAll g.tokens.reverse

variable {s : Scanner} {lexeme : Lexeme} {lines : Lexer.Reader} {inner : List Char → Nat → List Mark}

theorem marks_withCurrent (s : Scanner) : ∃ before, s.marks = before ++ marksAll s.current.reverse ∧
    ∀ ts, (s.withCurrent ts).marks = before ++ marksAll ts.reverse := by
  unfold withCurrent current
  cases groups : s.groups with
  | nil => exact ⟨[],by simp [marks,groups],fun ts => by simp [marks]⟩
  | cons g outer =>
    refine ⟨marksAll s.tokens.reverse ++
      (outer.reverse.flatMap (fun g => .opens g.shape :: marksAll g.tokens.reverse) ++ [.opens g.shape]),?_,?_⟩
    · simp [marks,groups]
    · simp [marks]

theorem marks_add (s : Scanner) (token : Token) : (s.withCurrent (token :: s.current)).marks = s.marks ++ token.marks := by
  obtain ⟨before,whole,replaced⟩ := marks_withCurrent s
  rw [replaced,whole,reverse_cons,marksAll_append]
  simp [marksAll]

theorem marks_replace {old} (current : s.current = old :: before)
    (same : new.marks = old.marks) : (s.withCurrent (new :: before)).marks = s.marks := by
  obtain ⟨front,whole,replaced⟩ := marks_withCurrent s
  rw [replaced,whole,current]
  simp [marksAll_append,marksAll,same]

theorem marks_push (s : Scanner) (token : Spot → Token) : (s.push token).marks = s.marks ++ (token ⟨s.line,false⟩).marks := by
  rw [push_eq]
  exact marks_add { s with
    member := false, statementLine := if s.fresh then s.line else s.statementLine } _

def Renders (lines : Lexer.Reader) (inner : List Char → Nat → List Mark) : Prop :=
  ∀ source line tokens, fragment lines source line = .ok tokens → marksAll tokens = inner source line

variable {spot : Spot}

theorem pieceToken_marks (renders : Renders lines inner) {piece}
    (read : pieceToken lines spot piece = .ok token) : token.marks = piece.marks inner := by
  cases piece with
  | text cs =>
    cases read
    rfl
  | splice source line =>
    obtain ⟨tokens,found,⟨⟩⟩ := Except.bind_eq_ok read
    rw [Token.marks,renders _ _ _ found,Piece.marks]

theorem pieceTokens_marks (renders : Renders lines inner)
    (read : Forall₂ (fun piece token => pieceToken lines spot piece = .ok token) pieces parts)
    : marksAll parts = pieces.flatMap (Piece.marks inner) := by
  induction read with
  | nil => rfl
  | cons first _ ih => rw [marksAll,ih,pieceToken_marks renders first,flatMap_cons]

theorem marksAll_intersperse {between} (none : between.marks = []) (ts : List Token) :
    marksAll (ts.intersperse between) = marksAll ts := by
  induction ts with
  | nil => rfl
  | cons t ts ih =>
    cases ts with
    | nil => rfl
    | cons u ts =>
      rw [intersperse_cons_cons,marksAll,marksAll,none,ih]
      rfl

theorem literalToken_marks (renders : Renders lines inner) (read : pieces.mapM (pieceToken lines spot) = .ok parts) (line : Nat)
    (at' : Spot) (member : Bool) (stop : Except LexError Nat) :
    (literalToken line parts at').marks = (Lexeme.str pieces stop).marks inner member := by
  have each := Except.forall₂_of_mapM read
  have marks := pieceTokens_marks renders each
  have sum : (group .paren (parts.intersperse (.op .add false ⟨line,false⟩)) at').marks =
      .opens .paren :: (pieces.flatMap (Piece.marks inner) ++ [.closes]) := by
    rw [Token.marks,marksAll_intersperse rfl,marks]
  match pieces, parts, each.length_eq with
  | [], [], _ => exact sum
  | [.text cs], [t], _ =>
    cases read
    rfl
  | [.splice source first], [t], _ =>
    cases t with
    | str => cases marks
    | _ => exact sum
  | a :: b :: pieces, t :: u :: parts, _ => cases t <;> cases a <;> exact sum

theorem Adds.marks (renders : Renders lines inner) {token} (adds : s.Adds lines lexeme token)
    (spot : Spot) : (token spot).marks = lexeme.marks inner s.member := by
  cases adds with
  | member waits =>
    rw [Lexeme.marks,if_pos waits]
    rfl
  | literal read => exact literalToken_marks renders read ..
  | number | lambda => rfl
  | atom plain atom =>
    rw [marks_of_isAtom (atom spot)]
    cases lexeme with
    | word text =>
      have idle : s.member = false := by simpa [Lexeme.isAtom] using plain
      rw [idle]
      rfl
    | _ => first | rfl | cases plain

theorem Takes.marks (renders : Renders lines inner) (takes : s.Takes lines lexeme t) :
    t.marks = s.marks ++ lexeme.marks inner s.member := by
  have word {text} (idle : s.member = false) : (Lexeme.word text).marks inner s.member = [] := by
    rw [idle]
    rfl
  cases takes with
  | blank blank =>
    have none : lexeme.marks inner s.member = [] := by cases lexeme <;> first | rfl | cases blank
    rw [none,append_nil]
    rfl
  | push adds => rw [marks_push,adds.marks renders]; rfl
  | @fuse _ first both spot _ idle current =>
    have same : (Token.op both false spot).marks = (Token.op first false spot).marks := rfl
    rw [marks_replace current same,word idle,append_nil]
  | keyword idle =>
    rw [word idle,append_nil]
    rfl
  | opening => simp [Scanner.marks,Lexeme.marks,Token.marksAll]
  | closing groups =>
    rw [marks_add,Token.marks]
    simp [Scanner.marks,groups,Lexeme.marks]
  | comma current => rw [marks_replace current (Token.marks_withSpot ..)]; exact (append_nil _).symm
  | dot => exact (append_nil _).symm

theorem Takes.member (takes : s.Takes lines lexeme t) (visible : lexeme.isBlank = false) :
    t.member = lexeme.pending s.member := by
  have waits : lexeme.awaits s.member s.groups.length = lexeme.pending s.member := by cases lexeme <;> first | rfl | cases visible
  refine (takes.stands ?_).1.trans waits
  rintro rfl
  cases visible

theorem Gathers.marks (renders : Renders lines inner) {first}
    (gathers : s.Gathers lines first ps) : s.marks = Lexer.marks inner false ps.reverse ∧
      s.member = ps.reverse.foldl (fun member p => p.lexeme.pending member) false := by
  induction gathers with
  | idle new free =>
    simp only [fresh,Bool.and_eq_true,List.isEmpty_iff] at new
    rw [Scanner.marks,new.1.1,new.1.2]
    exact ⟨rfl,free⟩
  | blank line _ ih => exact ih
  | take _ _ _ visible takes ih =>
    rw [takes.marks renders,takes.member visible,reverse_cons,foldl_append,Lexer.marks_append,← ih.2,ih.1]
    exact ⟨by rw [Lexer.marks,Lexer.marks,append_nil],rfl⟩

end Scanner

variable {lines : Lexer.Reader}

theorem Head.Gathered.marks {inner} (renders : Scanner.Renders lines inner)
    (gathered : h.Gathered lines first sentence) :
    marksAll h.tokens = Lexer.marks inner false sentence := by
  obtain ⟨s,gathers,outside,head⟩ := gathered
  have whole := (gathers.marks renders).1
  rw [Scanner.marks,outside,reverse_nil,flatMap_nil,append_nil,reverse_reverse] at whole
  rw [Scanner.takeHead_head] at head
  split at head <;> cases head
  exact whole

-- Where a dot may stand

namespace Text

variable {cs : List Char}

theorem mem_dropWhile {p} (inside : c ∈ cs) (kept : p c = false) : c ∈ cs.dropWhile p := by
  rw [← takeWhile_append_dropWhile (l := cs),mem_append] at inside
  refine inside.resolve_left fun taken => ?_
  rw [mem_takeWhile_imp taken] at kept
  contradiction

theorem mem_trim {drop} (inside : c ∈ cs) (kept : drop c = false) : c ∈ trim drop cs := by
  rw [trim,trimEnd,mem_reverse]
  exact mem_dropWhile (mem_reverse.mpr (mem_dropWhile inside kept)) kept

theorem mem_splitFrom {mark} (other : c ≠ mark) (piece : List Char)
    (inside : c ∈ piece ∨ c ∈ cs) : ∃ part ∈ splitFrom [mark] none 0 piece cs, c ∈ part := by
  induction cs generalizing piece with
  | nil => exact ⟨piece.reverse,mem_singleton_self _,mem_reverse.mpr (inside.resolve_right not_mem_nil)⟩
  | cons d cs ih =>
    rw [splitFrom]
    split
    · next marked =>
      have same : mark = d := by simpa using marked
      rcases inside with inside | inside
      · exact ⟨piece.reverse,mem_cons_self,mem_reverse.mpr inside⟩
      · have inside := (mem_cons.mp inside).resolve_left (same ▸ other)
        obtain ⟨part,found,holds⟩ := ih [] (.inr inside)
        exact ⟨part,.tail _ found,holds⟩
    · refine ih _ ?_
      rcases inside with inside | inside
      · exact .inl (.tail _ inside)
      · exact (mem_cons.mp inside).imp (fun same : c = d => same ▸ mem_cons_self) id

end Text

theorem Scanner.parameters_dotless {line names}
    (named : parameters line params = .ok names) : '.' ∉ params := by
  intro dot
  have shown : isBlank '.' = false := by decide +kernel
  unfold parameters at named
  split at named
  · next blank => exact ne_nil_of_mem (mem_trim dot shown) (isEmpty_iff.mp blank)
  · obtain ⟨part,found,inside⟩ := mem_splitFrom (show '.' ≠ ',' by decide) [] (.inr dot)
    obtain ⟨i,rfl⟩ := mem_iff_get.mp found
    obtain ⟨size,each⟩ := forall₂_iff_get.mp (Except.forall₂_of_mapM named)
    have legal := each i i.2 (size ▸ i.2)
    simp only at legal
    split at legal
    · next name =>
      have letters := all_eq_true.mp ((Bool.and_eq_true _ _).mp name).2 '.' (mem_trim inside shown)
      exact absurd letters (by decide +kernel)
    · cases legal

def Lexeme.isNumber : Lexeme → Bool
  | .number .. => true
  | _ => false

namespace Lexer

def outline : (nesting : Nat) → List Char → Nat → List Mark
  | 0, _, _ => []
  | nesting + 1, source, first => (sentences first (lineEnds (trim isBlank source))).flatMap (marks (outline nesting) false)

-- By induction on the nesting of formatted strings.
theorem renders_outline (nesting : Nat) : Scanner.Renders (tokenizeWithin nesting) (outline nesting) := by
  induction nesting with
  | zero => exact nofun
  | succ nesting ih =>
    intro source line tokens read
    obtain ⟨ls,accepted,read⟩ := Except.bind_eq_ok read
    split at read <;> cases read
    next start tiers =>
    obtain ⟨es,_,_,_,forest,-,nested,-⟩ := tokenizeWithin_complete accepted
    have tiered := (Line.forest_nested nested).2 (.mk ⟨start,none,tokens⟩ none tiers)
      (by simp [← forest,Line.preorderAll,Line.preorder])
    have alone : tiers = [] := by
      by_contra some
      cases tiered.chooses some
    have each := (tokenizeWithin_sentences accepted).imp fun _ _ => Head.Gathered.marks ih
    rw [alone] at each
    obtain ⟨sentence,_,marks,none,only⟩ := forall₂_cons_left_iff.mp each
    rw [forall₂_nil_left_iff.mp none] at only
    rw [outline,only,flatMap_singleton]
    exact marks

end Lexer

theorem Scanner.Gathers.dotless {s : Scanner} (gathers : s.Gathers lines first ps) : ∀ p ∈ ps, p.lexeme.isBlank = false ∧
      ∀ params closed, p.lexeme = .lambda params closed → '.' ∉ params := by
  induction gathers with
  | idle => exact nofun
  | blank line _ ih => exact ih
  | @take ps s t p _ _ _ visible takes ih =>
    refine forall_mem_cons.mpr ⟨⟨visible,?_⟩,ih⟩
    intro params closed same
    rw [same] at takes
    cases takes with
    | blank blank => cases blank
    | push adds =>
      cases adds with
      | lambda named => exact parameters_dotless named
      | atom plain => cases plain

theorem Head.Gathered.dots {p} (gathered : h.Gathered lines first sentence) (inside : p ∈ sentence) {text}
    (spells : p.Spells first text) (dot : '.' ∈ p.text) :
    p.lexeme.isDot ∨ p.lexeme.isNumber ∨ p.lexeme.isLiteral := by
  obtain ⟨s,gathers,-,-⟩ := gathered
  obtain ⟨visible,dotless⟩ := gathers.dotless p (mem_reverse.mpr inside)
  obtain ⟨member,c,rest,_,_,spelled,read⟩ := spells
  obtain ⟨_,_,_,dots⟩ := Lexeme.read_covers member (first + p.before.count '\n') c rest
  rw [read] at dots
  have holds : p.lexeme.MayHoldDot := dots p.text spelled dot
  generalize p.lexeme = lexeme at holds visible dotless
  cases lexeme with
  | dot => exact .inl rfl
  | number => exact .inr (.inl rfl)
  | str => exact .inr (.inr rfl)
  | lambda params closed => exact absurd holds (dotless params closed rfl)
  | _ => first | exact False.elim holds | cases visible

/-- The member names of an accepted source are the words that a dot waits for. In a statement whose
dots are all followed by words they are these words, each in place of its dot. -/
theorem attribute_names {source : String} {ls : List Line} (accepted : tokenize source = .ok ls) :
    let inner := Lexer.outline source.toList.length
    List.Forall₂ (fun l sentence =>
        Token.marksAll l.head.tokens = Lexer.marks inner false sentence ∧
        (Lexer.dotted sentence → Token.marksAll l.head.tokens = Lexer.dottedMarks inner sentence) ∧
        ∀ p ∈ sentence, '.' ∈ p.text → p.lexeme.isDot ∨ p.lexeme.isNumber ∨ p.lexeme.isLiteral)
      (Line.preorderAll ls) (Lexer.sentences 1 (Text.replace ['\r', '\n'] ['\n'] source.toList none)) := by
  intro inner
  obtain ⟨size, each⟩ := List.forall₂_iff_get.mp (Lexer.tokenizeWithin_sentences accepted)
  rw [Text.replace_returns]
  refine List.forall₂_iff_get.mpr ⟨size, fun i h h' => ?_⟩
  have gathered := each i h h'
  have marks := gathered.marks (Lexer.renders_outline source.toList.length)
  refine ⟨marks, fun dotted => marks.trans (Lexer.marks_dotted inner dotted), fun p inside dot => ?_⟩
  exact gathered.dots inside (Lexer.sentences_spells (List.get_mem _ _) inside) dot

def chained : String := "(a .b).c(d. e)"

theorem attribute_names_chained : ∃ ls, tokenize chained = .ok ls ∧
    (Line.preorderAll ls).map (Token.marksAll ·.head.tokens) =
      [[.opens .paren, .member "b", .closes, .member "c", .opens .paren, .member "e", .closes]] ∧
    List.Forall₂ (fun l sentence =>
        Token.marksAll l.head.tokens = Lexer.marks (Lexer.outline chained.toList.length) false sentence ∧
        (Lexer.dotted sentence →
          Token.marksAll l.head.tokens = Lexer.dottedMarks (Lexer.outline chained.toList.length) sentence) ∧
        ∀ p ∈ sentence, '.' ∈ p.text → p.lexeme.isDot ∨ p.lexeme.isNumber ∨ p.lexeme.isLiteral)
      (Line.preorderAll ls) (Lexer.sentences 1 (Text.replace ['\r', '\n'] ['\n'] chained.toList none)) := by
  have read : (tokenize chained).toOption.map (fun ls => (Line.preorderAll ls).map (Token.marksAll ·.head.tokens)) =
      some [[.opens .paren, .member "b", .closes, .member "c", .opens .paren, .member "e", .closes]] := by
    decide +kernel
  cases accepted : tokenize chained with
  | error e => simp [accepted, Except.toOption] at read
  | ok ls =>
    rw [accepted] at read
    exact ⟨ls, rfl, Option.some.inj read, attribute_names accepted⟩

theorem dot_dropped : ¬ ∀ (source : String) (ls : List Line), tokenize source = .ok ls →
    ∀ sentence ∈ Lexer.sentences 1 (Text.replace ['\r', '\n'] ['\n'] source.toList none), Lexer.dotted sentence := by
  intro followed
  have legal : (tokenize "a.(b)").toOption.isSome := by
    decide +kernel
  have dropped : (Lexer.sentences 1 (Text.replace ['\r', '\n'] ['\n'] "a.(b)".toList none)).all Lexer.dotted = false := by
    decide +kernel
  cases accepted : tokenize "a.(b)" with
  | error e => simp [accepted, Except.toOption] at legal
  | ok ls =>
    rw [List.all_eq_true.mpr (followed _ ls accepted)] at dropped
    contradiction

end EmbedScript
