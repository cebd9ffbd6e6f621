import EmbedScript.Proofs.Token.Statements
import EmbedScript.Proofs.Token.Unnumbered

/-!
One step of the scanner. `Scanner.Takes` says what a lexeme does that does not end the statement.
-/

namespace EmbedScript

open Lexeme

namespace Lexeme

-- A dot waits behind the lexeme, if `member` tells whether one waits in front of it.
def awaits (member : Bool) (depth : Nat) : Lexeme → Bool
  | .dot => true
  | .gap | .joint | .comma | .closing _ => member
  | .newline => member && depth != 0
  | _ => false

def nesting (depth : Nat) : Lexeme → Nat
  | .opening _ => depth + 1
  | .closing _ => depth - 1
  | _ => depth

def breaks : Lexeme → Bool
  | .str _ (.error _) => true
  | _ => false

def lineAfter (line : Nat) : Lexeme → Nat
  | .newline | .joint => line + 1
  | .str _ (.ok stop) => stop
  | _ => line

def isBlank : Lexeme → Bool
  | .gap | .joint | .newline => true
  | _ => false

-- A lexeme that becomes one token without parts, no dot naming it.
def isAtom (member : Bool) : Lexeme → Bool
  | .word _ => !member
  | .op .. | .colon => true
  | _ => false

theorem visible_of_isAtom {lexeme : Lexeme} (atom : lexeme.isAtom member) : lexeme.isBlank = false := by
  cases lexeme <;> first | rfl | cases atom

end Lexeme

def Token.isAtom : Token → Bool
  | .member .. | .number .. | .group .. => false
  | _ => true

namespace Scanner

inductive Adds (lines : Lexer.Reader) (s : Scanner) : Lexeme → (Spot → Token) → Prop where
  | member {text : List Char} : s.member = true → Adds lines s (.word text) (.member (String.ofList text))
  | literal {pieces : List Piece} {stop : Nat} {parts : List Token} :
      pieces.mapM (pieceToken lines ⟨s.line,false⟩) = .ok parts →
      Adds lines s (.str pieces (.ok stop)) (literalToken s.line parts)
  | number {literal : List Char} {float : Bool} : isNumber (literal.filter (· != '_')) float →
      Adds lines s (.number literal float true) (.number (String.ofList (literal.filter (· != '_'))))
  | lambda {params : List Char} {names : List String} : parameters s.line params = .ok names →
      Adds lines s (.lambda params true) (.op (.lambda names) false)
  | atom {lexeme : Lexeme} {token : Spot → Token} :
      lexeme.isAtom s.member → (∀ spot, (token spot).isAtom) → Adds lines s lexeme token

-- What a lexeme does that does not end the statement.
inductive Takes (lines : Lexer.Reader) (s : Scanner) : Lexeme → Scanner → Prop where
  | blank {lexeme : Lexeme} : lexeme.isBlank → Takes lines s lexeme { s with line := lexeme.lineAfter s.line }
  | push {lexeme : Lexeme} {token : Spot → Token} : s.Adds lines lexeme token →
      Takes lines s lexeme (push { s with line := lexeme.lineAfter s.line } token)
  | fuse {text : List Char} {first both : Op} {spot : Spot} {before : List Token} : s.member = false →
      s.current = .op first false spot :: before →
      Takes lines s (.word text) (s.withCurrent (.op both false spot :: before))
  | keyword {text : List Char} {keyword : Keyword} : s.member = false → s.fresh →
      Takes lines s (.word text) { s with statementLine := s.line, keyword := some keyword }
  | opening {shape : Shape} : Takes lines s (.opening shape)
      { s with
        member := false, groups := ⟨shape,s.line,[]⟩ :: s.groups
        statementLine := if s.fresh then s.line else s.statementLine }
  | closing {c : Char} {g : OpenGroup} {outer : List OpenGroup} : s.groups = g :: outer →
      Takes lines s (.closing c) (withCurrent { s with groups := outer }
        (.group g.shape g.tokens.reverse ⟨g.line,false⟩ :: current { s with groups := outer }))
  | comma {token : Token} {before : List Token} : s.current = token :: before →
      Takes lines s .comma (s.withCurrent (token.withSpot ⟨token.line,true⟩ :: before))
  | dot : s.member = false → s.current ≠ [] → Takes lines s .dot { s with member := true }

variable {s : Scanner}

theorem noteStart_eq (s : Scanner) : s.noteStart = { s with statementLine := if s.fresh then s.line else s.statementLine } := by
  unfold noteStart
  split <;> rfl

theorem takes_fuse (idle : s.member = false) (first second both : Op) :
    s.Takes lines (.word text) (s.fuse first second both) := by
  have added : s.Takes lines (.word text) (s.pushOp second false) := .push (.atom (by rw [idle]; rfl) fun _ => rfl)
  unfold fuse
  split
  · next current =>
    split
    · exact .fuse idle current
    · exact added
  · exact added

theorem takes_word (taken : s.word (String.ofList text) = .ok t) : s.Takes lines (.word text) t := by
  unfold word at taken
  split at taken
  · next waits =>
    cases taken
    rw [pushName,if_pos waits]
    exact .push (.member waits)
  next idle =>
  have idle := eq_false_of_ne_true idle
  have atom {token} (plain : ∀ spot, (token spot).isAtom) : s.Takes lines (.word text) (s.push token) :=
    .push (.atom (by rw [idle]; rfl) plain)
  split at taken
  iterate 4
    cases taken
    exact atom fun _ => rfl
  iterate 2
    cases taken
    exact takes_fuse idle ..
  split at taken
  · cases taken
    rw [pushName,idle]
    exact atom fun _ => rfl
  split at taken
  · next fresh =>
    cases taken
    exact .keyword idle fresh
  split at taken <;> cases taken
  exact atom fun _ => rfl

theorem take_takes (within : s.ends lexeme = false) (taken : s.take lines lexeme = .ok t) :
    s.Takes lines lexeme t := by
  have inside (isEnd : lexeme.isEnd) : s.groups.isEmpty = false := by simpa [ends,isEnd] using within
  cases lexeme with
  | newline =>
    simp only [take,inside rfl] at taken
    cases taken
    exact .blank rfl
  | gap =>
    cases taken
    exact .blank rfl
  | joint =>
    cases taken
    exact .blank rfl
  | semicolon =>
    simp only [take,inside rfl] at taken
    cases taken
  | comma =>
    simp only [take,comma] at taken
    split at taken <;> cases taken
    exact .comma ‹_›
  | dot =>
    simp only [take,dot] at taken
    split at taken <;> cases taken
    next legal =>
    simp only [Bool.or_eq_true,not_or,Bool.not_eq_true,List.isEmpty_eq_false_iff] at legal
    exact .dot legal.1 legal.2
  | colon =>
    simp only [take,inside rfl] at taken
    cases taken
    exact .push (.atom rfl fun _ => rfl)
  | opening shape =>
    simp only [take,noteStart_eq] at taken
    cases taken
    exact .opening
  | closing c =>
    simp only [take,closeGroup] at taken
    split at taken
    · next groups =>
      split at taken <;> cases taken
      exact .closing groups
    · cases taken
  | str pieces stop =>
    rw [take,string_eq] at taken
    cases read : pieces.mapM (pieceToken lines ⟨s.line,false⟩) with
    | error e =>
      rw [read] at taken
      cases taken
    | ok parts =>
      rw [read] at taken
      cases stop <;> cases taken
      exact .push (.literal read)
  | number literal float clean =>
    simp only [take,number] at taken
    split at taken <;> cases taken
    next legal =>
    obtain ⟨number,rfl⟩ := (Bool.and_eq_true _ _).mp legal
    exact .push (.number number)
  | word text => exact takes_word taken
  | lambda params closed =>
    simp only [take,lambda] at taken
    split at taken
    · next closes =>
      subst closes
      cases named : parameters s.line params <;> rw [named] at taken <;> cases taken
      exact .push (.lambda named)
    · cases taken
  | op o augmented =>
    cases taken
    exact .push (.atom rfl fun _ => rfl)
  | stray c => cases taken

theorem line_withCurrent (s : Scanner) (ts : List Token) : (s.withCurrent ts).line = s.line := by
  unfold withCurrent
  split <;> rfl

theorem statementLine_withCurrent (s : Scanner) (ts : List Token) : (s.withCurrent ts).statementLine = s.statementLine := by
  unfold withCurrent
  split <;> rfl

theorem fresh_withCurrent (s : Scanner) (token : Token) (ts : List Token) : (s.withCurrent (token :: ts)).fresh = false := by
  unfold withCurrent
  split
  · rfl
  · next groups => simp [fresh]

theorem push_eq (s : Scanner) (token : Spot → Token) : s.push token = withCurrent
      { s with member := false, statementLine := if s.fresh then s.line else s.statementLine }
      (token ⟨s.line,false⟩ :: s.current) := by
  rw [push,noteStart_eq]
  rfl

theorem fresh_of_current (some : s.current = token :: before) : s.fresh = false := by
  unfold current at some
  split at some
  · next groups => simp [fresh,groups]
  · simp [fresh,some]

theorem Takes.line (takes : s.Takes lines lexeme t) : t.line = lexeme.lineAfter s.line := by
  cases takes with
  | blank => rfl
  | push => rw [push_eq,line_withCurrent]
  | fuse => exact line_withCurrent ..
  | keyword => rfl
  | opening => rfl
  | closing => exact line_withCurrent ..
  | comma => exact line_withCurrent ..
  | dot => rfl

theorem Adds.line (adds : s.Adds lines lexeme token) :
    lexeme.lineAfter s.line = if lexeme.isLiteral then lexeme.lineAfter s.line else s.line := by
  cases adds with
  | atom plain => cases lexeme <;> first | rfl | cases plain
  | _ => rfl

-- The first lexeme of a statement decides its line: a literal takes the line it ends on.
theorem Takes.start (takes : s.Takes lines lexeme t) (visible : lexeme.isBlank = false) :
    t.fresh = false ∧ t.statementLine = if s.fresh then if lexeme.isLiteral then t.line else s.line
      else s.statementLine := by
  have shown (other : lexeme.isLiteral = false) (begun : s.fresh = false) :
      s.statementLine = if s.fresh then if lexeme.isLiteral then t.line else s.line else s.statementLine := by
    rw [begun]
    rfl
  cases takes with
  | blank blank =>
    rw [blank] at visible
    contradiction
  | push adds =>
    rw [push_eq,line_withCurrent,statementLine_withCurrent]
    exact ⟨fresh_withCurrent ..,if_congr Iff.rfl adds.line rfl⟩
  | fuse _ current => exact ⟨fresh_withCurrent ..,(statementLine_withCurrent ..).trans (shown rfl (fresh_of_current current))⟩
  | keyword _ fresh => exact ⟨Bool.and_false _,by rw [fresh]; rfl⟩
  | opening => exact ⟨rfl,rfl⟩
  | closing groups =>
    have begun : s.fresh = false := by simp [fresh,groups]
    exact ⟨fresh_withCurrent ..,(statementLine_withCurrent ..).trans (shown rfl begun)⟩
  | comma current => exact ⟨fresh_withCurrent ..,(statementLine_withCurrent ..).trans (shown rfl (fresh_of_current current))⟩
  | dot _ some =>
    obtain ⟨_,_,current⟩ := List.exists_cons_of_ne_nil some
    have begun := fresh_of_current current
    exact ⟨begun,shown rfl begun⟩

theorem Takes.blank_eq (takes : s.Takes lines lexeme t) (blank : lexeme.isBlank) :
    t = { s with line := lexeme.lineAfter s.line } := by
  cases takes with
  | blank => rfl
  | push adds =>
    cases adds with
    | atom plain =>
      rw [visible_of_isAtom plain] at blank
      contradiction
    | _ => cases blank
  | _ => cases blank

def Stands (s : Scanner) (member : Bool) (depth : Nat) : Prop := s.member = member ∧ s.groups.length = depth

variable {member : Bool}

theorem stands_withCurrent (s : Scanner) (ts : List Token) : (s.withCurrent ts).Stands s.member s.groups.length := by
  unfold withCurrent
  split <;> rename_i groups <;> simp [Stands,groups]

theorem stands_push (s : Scanner) (token : Spot → Token) : (s.push token).Stands false s.groups.length := by
  rw [push_eq]
  exact stands_withCurrent ..

theorem Takes.stands (takes : s.Takes lines lexeme t) (inside : lexeme = .newline → s.groups ≠ []) :
    t.Stands (lexeme.awaits s.member s.groups.length) (lexeme.nesting s.groups.length) := by
  cases takes with
  | blank blank =>
    cases lexeme with
    | gap | joint => exact ⟨rfl,rfl⟩
    | newline => exact ⟨by simp [awaits,inside rfl],rfl⟩
    | _ => cases blank
  | push adds =>
    have plain : lexeme.awaits s.member s.groups.length = false ∧ lexeme.nesting s.groups.length = s.groups.length := by
      cases adds with
      | atom plain => cases lexeme <;> first | exact ⟨rfl,rfl⟩ | cases plain
      | _ => exact ⟨rfl,rfl⟩
    rw [plain.1,plain.2]
    exact stands_push ..
  | fuse idle =>
    have kept := stands_withCurrent s
    rw [idle] at kept
    exact kept _
  | keyword idle => exact ⟨idle,rfl⟩
  | opening => exact ⟨rfl,rfl⟩
  | @closing _ _ outer groups =>
    rw [groups]
    exact stands_withCurrent { s with groups := outer } _
  | comma => exact stands_withCurrent s _
  | dot => exact ⟨rfl,rfl⟩

theorem stands_takeHead (s : Scanner) : s.takeHead.2.Stands false s.groups.length := by
  unfold takeHead
  split <;> exact ⟨rfl,rfl⟩

theorem Stands.place (stands : s.Stands member depth) (head : Head)
    (opens : Bool) : (s.place head opens).2.Stands member depth := by
  unfold Scanner.place
  split <;> exact stands

theorem stands_endStatement (s : Scanner) : s.endStatement.Stands false s.groups.length := by
  have rest := stands_takeHead s
  unfold endStatement
  split <;> rename_i taken <;> rw [taken] at rest
  · exact rest
  · exact rest.place _ false

theorem stands_openBlock (opened : s.openBlock = .ok t) : t.Stands false s.groups.length := by
  have rest := stands_takeHead s
  unfold openBlock at opened
  split at opened <;> rename_i taken <;> rw [taken] at rest
  · cases opened
  split at opened
  iterate 2
    split at opened <;> cases opened
    exact rest
  · cases opened
    exact rest.place _ true

theorem take_stands (taken : s.take lines lexeme = .ok t) :
    t.Stands (lexeme.awaits s.member s.groups.length) (lexeme.nesting s.groups.length) := by
  cases ends : s.ends lexeme with
  | false =>
    refine (take_takes ends taken).stands ?_
    rintro rfl outside
    simp [Scanner.ends,outside,isEnd] at ends
  | true =>
    obtain ⟨outside,⟨rfl,rfl⟩ | ⟨rfl,rfl⟩ | ⟨rfl,opened⟩⟩ := take_ends ends taken
    · have ended := stands_endStatement { s with line := s.line + 1 }
      rw [outside] at ended ⊢
      exact ⟨ended.1.trans (Bool.and_false _).symm,ended.2⟩
    · exact stands_endStatement s
    · exact stands_openBlock opened

theorem Stands.enterLine (stands : s.Stands member depth)
    (entered : s.enterLine indent = .ok t) : t.Stands member depth := by
  unfold Scanner.enterLine at entered
  split at entered
  · split at entered <;> cases entered
    exact stands
  split at entered
  · split at entered
    · cases entered
      exact stands
    split at entered <;> cases entered
  · cases entered

end Scanner

end EmbedScript
