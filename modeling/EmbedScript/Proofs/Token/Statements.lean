import EmbedScript.Proofs.Except
import EmbedScript.Token.Lexer

/-!
Statements without their nesting, as `Lexer.statements` collects them.
-/

namespace EmbedScript

def Lexeme.isEnd : Lexeme → Bool
  | .newline | .semicolon | .colon => true
  | _ => false

namespace Scanner

def among (s blocks : Scanner) : Scanner := { blocks with
    line := s.line, member := s.member, groups := s.groups, tokens := s.tokens
    keyword := s.keyword, statementLine := s.statementLine }

variable (s b : Scanner)

theorem among_self : s.among s = s := rfl

@[simp] theorem among_line : (s.among b).line = s.line := rfl

@[simp] theorem among_member : (s.among b).member = s.member := rfl

@[simp] theorem among_groups : (s.among b).groups = s.groups := rfl

@[simp] theorem among_current : (s.among b).current = s.current := rfl

@[simp] theorem among_fresh : (s.among b).fresh = s.fresh := rfl

theorem withCurrent_among (ts : List Token) : (s.among b).withCurrent ts = (s.withCurrent ts).among b := by
  simp only [withCurrent,among]
  cases s.groups <;> rfl

theorem noteStart_among : (s.among b).noteStart = s.noteStart.among b := by
  unfold noteStart
  rw [among_fresh]
  split <;> rfl

theorem push_among (token : Spot → Token) : (s.among b).push token = (s.push token).among b := by
  have start := noteStart_among { s with member := false } b
  have added := withCurrent_among ({ s with member := false }.noteStart) b
  simp only [push]
  rw [show { s.among b with member := false } = among { s with member := false } b from rfl,start]
  exact added _

theorem fuse_among (first second both : Op) : (s.among b).fuse first second both = (s.fuse first second both).among b := by
  unfold fuse
  rw [among_current]
  split
  · split
    · exact withCurrent_among ..
    · exact push_among ..
  · exact push_among ..

theorem closeGroup_among (c : Char) : (s.among b).closeGroup c = (s.closeGroup c).map (·.among b) := by
  unfold closeGroup
  rw [among_groups]
  split
  · next g outer _ =>
    split
    · exact congrArg Except.ok (withCurrent_among { s with groups := outer } b _)
    · rfl
  · rfl

theorem comma_among : (s.among b).comma = s.comma.map (·.among b) := by
  unfold comma
  rw [among_current]
  split
  · exact congrArg Except.ok (withCurrent_among ..)
  · rfl

theorem dot_among : (s.among b).dot = s.dot.map (·.among b) := by
  unfold dot
  rw [among_member,among_current]
  split <;> rfl

theorem number_among (literal : List Char) (float clean : Bool) :
    (s.among b).number literal float clean = (s.number literal float clean).map (·.among b) := by
  simp only [number]
  split
  · exact congrArg Except.ok (push_among ..)
  · rfl

theorem word_among (text : String) : (s.among b).word text = (s.word text).map (·.among b) := by
  unfold word
  rw [among_member,among_fresh]
  split
  · exact congrArg Except.ok (push_among ..)
  · split
    iterate 4 exact congrArg Except.ok (push_among ..)
    iterate 2 exact congrArg Except.ok (fuse_among ..)
    split
    · exact congrArg Except.ok (push_among ..)
    · split
      · rfl
      · split
        · exact congrArg Except.ok (push_among ..)
        · rfl

theorem lambda_among (params : List Char) (closed : Bool) :
    (s.among b).lambda params closed = (s.lambda params closed).map (·.among b) := by
  unfold lambda
  rw [among_line]
  split
  · cases parameters s.line params with
    | error e => rfl
    | ok names => exact congrArg Except.ok (push_among ..)
  · rfl

theorem string_among (lines : Lexer.Reader) (pieces : List Piece) (stop : Except LexError Nat) :
    (s.among b).string lines pieces stop = (s.string lines pieces stop).map (·.among b) := by
  simp only [string,among_line]
  cases pieces.mapM (pieceToken lines ⟨s.line,false⟩) with
  | error e => rfl
  | ok tokens =>
    cases stop with
    | error e => rfl
    | ok line =>
      simp only [bind,Except.bind]
      split <;> exact congrArg Except.ok (push_among { s with line } b _)

variable (lines : Lexer.Reader)

def ends (lexeme : Lexeme) : Bool := s.groups.isEmpty && lexeme.isEnd

theorem take_among (within : s.ends lexeme = false) :
    (s.among b).take lines lexeme = (s.take lines lexeme).map (·.among b) := by
  cases lexeme with
  | newline =>
    have inside : s.groups.isEmpty = false := by simpa [ends,Lexeme.isEnd] using within
    simp [take,inside,Except.map,among]
  | semicolon =>
    have inside : s.groups.isEmpty = false := by simpa [ends,Lexeme.isEnd] using within
    simp [take,inside,Except.map]
  | colon =>
    have inside : s.groups.isEmpty = false := by simpa [ends,Lexeme.isEnd] using within
    simp [take,inside,Except.map,pushOp,push_among]
  | gap | joint | stray => rfl
  | comma => exact comma_among s b
  | dot => exact dot_among s b
  | opening shape =>
    have start := noteStart_among { s with member := false } b
    exact congrArg (fun t => Except.ok { t with groups := ⟨shape,t.line,[]⟩ :: t.groups }) start
  | closing c => exact closeGroup_among s b c
  | str pieces stop => exact string_among s b lines pieces stop
  | number literal float clean => exact number_among s b literal float clean
  | word text => exact word_among s b _
  | lambda params closed => exact lambda_among s b params closed
  | op o augmented => exact congrArg Except.ok (push_among s b _)

theorem take_ends {s : Scanner} {lines : Lexer.Reader} (ends : s.ends lexeme = true)
    (taken : s.take lines lexeme = .ok t) : s.groups = [] ∧ (lexeme = .newline ∧ t = endLine { s with line := s.line + 1 } ∨
        lexeme = .semicolon ∧ t = s.endStatement ∨ lexeme = .colon ∧ s.openBlock = .ok t) := by
  obtain ⟨outside,isEnd⟩ : s.groups.isEmpty = true ∧ lexeme.isEnd = true := by simpa [Scanner.ends] using ends
  refine ⟨List.isEmpty_iff.mp outside,?_⟩
  cases lexeme with
  | newline =>
    simp only [take,outside,if_true] at taken
    exact .inl ⟨rfl,(Except.ok.inj taken).symm⟩
  | semicolon =>
    simp only [take,outside,if_true] at taken
    exact .inr (.inl ⟨rfl,(Except.ok.inj taken).symm⟩)
  | colon =>
    simp only [take,outside,if_true] at taken
    exact .inr (.inr ⟨rfl,taken⟩)
  | _ => cases isEnd

theorem takeHead_rest : s.takeHead.2 = { s with tokens := [], keyword := none, member := false } := by
  unfold takeHead
  split <;> rfl

theorem takeHead_head : s.takeHead.1 = if s.tokens.isEmpty && s.keyword.isNone then none
    else some ⟨s.statementLine,s.keyword,s.tokens.reverse⟩ := by
  unfold takeHead
  split <;> rfl

theorem takeHead_among : (s.among b).takeHead.1 = s.takeHead.1 := by
  rw [takeHead_head,takeHead_head]
  rfl

end Scanner

namespace Lexer

def onward (lexeme : Lexeme) (line : Nat) (rest : List Char) : Nat × List Char :=
  if lexeme.isNewline then
    match indentation false (line + 1) [] rest with
    | (next,_,after) => (next,after)
  else (line,rest)

theorem onward_length (lexeme : Lexeme) (line : Nat) (rest : List Char) : (onward lexeme line rest).2.length ≤ rest.length := by
  unfold onward
  split
  · exact indentation_length ..
  · exact Nat.le_refl _

-- The statements one after the other, with no regard to indentation, blocks or tiers.
def statements (lines : Reader) (s : Scanner) (cs : List Char) : Except LexError (List Head) :=
  match cs with
  | [] => .ok s.takeHead.1.toList
  | c :: rest =>
    match _read : Lexeme.read s.member s.line c rest with
    | (lexeme,after) =>
      if s.ends lexeme then do
        let next := onward lexeme s.line after
        let further ← statements lines { s.takeHead.2 with line := next.1 } next.2
        return s.takeHead.1.toList ++ further
      else do statements lines (← s.take lines lexeme) after
termination_by cs.length
decreasing_by
  all_goals
    have shorter := Lexeme.read_length s.member s.line c rest
    rw [_read] at shorter
    simp only [List.length_cons] at shorter ⊢
  · have further := onward_length lexeme s.line after
    omega
  · omega

def statementsFrom (lines : Reader) (source : List Char) (first : Nat) : Except LexError (List Head) :=
  match indentation false first [] (Text.replace ['\r','\n'] ['\n'] source none) with
  | (line,_,rest) => statements lines (.start line) rest

end Lexer

def statements (source : String) : Except LexError (List Head) :=
  let cs := source.toList
  Lexer.statementsFrom (Lexer.tokenizeWithin cs.length) cs 1

def tokenStream (source : String) : Except LexError (List Token) := (statements source).map (·.flatMap Head.tokens)

end EmbedScript
