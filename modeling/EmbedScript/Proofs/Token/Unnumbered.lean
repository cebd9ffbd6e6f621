import EmbedScript.Proofs.Token.Literal
import EmbedScript.Token.Lexer
import Mathlib.Data.List.Forall2

/-!
Line numbers decide nothing. `bare` forgets them and keeps everything else.
-/

namespace EmbedScript

open List Line Text

-- Forgetting numbers

def Spot.bare (s : Spot) : Spot := { s with line := 0 }

namespace Token

mutual

def bare : Token → Token
  | .name text s => .name text s.bare
  | .member text s => .member text s.bare
  | .number text s => .number text s.bare
  | .str text s => .str text s.bare
  | .op o augmented s => .op o augmented s.bare
  | .group shape inner s => .group shape (bareAll inner) s.bare

def bareAll : List Token → List Token
  | [] => []
  | t :: ts => t.bare :: bareAll ts

end

theorem bareAll_eq (ts : List Token) : bareAll ts = ts.map bare := by
  induction ts with
  | nil => rfl
  | cons t ts ih => rw [bareAll,ih,map_cons]

mutual

theorem bare_bare (t : Token) : t.bare.bare = t.bare := by
  cases t with
  | group shape inner s => simp only [bare,bareAll_bareAll inner,Spot.bare]
  | _ => rfl

theorem bareAll_bareAll (ts : List Token) : bareAll (bareAll ts) = bareAll ts := by
  match ts with
  | [] => rfl
  | t :: ts => simp only [bareAll,bare_bare t,bareAll_bareAll ts]

end

end Token

def LexError.bare : LexError → LexError
  | .unterminatedString _ => .unterminatedString 0
  | .unterminatedDocString _ => .unterminatedDocString 0
  | .unexpectedCharacter c _ => .unexpectedCharacter c 0
  | .unmatchedDelimiter c _ => .unmatchedDelimiter c 0
  | .unclosedDelimiter c _ => .unclosedDelimiter c 0
  | .unexpectedIndent _ => .unexpectedIndent 0
  | .invalidDedent _ => .invalidDedent 0
  | .expectedIndent _ => .expectedIndent 0
  | .invalidNumber literal _ => .invalidNumber literal 0
  | .danglingTier word _ => .danglingTier word 0
  | .unexpectedKeyword word _ => .unexpectedKeyword word 0
  | .invalidLambdaParameter name _ => .invalidLambdaParameter name 0
  | .invalidInterpolation reason _ => .invalidInterpolation reason 0

def Head.bare (h : Head) : Head := { h with line := 0, tokens := h.tokens.map Token.bare }

def Entry.bare (e : Entry) : Entry := { e with head := e.head.bare }

namespace Line

mutual

def bare : Line → Line
  | .mk head body tiers => .mk head.bare (bareBody body) (bareAll tiers)

def bareBody : Option (List Line) → Option (List Line)
  | none => none
  | some lines => some (bareAll lines)

def bareAll : List Line → List Line
  | [] => []
  | line :: lines => line.bare :: bareAll lines

end

end Line

/-- A result of reading without its line numbers: those of the error, or those that `forget` finds
in the value. -/
def Lexer.bare {α : Type} (forget : α → α) : Except LexError α → Except LexError α
  | .ok a => .ok (forget a)
  | .error e => .error e.bare

namespace Lexer

variable {g : α → Except LexError β}

theorem bare_bare (idle : ∀ a, forget (forget a) = forget a)
    (r : Except LexError α) : bare forget (bare forget r) = bare forget r := by
  cases r with
  | ok a => exact congrArg Except.ok (idle a)
  | error e => cases e <;> rfl

theorem bare_bind (first : bare forget x = bare forget y)
    (rest : ∀ a b, x = .ok a → y = .ok b → forget a = forget b → bare forget' (f a) = bare forget' (g b)) :
    bare forget' (x >>= f) = bare forget' (y >>= g) := by
  cases x with
  | error e =>
    cases y with
    | error e' => exact congrArg Except.error (Except.error.inj first)
    | ok b => cases first
  | ok a =>
    cases y with
    | error e' => cases first
    | ok b => exact rest a b rfl rfl (Except.ok.inj first)

theorem bare_mapM {forget} (each : Forall₂ (fun x y => bare forget (f x) = bare forget (g y)) xs ys) :
    bare (map forget) (xs.mapM f) = bare (map forget) (ys.mapM g) := by
  induction each with
  | nil => rfl
  | cons first _ ih =>
    rw [mapM_cons,mapM_cons]
    refine bare_bind first fun a b _ _ same => bare_bind ih fun as bs _ _ others => ?_
    simp only [pure,Except.pure,bare,map_cons,same,others]

end Lexer

namespace Entry

def bareLevels (levels : List Pending) : List Pending := levels.map fun p => ⟨bareAll p.lines,bareAll p.tiers⟩

theorem getD_bareLevels (levels : List Pending) (depth : Nat) : (bareLevels levels).getD depth {} =
      ⟨bareAll (levels.getD depth {}).lines,bareAll (levels.getD depth {}).tiers⟩ := by
  simp only [bareLevels,getD_eq_getElem?_getD,getElem?_map]
  cases levels[depth]? <;> rfl

theorem place_bare (e : Entry) (levels : List Pending) : e.bare.place (bareLevels levels) = bareLevels (e.place levels) := by
  obtain ⟨head,depth,tier,opens⟩ := e
  simp only [place,getD_bareLevels]
  simp only [bareLevels,map_append,map_replicate,map_take,length_take,length_map]
  cases tier <;> cases opens <;> rfl

theorem foldr_place_bare (es : List Entry) : (es.map bare).foldr place [] = bareLevels (es.foldr place []) := by
  induction es with
  | nil => rfl
  | cons e es ih => rw [map_cons,foldr_cons,foldr_cons,ih,place_bare]

end Entry

theorem Line.forest_bare (es : List Entry) : forest (es.map Entry.bare) = bareAll (forest es) := by
  rw [forest,Entry.foldr_place_bare,Entry.getD_bareLevels,forest]

-- The scanner

def OpenGroup.bare (g : OpenGroup) : OpenGroup := { g with line := 0, tokens := g.tokens.map Token.bare }

def Opener.bare (o : Opener) : Opener := { o with line := 0 }

def Piece.bare : Piece → Piece
  | .text cs => .text cs
  | .splice source _ => .splice source 0

theorem Piece.bare_bare (p : Piece) : p.bare.bare = p.bare := by cases p <;> rfl

def Lexeme.bare : Lexeme → Lexeme
  | .str pieces stop => .str (pieces.map Piece.bare) (Lexer.bare (fun _ => 0) stop)
  | lexeme => lexeme

namespace Scanner

def bare (s : Scanner) : Scanner := { s with
    line := 0, statementLine := 0
    groups := s.groups.map OpenGroup.bare, tokens := s.tokens.map Token.bare
    entries := s.entries.map Entry.bare, opener := s.opener.map Opener.bare }

variable (s : Scanner)

theorem bare_bare : s.bare.bare = s.bare := by
  have tokens : Token.bare ∘ Token.bare = Token.bare := funext Token.bare_bare
  have group : OpenGroup.bare ∘ OpenGroup.bare = OpenGroup.bare := by
    funext g
    simp [OpenGroup.bare,tokens]
  have entry : Entry.bare ∘ Entry.bare = Entry.bare := by
    funext e
    simp [Entry.bare,Head.bare,tokens]
  simp only [bare,map_map,Option.map_map,tokens,group,entry]
  rfl

theorem fresh_bare : s.bare.fresh = s.fresh := by simp [fresh,bare]

theorem current_bare : s.bare.current = s.current.map Token.bare := by
  simp only [current,bare]
  cases s.groups <;> rfl

theorem withCurrent_bare (ts : List Token) : s.bare.withCurrent (ts.map Token.bare) = (s.withCurrent ts).bare := by
  simp only [withCurrent,bare]
  cases s.groups <;> rfl

theorem noteStart_bare : s.bare.noteStart = s.noteStart.bare := by
  unfold noteStart
  rw [fresh_bare]
  split <;> rfl

theorem push_bare (same : ∀ spot, (token spot).bare = bared spot.bare) :
    s.bare.push bared = (s.push token).bare := by
  have start := noteStart_bare { s with member := false }
  have added := withCurrent_bare { s with member := false }.noteStart
  simp only [push]
  rw [show { s.bare with member := false } = bare { s with member := false } from rfl,start,← added,current_bare,map_cons,same]
  rfl

theorem pushName_bare (name : String) : s.bare.pushName name = (s.pushName name).bare := by
  refine push_bare s fun spot => ?_
  cases member : s.member <;> simp [bare,member,Token.bare]

theorem pushOp_bare (o : Op) (augmented : Bool) : s.bare.pushOp o augmented = (s.pushOp o augmented).bare :=
  push_bare s fun _ => rfl

theorem fuse_bare (first second both : Op) : s.bare.fuse first second both = (s.fuse first second both).bare := by
  unfold fuse
  rw [current_bare]
  rcases s.current with _ | ⟨t,before⟩
  · exact pushOp_bare ..
  cases t with
  | op o augmented spot =>
    cases augmented with
    | false =>
      simp only [map_cons,Token.bare]
      split
      · exact withCurrent_bare s (.op both false spot :: before)
      · exact pushOp_bare ..
    | true => exact pushOp_bare ..
  | _ => exact pushOp_bare ..

-- Statements and blocks

theorem takeHead_bare : s.bare.takeHead = (s.takeHead.1.map Head.bare,s.takeHead.2.bare) := by
  simp only [takeHead,bare,isEmpty_map]
  split
  · rfl
  · simp [Head.bare]

theorem place_bare (head : Head) (opens : Bool) :
    s.bare.place head.bare opens = ((s.place head opens).1,(s.place head opens).2.bare) := by
  unfold place
  simp only [bare]
  cases s.inline <;> cases s.opener <;> rfl

theorem endStatement_bare : s.bare.endStatement = s.endStatement.bare := by
  unfold endStatement
  rw [takeHead_bare]
  rcases s.takeHead with ⟨_ | head,rest⟩
  · rfl
  · exact congrArg Prod.snd (place_bare rest head false)

theorem endLine_bare : s.bare.endLine = s.endLine.bare := by
  unfold endLine
  rw [endStatement_bare]
  simp only [bare,apply_ite (Option.map Opener.bare)]
  rfl

theorem openBlock_bare : s.bare.openBlock = Lexer.bare bare s.openBlock := by
  unfold openBlock
  rw [takeHead_bare]
  rcases s.takeHead with ⟨_ | ⟨line,keyword,tokens⟩,rest⟩
  · rfl
  have placed := place_bare rest ⟨line,keyword,tokens⟩ true
  simp only [Option.map_some,Head.bare] at placed ⊢
  split
  iterate 2
    simp only [apply_ite (Lexer.bare bare)]
    rfl
  simp only [placed]
  rfl

theorem enterLine_bare (indent : List Char) : s.bare.enterLine indent = Lexer.bare bare (s.enterLine indent) := by
  unfold enterLine
  simp only [bare]
  cases s.opener with
  | some o =>
    simp only [apply_ite (Lexer.bare _)]
    rfl
  | none =>
    simp only [Option.map_none]
    split
    · simp only [apply_ite (Lexer.bare _)]
      rfl
    · rfl

theorem finish_bare : s.bare.finish = Lexer.bare (map Entry.bare) s.finish := by
  unfold finish
  have groups : s.bare.groups = s.groups.map OpenGroup.bare := rfl
  rw [groups,endLine_bare]
  cases s.groups with
  | cons g outer => cases g; rfl
  | nil =>
    simp only [bare]
    cases s.endLine.opener with
    | some o => rfl
    | none => exact congrArg Except.ok map_reverse.symm

theorem closeGroup_bare (c : Char) : s.bare.closeGroup c = Lexer.bare bare (s.closeGroup c) := by
  unfold closeGroup
  have groups : s.bare.groups = s.groups.map OpenGroup.bare := rfl
  rw [groups]
  cases s.groups with
  | nil => rfl
  | cons g outer =>
    have closed := withCurrent_bare { s with groups := outer }
      (.group g.shape g.tokens.reverse ⟨g.line,false⟩ :: current { s with groups := outer })
    simp only [map_cons,Token.bare,Token.bareAll_eq,map_reverse,← current_bare] at closed
    by_cases fits : g.shape.closing == c
    · simp only [map_cons,OpenGroup.bare,fits]
      exact congrArg Except.ok closed
    · simp only [map_cons,OpenGroup.bare,fits]
      rfl

theorem comma_bare : s.bare.comma = Lexer.bare bare s.comma := by
  unfold comma
  rw [current_bare]
  rcases s.current with _ | ⟨t,before⟩
  · rfl
  have marked := withCurrent_bare s (t.withSpot ⟨t.line,true⟩ :: before)
  cases t <;> exact congrArg Except.ok marked

theorem dot_bare : s.bare.dot = Lexer.bare bare s.dot := by
  unfold dot
  rw [current_bare,isEmpty_map,apply_ite (Lexer.bare bare)]
  rfl

theorem number_bare (literal : List Char) (float clean : Bool) :
    s.bare.number literal float clean = Lexer.bare bare (s.number literal float clean) := by
  simp only [number,apply_ite (Lexer.bare bare)]
  rw [@push_bare s (.number (String.ofList (literal.filter (· != '_')))) _ fun _ => rfl]
  rfl

theorem word_bare (text : String) : s.bare.word text = Lexer.bare bare (s.word text) := by
  unfold word
  have member : s.bare.member = s.member := rfl
  rw [member,fresh_bare]
  split
  · exact congrArg Except.ok (pushName_bare ..)
  split
  iterate 4 exact congrArg Except.ok (pushOp_bare ..)
  iterate 2 exact congrArg Except.ok (fuse_bare ..)
  split
  · exact congrArg Except.ok (pushName_bare ..)
  split
  · rfl
  split
  · exact congrArg Except.ok (pushOp_bare ..)
  · rfl

theorem parameters_bare (line line' : Nat) (params : List Char) : Lexer.bare (map id) (parameters line params) =
      Lexer.bare (map id) (parameters line' params) := by
  unfold parameters
  split
  · rfl
  · refine Lexer.bare_mapM (forall₂_same.mpr fun cs _ => ?_)
    simp only [apply_ite (Lexer.bare id)]
    rfl

theorem lambda_bare (params : List Char) (closed : Bool) :
    Lexer.bare bare (s.bare.lambda params closed) = Lexer.bare bare (s.lambda params closed) := by
  unfold lambda
  split
  · refine Lexer.bare_bind (parameters_bare 0 s.line params) fun names names' _ _ same => ?_
    rw [map_id,map_id] at same
    simp only [same,pushOp_bare]
    exact congrArg Except.ok (bare_bare _)
  · rfl

end Scanner

theorem Text.length_trim_le (drop : Char → Bool) (cs : List Char) : (trim drop cs).length ≤ cs.length := by
  have start := Lexeme.length_dropWhile_le drop cs
  have ends := Lexeme.length_dropWhile_le drop (cs.dropWhile drop).reverse
  rw [length_reverse] at ends
  simp only [trim,trimEnd,length_reverse]
  exact Nat.le_trans ends start

-- Two readers find the same in every text of fewer than `n` characters, on whatever line it stands.
def Lexer.Agree (n : Nat) (lines lines' : Reader) : Prop :=
  ∀ cs line line', cs.length < n → bare bareAll (lines cs line) = bare bareAll (lines' cs line')

namespace Scanner

variable {lines : Lexer.Reader}

theorem fragment_bare (agree : Lexer.Agree n lines lines') (short : source.length < n) (line line' : Nat) :
    Lexer.bare (map Token.bare) (fragment lines source line) = Lexer.bare (map Token.bare) (fragment lines' source line') := by
  have trimmed := Nat.lt_of_le_of_lt (length_trim_le isBlank source) short
  refine Lexer.bare_bind (agree _ line line' trimmed) fun ls ls' _ _ same => ?_
  rcases ls with _ | ⟨⟨⟨_,keyword,tokens⟩,body,_⟩,more⟩ <;> rcases ls' with _ | ⟨⟨⟨_,keyword',tokens'⟩,body',_⟩,more'⟩
  · rfl
  · cases same
  · cases same
  simp only [Line.bareAll,Line.bare,Head.bare,List.cons.injEq,Line.mk.injEq,Head.mk.injEq] at same
  obtain ⟨⟨⟨-,rfl,alike⟩,bodies,-⟩,others⟩ := same
  cases more <;> cases more' <;> cases keyword <;> cases body <;> cases body' <;>
    first | contradiction | rfl | exact congrArg Except.ok alike

theorem pieceToken_bare (agree : Lexer.Agree n lines lines')
    (same : piece.bare = piece'.bare) (short : piece.Within n) (line line' : Nat) :
    Lexer.bare Token.bare (pieceToken lines ⟨line,false⟩ piece) =
      Lexer.bare Token.bare (pieceToken lines' ⟨line',false⟩ piece') := by
  cases piece with
  | text cs =>
    cases piece' with
    | text => cases same; rfl
    | splice => cases same
  | splice source l =>
    cases piece' with
    | text => cases same
    | splice source' l' =>
      obtain rfl : source = source' := (Piece.splice.inj same).1
      refine Lexer.bare_bind (fragment_bare agree short l l') fun ts ts' _ _ alike => ?_
      simp only [pure,Except.pure,Lexer.bare,Token.bare,Token.bareAll_eq,alike,Spot.bare]

def literalToken (line : Nat) : List Token → Spot → Token
  | [.str text _] => .str text
  | parts => .group .paren (parts.intersperse (.op .add false ⟨line,false⟩))

theorem string_eq (lines : Lexer.Reader) (s : Scanner) (pieces : List Piece) (stop : Except LexError Nat) :
    s.string lines pieces stop = do
      let parts ← pieces.mapM (pieceToken lines ⟨s.line,false⟩)
      let line ← stop
      return push { s with line } (literalToken s.line parts) := by
  refine congrArg _ (funext fun parts => congrArg _ (funext fun line => ?_))
  rcases parts with _ | ⟨t,_ | ⟨u,parts⟩⟩
  · rfl
  · cases t <;> rfl
  · cases t <;> rfl

theorem map_intersperse (f : α → β) (between : α) (xs : List α) :
    (xs.intersperse between).map f = (xs.map f).intersperse (f between) := by
  induction xs with
  | nil => rfl
  | cons x xs ih =>
    cases xs with
    | nil => rfl
    | cons y xs => simpa using ih

theorem literalToken_bare (line : Nat) (parts : List Token) (spot : Spot) :
    (literalToken line parts spot).bare = literalToken 0 (parts.map Token.bare) spot.bare := by
  rcases parts with _ | ⟨t,_ | ⟨u,parts⟩⟩
  · rfl
  · cases t <;> rfl
  · have sum : literalToken line (t :: u :: parts) =
        .group .paren ((t :: u :: parts).intersperse (.op .add false ⟨line,false⟩)) := by
      cases t <;> rfl
    rw [sum,Token.bare,Token.bareAll_eq,map_intersperse]
    cases t <;> rfl

theorem string_bare (agree : Lexer.Agree n lines lines') (s : Scanner) {pieces}
    (parts : pieces.map Piece.bare = pieces'.map Piece.bare)
    (short : ∀ p ∈ pieces, p.Within n)
    (ends : Lexer.bare (fun _ => 0) stop = Lexer.bare (fun _ => 0) stop') :
    Lexer.bare bare (s.string lines pieces stop) = Lexer.bare bare (s.bare.string lines' pieces' stop') := by
  have each : Forall₂ (fun p p' => Lexer.bare Token.bare (pieceToken lines ⟨s.line,false⟩ p) =
      Lexer.bare Token.bare (pieceToken lines' ⟨s.bare.line,false⟩ p')) pieces pieces' := by
    induction pieces generalizing pieces' with
    | nil =>
      cases pieces' with
      | nil => exact .nil
      | cons => cases parts
    | cons p pieces ih =>
      cases pieces' with
      | nil => cases parts
      | cons p' pieces' =>
        obtain ⟨same,others⟩ := List.cons.inj parts
        obtain ⟨first,rest⟩ := forall_mem_cons.mp short
        exact .cons (pieceToken_bare agree same first _ _) (ih others rest)
  rw [string_eq,string_eq]
  refine Lexer.bare_bind (Lexer.bare_mapM each) fun ts ts' _ _ alike => ?_
  refine Lexer.bare_bind ends fun line line' _ _ _ => ?_
  have pushed (t : Scanner) (line : Nat) (parts : List Token) := push_bare t (literalToken_bare line parts)
  simp only [pure,Except.pure,Lexer.bare,← pushed,alike]
  rw [show bare { s.bare with line := line' } = bare { s with line } from bare_bare s]

theorem bare_exact (exact : r' = Lexer.bare bare r) : Lexer.bare bare r = Lexer.bare bare r' := by
  rw [exact,Lexer.bare_bare bare_bare]

variable (s : Scanner)

theorem isEmpty_groups_bare : s.bare.groups.isEmpty = s.groups.isEmpty := by simp [bare]

theorem take_newline_bare : Lexer.bare bare (s.take lines .newline) = Lexer.bare bare (s.bare.take lines' .newline) := by
  have moved : bare { s with line := s.line + 1 } = bare { s.bare with line := s.bare.line + 1 } := (bare_bare s).symm
  simp only [take,isEmpty_groups_bare]
  split
  · simp only [Lexer.bare,← endLine_bare,moved]
  · exact congrArg Except.ok moved

theorem take_other_bare (other : lexeme.isLiteral = false) :
    Lexer.bare bare (s.take lines lexeme) = Lexer.bare bare (s.bare.take lines' lexeme) := by
  cases lexeme with
  | str => contradiction
  | newline => exact take_newline_bare s
  | gap | joint => exact congrArg Except.ok (bare_bare s).symm
  | semicolon =>
    simp only [take,isEmpty_groups_bare]
    split
    · exact bare_exact (congrArg Except.ok (endStatement_bare s))
    · rfl
  | comma => exact bare_exact (comma_bare s)
  | dot => exact bare_exact (dot_bare s)
  | colon =>
    simp only [take,isEmpty_groups_bare]
    split
    · exact bare_exact (openBlock_bare s)
    · exact bare_exact (congrArg Except.ok (pushOp_bare s .colon false))
  | opening shape =>
    have start := noteStart_bare { s with member := false }
    refine bare_exact (congrArg Except.ok ?_)
    rw [show { s.bare with member := false } = bare { s with member := false } from rfl,start]
    rfl
  | closing c => exact bare_exact (closeGroup_bare s c)
  | number literal float clean => exact bare_exact (number_bare s literal float clean)
  | word text => exact bare_exact (word_bare s _)
  | lambda params closed => exact (lambda_bare s params closed).symm
  | op o augmented => exact bare_exact (congrArg Except.ok (pushOp_bare s o augmented))
  | stray c => rfl

theorem take_bare (agree : Lexer.Agree n lines lines') (s : Scanner)
    (same : a.bare = b.bare) (short : ∀ pieces stop, a = .str pieces stop → ∀ p ∈ pieces, p.Within n) :
    Lexer.bare bare (s.take lines a) = Lexer.bare bare (s.bare.take lines' b) := by
  cases literal : a.isLiteral with
  | true =>
    cases a with
    | str pieces stop =>
      cases b with
      | str pieces' stop' =>
        obtain ⟨parts,ends⟩ := Lexeme.str.inj same
        exact string_bare agree s parts (short pieces stop rfl) ends
      | _ => cases same
    | _ => contradiction
  | false =>
    obtain rfl : b = a := by cases a <;> first | contradiction | (cases b <;> cases same; rfl)
    exact take_other_bare s literal

end Scanner

end EmbedScript
