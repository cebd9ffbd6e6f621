import EmbedScript.Code.Expression
import EmbedScript.Eval.Expression
import EmbedScript.Proofs.Syntax.Run
import EmbedScript.Proofs.Token.Boundary
import EmbedScript.Proofs.Token.Gathering
import EmbedScript.Syntax.Program

namespace EmbedScript

open List Lexer

-- Reading a run of literals

/-- String literals without expressions stand from `cs` on up to `rest`, with blanks, joints and,
inside brackets, line breaks between them: their texts, and the lines they end on. -/
inductive Texts (inside : Bool) :
    (line : Nat) → (cs : List Char) → List (List Char × Nat) → (stop : Nat) → (rest : List Char) → Prop where
  | done {line : Nat} {rest : List Char} : Texts inside line rest [] line rest
  | gap {line stop : Nat} {c : Char} {cs after rest : List Char} {texts : List (List Char × Nat)} :
      Lexeme.read false line c cs = (.gap,after) → Texts inside line after texts stop rest →
      Texts inside line (c :: cs) texts stop rest
  | joint {line stop : Nat} {c : Char} {cs after rest : List Char} {texts : List (List Char × Nat)} :
      Lexeme.read false line c cs = (.joint,after) → Texts inside (line + 1) after texts stop rest →
      Texts inside line (c :: cs) texts stop rest
  | newline {line stop : Nat} {c : Char} {cs after rest : List Char} {texts : List (List Char × Nat)} :
      inside = true → Lexeme.read false line c cs = (.newline,after) →
      Texts inside (line + 1) after texts stop rest → Texts inside line (c :: cs) texts stop rest
  | text {line next stop : Nat} {c : Char} {cs after rest text : List Char}
      {texts : List (List Char × Nat)} :
      Lexeme.read false line c cs = (.str [.text text] (.ok next),after) →
      Texts inside next after texts stop rest →
      Texts inside line (c :: cs) ((text,next) :: texts) stop rest

namespace Texts

def token (text : List Char × Nat) : Token := .str (String.ofList text.1) ⟨text.2,false⟩

def joined (texts : List (List Char × Nat)) : String := String.ofList (texts.flatMap (·.1))

end Texts

namespace Scanner

def onLine (s : Scanner) (line : Nat) : Scanner := { s with line }

def pushTexts (s : Scanner) (texts : List (List Char × Nat)) : Scanner :=
  texts.foldl (fun s text => (s.onLine text.2).push (.str (String.ofList text.1))) s

variable (s : Scanner)

theorem pushTexts_cons (text : List Char × Nat) (texts : List (List Char × Nat)) : s.pushTexts (text :: texts) =
      ((s.onLine text.2).push (.str (String.ofList text.1))).pushTexts texts := rfl

theorem noteStart_kept : s.noteStart.current = s.current ∧ s.noteStart.line = s.line := by
  unfold noteStart
  split <;> exact ⟨rfl,rfl⟩

theorem current_withCurrent (ts : List Token) : (s.withCurrent ts).current = ts ∧ (s.withCurrent ts).line = s.line := by
  unfold withCurrent
  split <;> rename_i groups <;> simp [current,groups]

theorem push_current (token : Spot → Token) :
    (s.push token).current = token ⟨s.line,false⟩ :: s.current ∧ (s.push token).line = s.line := by
  obtain ⟨current,line⟩ := noteStart_kept { s with member := false }
  obtain ⟨added,still⟩ := current_withCurrent (noteStart { s with member := false })
    (token ⟨(noteStart { s with member := false }).line,false⟩ :: (noteStart { s with member := false }).current)
  refine ⟨added.trans ?_,still.trans line⟩
  rw [current,line]
  rfl

theorem current_pushTexts (texts : List (List Char × Nat)) :
    (s.pushTexts texts).current = (texts.map Texts.token).reverse ++ s.current := by
  induction texts generalizing s with
  | nil => rfl
  | cons text texts ih =>
    rw [pushTexts_cons,ih,(push_current _ _).1]
    simp only [map_cons,reverse_cons,append_assoc]
    rfl

theorem pushTexts_line (line stop : Nat) (texts : List (List Char × Nat)) :
    ((s.onLine line).pushTexts texts).onLine stop = (s.pushTexts texts).onLine stop := by
  cases texts <;> rfl

end Scanner

theorem Texts.entries
    (run : Texts inside line cs texts stop rest) (lines : Reader)
    (free : s.member = false) (here : s.line = line)
    (enclosed : inside → s.groups.isEmpty = false) :
    entries lines s cs = entries lines ((s.pushTexts texts).onLine stop) rest := by
  induction run generalizing s with
  | done =>
    subst here
    rfl
  | gap read _ ih =>
    rw [← here,← free] at read
    rw [entries_cons read rfl rfl]
    exact ih free here enclosed
  | joint read _ ih =>
    rw [← here,← free] at read
    rw [entries_cons read rfl rfl,← s.pushTexts_line (s.line + 1)]
    exact ih free (congrArg (· + 1) here) enclosed
  | newline opened read _ ih =>
    rw [← here,← free] at read
    have moved : s.take lines .newline = .ok (s.onLine (s.line + 1)) := by
      simp only [Scanner.take,enclosed opened]
      rfl
    have inside : (s.onLine (s.line + 1)).groups.isEmpty = false := enclosed opened
    rw [entries_proceed,read,← s.pushTexts_line (s.line + 1)]
    simp only [proceed,moved,bind,Except.bind,inside,Bool.and_false]
    exact ih free (congrArg (· + 1) here) enclosed
  | @text line next stop c cs after rest text texts read _ ih =>
    rw [← here,← free] at read
    have taken : s.take lines (.str [.text text] (.ok next)) = .ok ((s.onLine next).push (.str (String.ofList text))) := by
      rfl
    obtain ⟨free,depth⟩ := Scanner.stands_push (s.onLine next) (.str (String.ofList text))
    rw [entries_cons read taken rfl]
    refine ih free (Scanner.push_current _ _).2 fun opened => ?_
    have left : (s.onLine next).groups ≠ [] := isEmpty_eq_false_iff.mp (enclosed opened)
    rw [isEmpty_eq_false_iff,← length_pos_iff,depth]
    exact length_pos_iff.mpr left

namespace Token

def isText : Token → Bool
  | .str .. => true
  | _ => false

end Token

theorem Texts.isText_token (text : List Char × Nat) : (token text).isText = true := rfl

namespace Run

variable {trailers : List Token} {t : Token}

variable (text : String) {before after : List Token}

theorem adjacent_texts (texts : List (List Char × Nat)) (ended : ∀ t ∈ trailers.head?, t.isText = false) :
    adjacent text (texts.map Texts.token ++ trailers) = (text ++ Texts.joined texts,trailers) := by
  induction texts generalizing text with
  | nil =>
    have joined : Texts.joined [] = "" := rfl
    rw [joined,String.append_empty]
    rcases trailers with _ | ⟨t,trailers⟩
    · rfl
    · have other := ended t rfl
      cases t <;> first | contradiction | rfl
  | cons first texts ih =>
    have joined : Texts.joined (first :: texts) = String.ofList first.1 ++ Texts.joined texts := by
      rw [Texts.joined,flatMap_cons,String.ofList_append,Texts.joined]
    rw [map_cons,cons_append,Texts.token,adjacent,ih,joined,String.append_assoc]

theorem adjacent_dropWhile (ts : List Token) : (adjacent text ts).2 = ts.dropWhile Token.isText := by
  induction ts generalizing text with
  | nil => rfl
  | cons t ts ih =>
    cases t with
    | str more spot => exact ih (text ++ more)
    | _ => rfl

variable {inner : Reader}

theorem operand_texts (first : List Char × Nat) (texts : List (List Char × Nat))
    (ended : ∀ t ∈ trailers.head?, t.isText = false) (line : Nat) :
    operand inner ((first :: texts).map Texts.token ++ trailers) line =
      trailers.foldlM (trailer inner) (.str (Texts.joined (first :: texts))) := by
  have joined : Texts.joined (first :: texts) = String.ofList first.1 ++ Texts.joined texts := by
    rw [Texts.joined,flatMap_cons,String.ofList_append,Texts.joined]
  rw [map_cons,cons_append,Texts.token,operand,primary,adjacent_texts _ _ ended,joined]
  rfl

-- What follows an operand is a member, an argument list or a subscript, never a text.
theorem trailers_text (text : t.isText) (member : t ∈ trailers) (object e : Expr) :
    trailers.foldlM (trailer inner) object ≠ .ok e := by
  induction trailers generalizing object with
  | nil => contradiction
  | cons u trailers ih =>
    rw [foldlM_cons]
    intro accepted
    rcases mem_cons.mp member with rfl | member
    · cases t with
      | str => cases accepted
      | _ => contradiction
    · cases first : trailer inner object u with
      | error e =>
        rw [first] at accepted
        cases accepted
      | ok object =>
        rw [first] at accepted
        exact ih member object accepted

theorem primary_rest (read : primary inner first rest = .ok (object,trailers)) :
    trailers = if first.isText then rest.dropWhile Token.isText else rest := by
  have paired (wrap : Expr → Expr) {x}
      (read : (do return (wrap (← x),rest)) = (.ok (object,trailers) : Parse (Expr × List Token))) : trailers = rest := by
    cases x <;> cases read
    rfl
  cases first with
  | name => exact (Prod.mk.inj (Except.ok.inj read)).2.symm
  | str text spot =>
    rw [← (Prod.mk.inj (Except.ok.inj read)).2]
    exact adjacent_dropWhile text rest
  | number => exact paired id read
  | group shape ts spot => cases shape <;> first | exact paired id read | exact paired .format read
  | member => cases read
  | op => cases read

theorem mem_dropWhile_text (other : ∃ u ∈ before, u.isText = false) : t ∈ (before ++ t :: after).dropWhile Token.isText := by
  induction before with
  | nil => simp at other
  | cons u before ih =>
    rw [cons_append,dropWhile_cons]
    cases text : u.isText with
    | false => simp
    | true =>
      obtain ⟨v,member,plain⟩ := other
      rcases mem_cons.mp member with rfl | member
      · rw [text] at plain
        contradiction
      · exact ih ⟨v,member,plain⟩

theorem operand_text_behind (text : t.isText) (other : ∃ u ∈ before, u.isText = false) (line : Nat) (e : Expr) :
    operand inner (before ++ t :: after) line ≠ .ok e := by
  cases before with
  | nil => simp at other
  | cons first before =>
    intro accepted
    rw [cons_append,operand] at accepted
    cases read : primary inner first (before ++ t :: after) with
    | error e =>
      rw [read] at accepted
      cases accepted
    | ok found =>
      obtain ⟨object,trailers⟩ := found
      rw [read] at accepted
      refine trailers_text text ?_ object e accepted
      rw [primary_rest read]
      split
      · rename_i start
        refine mem_dropWhile_text ?_
        obtain ⟨u,member,plain⟩ := other
        rcases mem_cons.mp member with rfl | member
        · rw [start] at plain
          contradiction
        · exact ⟨u,member,plain⟩
      · simp

end Run

-- Literals with expressions

namespace Scanner

variable {pieces : List Piece} {lines : Reader}

theorem length_pieceTokens
    (read : pieces.mapM (pieceToken lines spot) = .ok parts) : parts.length = pieces.length := by
  induction pieces generalizing parts with
  | nil =>
    cases read
    rfl
  | cons p pieces ih =>
    rw [mapM_cons] at read
    cases first : pieceToken lines spot p with
    | error e =>
      rw [first] at read
      cases read
    | ok part =>
      rw [first] at read
      cases others : pieces.mapM (pieceToken lines spot) with
      | error e =>
        rw [others] at read
        cases read
      | ok parts =>
        rw [others] at read
        cases read
        exact congrArg (· + 1) (ih others)

theorem take_spliced {next} {s : Scanner}
    (spliced : 1 < pieces.length) (taken : s.take lines (.str pieces (.ok next)) = .ok t) :
    ∃ parts, t = (s.onLine next).push (.group .paren parts) := by
  rw [take,string_eq] at taken
  cases read : pieces.mapM (pieceToken lines ⟨s.line,false⟩) with
  | error e =>
    rw [read] at taken
    cases taken
  | ok parts =>
    rw [read] at taken
    cases taken
    have length := length_pieceTokens read
    rcases parts with _ | ⟨a,_ | ⟨b,parts⟩⟩
    · simp only [length_nil] at length
      omega
    · simp only [length_cons,length_nil] at length
      omega
    · refine ⟨(a :: b :: parts).intersperse (.op .add false ⟨s.line,false⟩),?_⟩
      cases a <;> rfl

end Scanner

-- Literals next to each other

/-- A run of string literals without expressions is one operand, whose value is the texts put
together. Behind another operand such a literal is refused, and one with expressions is the argument
list of a call. -/
theorem adjacent_literals {inside : Bool} {line stop : Nat} {cs rest : List Char}
    {texts : List (List Char × Nat)} (run : Texts inside line cs texts stop rest) (written : texts ≠ []) :
    (∀ (lines : Lexer.Reader) (s : Scanner), s.member = false → s.line = line →
      (inside → s.groups.isEmpty = false) →
      Lexer.entries lines s cs = Lexer.entries lines ((s.pushTexts texts).onLine stop) rest ∧
        (s.pushTexts texts).current = (texts.map Texts.token).reverse ++ s.current) ∧
    (∀ (inner : Run.Reader) (trailers : List Token) (here : Nat),
      (∀ t ∈ trailers.head?, t.isText = false) →
      Run.operand inner (texts.map Texts.token ++ trailers) here =
        trailers.foldlM (Run.trailer inner) (.str (Texts.joined texts))) ∧
    (∀ typed env st, ∃ compiled, (Expr.str (Texts.joined texts)).compile typed env st = .ok (compiled, st) ∧
      ∀ k f w, compiled.code.eval k f w = .done (.str (Texts.joined texts)) w) ∧
    (∀ (inner : Run.Reader) (before after : List Token) (here : Nat), (∃ u ∈ before, u.isText = false) →
      ∀ text ∈ texts, ∀ e, Run.operand inner (before ++ Texts.token text :: after) here ≠ .ok e) ∧
    ∀ (lines : Lexer.Reader) (s t : Scanner) (pieces : List Piece) (next : Nat), 1 < pieces.length →
      s.take lines (.str pieces (.ok next)) = .ok t →
      ∃ parts, t.current = .group .paren parts ⟨next, false⟩ :: s.current ∧
        ∀ (inner : Run.Reader) (object : Expr),
          Run.trailer inner object (.group .paren parts ⟨next, false⟩) = do
            return Run.call object (← Run.arguments inner parts next) := by
  refine ⟨fun lines s free here enclosed => ?_, fun inner trailers here ended => ?_, fun typed env st => ?_,
    fun inner before after here other text _ e => ?_, fun lines s t pieces next spliced taken => ?_⟩
  · exact ⟨run.entries lines free here enclosed, s.current_pushTexts texts⟩
  · obtain ⟨first, texts, rfl⟩ := List.exists_cons_of_ne_nil written
    exact Run.operand_texts first texts ended here
  · exact ⟨Typed.literal typed .str (.str (Texts.joined texts)), rfl, fun k f w => rfl⟩
  · exact Run.operand_text_behind (Texts.isText_token text) other here e
  · obtain ⟨parts, rfl⟩ := Scanner.take_spliced spliced taken
    exact ⟨parts, (Scanner.push_current _ _).1, fun inner object => rfl⟩

theorem adjacent_literals_three :
    Texts false 1 ['\'', 'a', '\'', ' ', 'r', '"', 'b', '"', ' ', 'f', '\'', 'c', '\'', '\n']
        [(['a'], 1), (['b'], 1), (['c'], 1)] 1 ['\n'] ∧
      ∀ (inner : Run.Reader) (here : Nat),
        Run.operand inner [.str "a" ⟨1, false⟩, .str "b" ⟨1, false⟩, .str "c" ⟨1, false⟩] here =
          .ok (.str "abc") := by
  have plain : Lexeme.read false 1 '\''
      ['a', '\'', ' ', 'r', '"', 'b', '"', ' ', 'f', '\'', 'c', '\'', '\n'] =
      (.str [.text ['a']] (.ok 1), [' ', 'r', '"', 'b', '"', ' ', 'f', '\'', 'c', '\'', '\n']) := by
    rfl
  have raw : Lexeme.read false 1 'r' ['"', 'b', '"', ' ', 'f', '\'', 'c', '\'', '\n'] =
      (.str [.text ['b']] (.ok 1), [' ', 'f', '\'', 'c', '\'', '\n']) := by
    rfl
  have format : Lexeme.read false 1 'f' ['\'', 'c', '\'', '\n'] =
      (.str [.text ['c']] (.ok 1), ['\n']) := by
    rfl
  have run := @Texts.text false _ _ _ _ _ _ _ _ _ plain
    (.gap rfl (.text raw (.gap rfl (.text format .done))))
  exact ⟨run, fun inner here => (adjacent_literals run (by simp)).2.1 inner [] here (by simp)⟩

def callsText (text : String) : List Stmt → Bool
  | [.mk _ (.expr (.call (.str callee) _))] => callee == text
  | _ => false

/-- `'a' f'\x7bx\x7d'` calls the text, and with the literals the other way round it is no program. -/
theorem spliced_literal_called :
    (parse "'a' f'\x7bx\x7d'\n").toOption.any (callsText "a") = true ∧
      (parse "f'\x7bx\x7d' 'a'\n").toOption.isNone = true := by
  decide +kernel

end EmbedScript
