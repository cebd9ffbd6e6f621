import EmbedScript.Proofs.Token.Unnumbered

/-!
Readings of the same characters from states that differ only in line numbers.
-/

namespace EmbedScript

open List Lexeme Line

theorem Piece.Within.mono (le : a ≤ b) {p : Piece} (within : p.Within a) : p.Within b := by
  cases p with
  | text => trivial
  | splice => exact Nat.lt_of_lt_of_le within le

namespace Lexeme

def Quoting.bare (q : Quoting) : Quoting := { q with line := 0 }

def Splice.bare (s : Splice) : Splice := { s with line := 0 }

def Reading.bare (r : Reading) : Reading :=
  { r with line := 0, pieces := r.pieces.map Piece.bare, splice := r.splice.map Splice.bare }

def StringStep.bare : StringStep → StringStep
  | .ends stop rest => .ends (Lexer.bare (fun _ => 0) stop) rest
  | .more r rest => .more r.bare rest

variable (q : Quoting) (r : Reading)

theorem unterminated_bare : q.unterminated.bare = q.bare.unterminated := by
  simp only [Quoting.unterminated,apply_ite LexError.bare]
  rfl

theorem Splice.add_bare (s : Splice) (c : Char) (next : Option Char) :
    s.bare.add q.bare c next = Lexer.bare Splice.bare (s.add q c next) := by
  simp only [Splice.add,Splice.bare]
  cases s.inner with
  | some quote =>
    simp only [Lexer.bare,apply_ite Splice.bare]
    rfl
  | none =>
    simp only [apply_ite (Lexer.bare _)]
    rfl

theorem Reading.bare_bare : r.bare.bare = r.bare := by
  have pieces : Piece.bare ∘ Piece.bare = Piece.bare := funext Piece.bare_bare
  simp only [Reading.bare,map_map,Option.map_map,pieces]
  rfl

theorem Reading.escape_bare (c : Char) : (r.bare.escape c).bare = (r.escape c).bare := by
  unfold Reading.escape
  repeat' split
  iterate 5 exact Reading.bare_bare (r.add _)
  · exact Reading.bare_bare r
  · exact Reading.bare_bare ((r.add '\\').add c)

theorem stringStep_bare (cs : List Char) : (stringStep q.bare r.bare cs).bare = (stringStep q r cs).bare := by
  have splice : r.bare.splice = r.splice.map Splice.bare := rfl
  have more {a b} (same : a.bare = b.bare) (rest : List Char) :
      (StringStep.more a rest).bare = (StringStep.more b rest).bare := by
    rw [StringStep.bare,same,StringStep.bare]
  have unterminated (rest : List Char) : (StringStep.ends (.error q.bare.unterminated) rest).bare =
      (StringStep.ends (.error q.unterminated) rest).bare := by
    simp only [StringStep.bare,Lexer.bare,unterminated_bare]
    rfl
  cases cs with
  | nil =>
    simp only [stringStep,splice]
    cases r.splice with
    | some s => rfl
    | none => exact unterminated []
  | cons c cs =>
    simp only [stringStep]
    rw [splice]
    cases r.splice with
    | some s =>
      simp only [Option.map_some,Splice.add_bare,apply_ite StringStep.bare]
      refine ite_congr rfl (fun _ => rfl) fun _ => ite_congr rfl (fun _ => ?_) fun _ => ?_
      · exact more (Reading.bare_bare
          { line := r.line, pieces := .splice s.source.reverse s.line :: .text r.text.reverse :: r.pieces }) cs
      cases s.add q c cs.head? with
      | error e => cases e <;> rfl
      | ok next => exact more (Reading.bare_bare { r with splice := some next }) cs
    | none =>
      simp only [Option.map_none,apply_ite StringStep.bare]
      refine ite_congr rfl (fun _ => ite_congr rfl (fun _ => rfl) fun _ => ite_congr rfl (fun _ => rfl)
        fun _ => more (Reading.bare_bare (r.add c)) cs) fun _ => ite_congr rfl (fun _ => rfl) fun _ =>
        ite_congr rfl (fun _ => ?_) fun _ => ite_congr rfl (fun _ => ite_congr rfl (fun _ =>
        more (Reading.bare_bare (r.add c)) _) fun _ => ?_) fun _ => ite_congr rfl (fun _ =>
        more (Reading.bare_bare (r.add c)) _) fun _ => more (Reading.bare_bare (r.add c)) cs
      · cases cs with
        | nil => exact unterminated []
        | cons e tail => exact more (r.escape_bare e) tail
      · exact more (Reading.bare_bare { r with splice := some ⟨[],r.line,0,none⟩ }) cs

theorem readString_bare {r r'} (quoting : q.bare = q'.bare) (same : r.bare = r'.bare) (cs : List Char) :
    (readString q r cs).1.map Piece.bare = (readString q' r' cs).1.map Piece.bare ∧
      Lexer.bare (fun _ => 0) (readString q r cs).2.1 = Lexer.bare (fun _ => 0) (readString q' r' cs).2.1 ∧
      (readString q r cs).2.2 = (readString q' r' cs).2.2 := by
  induction length : cs.length using Nat.strongRecOn generalizing r r' cs with
  | ind n ih =>
  have step : (stringStep q r cs).bare = (stringStep q' r' cs).bare := by rw [← stringStep_bare,quoting,same,stringStep_bare]
  rw [readString_eq q r,readString_eq q' r']
  cases first : stringStep q r cs with
  | ends stop rest =>
    cases second : stringStep q' r' cs with
    | ends stop' rest' =>
      rw [first,second] at step
      obtain ⟨ends,rfl⟩ := StringStep.ends.inj step
      refine ⟨?_,ends,rfl⟩
      have parts := congrArg Reading.pieces same
      have texts := congrArg Reading.text same
      simp only [Reading.bare] at parts texts
      simp [Reading.close,parts,texts]
    | more next' rest' =>
      rw [first,second] at step
      cases step
  | more next rest =>
    cases second : stringStep q' r' cs with
    | ends stop' rest' =>
      rw [first,second] at step
      cases step
    | more next' rest' =>
      rw [first,second] at step
      obtain ⟨alike,rfl⟩ := StringStep.more.inj step
      exact ih rest.length (length ▸ stringStep_shorter first) alike rest rfl

theorem read_bare (member : Bool) (c : Char) (cs : List Char) (line line' : Nat) :
    (read member line c cs).1.bare = (read member line' c cs).1.bare ∧
      (read member line c cs).2 = (read member line' c cs).2 := by
  rcases read_cases member c cs with ⟨lexeme,rest,-,always⟩ | ⟨quote,format,raw,tail,-,always⟩
  · rw [always,always]
    exact ⟨rfl,rfl⟩
  · have alike (triple : Bool) (body : List Char) : (literal ⟨quote,triple,format,raw,line⟩ { line } body).1.bare =
            (literal ⟨quote,triple,format,raw,line'⟩ { line := line' } body).1.bare ∧
          (literal ⟨quote,triple,format,raw,line⟩ { line } body).2 =
            (literal ⟨quote,triple,format,raw,line'⟩ { line := line' } body).2 := by
      obtain ⟨parts,ends,rest⟩ := @readString_bare ⟨quote,triple,format,raw,line⟩
        ⟨quote,triple,format,raw,line'⟩ { line } { line := line' } rfl rfl body
      simp only [literal,bare,parts,ends,rest,and_self]
    rw [always,always,readLiteral_eq,readLiteral_eq]
    split <;> exact alike ..

theorem isNewline_bare (lexeme : Lexeme) : lexeme.bare.isNewline = lexeme.isNewline := by cases lexeme <;> rfl

end Lexeme

-- Line ends

namespace Text

def lineEnds : List Char → List Char
  | [] => []
  | c :: cs => if c == '\r' && cs.head? == some '\n' then lineEnds cs else c :: lineEnds cs

theorem joinWith_splitFrom_returns (piece cs : List Char) :
    joinWith ['\n'] (splitFrom ['\r','\n'] none 0 piece cs) = piece.reverse ++ lineEnds cs := by
  have join (first : List Char) {more} (left : more ≠ []) :
      joinWith ['\n'] (first :: more) = first ++ '\n' :: joinWith ['\n'] more := by
    cases more with
    | nil => contradiction
    | cons => simp [joinWith]
  have left (piece cs : List Char) : splitFrom ['\r','\n'] none 0 piece cs ≠ [] := by
    induction cs generalizing piece with
    | nil => simp [splitFrom]
    | cons c cs ih =>
      rw [splitFrom]
      split
      · simp
      · exact ih _
  induction length : cs.length using Nat.strongRecOn generalizing piece cs with
  | ind n ih =>
  rcases cs with _ | ⟨c,_ | ⟨d,cs⟩⟩
  · simp [splitFrom,joinWith,lineEnds]
  · simp [splitFrom,joinWith,lineEnds]
  · by_cases ends : c = '\r' ∧ d = '\n'
    · obtain ⟨rfl,rfl⟩ := ends
      have rest := ih cs.length (by simp only [← length,length_cons]; omega) [] cs rfl
      simp [splitFrom,lineEnds,join piece.reverse (left [] cs),rest]
    · have rest := ih (d :: cs).length (by simp [← length]) (c :: piece) (d :: cs) rfl
      have other : ['\r','\n'].isPrefixOf (c :: d :: cs) = false := by
        simp only [isPrefixOf,Bool.and_true,Bool.and_eq_false_iff,beq_eq_false_iff_ne]
        by_cases carriage : '\r' = c
        · exact .inr fun feed => ends ⟨carriage.symm,feed.symm⟩
        · exact .inl carriage
      have kept : (c == '\r' && (d :: cs).head? == some '\n') = false := by simpa using ends
      rw [splitFrom,other,lineEnds,kept]
      simpa using rest

theorem replace_returns (cs : List Char) : replace ['\r','\n'] ['\n'] cs none = lineEnds cs := joinWith_splitFrom_returns [] cs

theorem length_lineEnds_le (cs : List Char) : (lineEnds cs).length ≤ cs.length := by fun_induction lineEnds cs <;> simp <;> omega

end Text

namespace Lexer

def resume (lines : Reader) (f : Nat → Scanner) (line : Nat) (cs : List Char) : Except LexError (List Entry) :=
  match indentation false line [] cs with
  | (line,none,_) => (f line).finish
  | (line,some indent,rest) => do
    let t ← (f line).enterLine indent
    entries lines t rest

def proceed (lines : Reader) (s : Scanner) (lexeme : Lexeme) (rest : List Char) : Except LexError (List Entry) := do
  let t ← s.take lines lexeme
  if lexeme.isNewline && t.groups.isEmpty then resume lines (fun line => { t with line }) t.line rest
  else entries lines t rest

theorem entries_proceed (lines : Reader) (s : Scanner) (c : Char) (cs : List Char) : entries lines s (c :: cs) =
      proceed lines s (read s.member s.line c cs).1 (read s.member s.line c cs).2 := by
  rw [entries]
  split
  next lexeme rest read =>
    rw [read]
    refine congrArg _ (funext fun t => ?_)
    split
    · unfold resume
      split <;> rename_i found <;> rw [found]
    · rfl

theorem tokenizeWithin_succ (nesting : Nat) (source : List Char) (first : Nat) : tokenizeWithin (nesting + 1) source first = do
      return forest (← resume (tokenizeWithin nesting) Scanner.start first (Text.lineEnds source)) := by
  rw [tokenizeWithin,Text.replace_returns,resume]
  generalize indentation false first [] (Text.lineEnds source) = found
  obtain ⟨line,indent,rest⟩ := found
  cases indent with
  | none => rfl
  | some indent => simp only [bind_assoc]

theorem indentation_line (comment : Bool) (line line' : Nat) (indent cs : List Char) :
    (indentation comment line indent cs).2 = (indentation comment line' indent cs).2 := by
  induction cs generalizing comment line line' indent with
  | nil => rfl
  | cons c cs ih =>
    simp only [indentation,apply_ite Prod.snd]
    repeat' refine ite_congr rfl (fun _ => ih ..) fun _ => ?_
    rfl

section Agreeing

theorem Agree.right (agree : Agree n lines lines') : Agree n lines' lines' :=
  fun cs line line' short => (agree cs 0 line short).symm.trans (agree cs 0 line' short)

theorem resume_bare_of (each : ∀ rest s t, rest.length ≤ cs.length → s.bare = t.bare →
      bare (map Entry.bare) (entries lines s rest) = bare (map Entry.bare) (entries lines' t rest)) (same : ∀ line line', (f line).bare = (g line').bare) (line line' : Nat) :
    bare (map Entry.bare) (resume lines f line cs) = bare (map Entry.bare) (resume lines' g line' cs) := by
  have shorter := indentation_length false line [] cs
  have alike := indentation_line false line line' [] cs
  unfold resume
  generalize indentation false line [] cs = stopped at shorter alike ⊢
  generalize indentation false line' [] cs = stopped' at alike ⊢
  obtain ⟨stop,indent,rest⟩ := stopped
  obtain ⟨stop',indent',rest'⟩ := stopped'
  obtain ⟨rfl,rfl⟩ := Prod.mk.inj alike
  cases indent with
  | none => simp only [← Scanner.finish_bare,same stop stop']
  | some indent =>
    have entered : bare Scanner.bare ((f stop).enterLine indent) = bare Scanner.bare ((g stop').enterLine indent) := by
      rw [← Scanner.enterLine_bare,same stop stop',Scanner.enterLine_bare]
    exact bare_bind entered fun t t' _ _ alike => each rest t t' shorter alike

-- By induction on the text; both scanners take in the same lexemes.
theorem entries_bare (agree : Agree n lines lines') (short : cs.length ≤ n) (same : s.bare = t.bare) :
    bare (map Entry.bare) (entries lines s cs) = bare (map Entry.bare) (entries lines' t cs) := by
  induction length : cs.length using Nat.strongRecOn generalizing s t cs with
  | ind m ih =>
  cases cs with
  | nil => rw [entries,entries,← Scanner.finish_bare,same,Scanner.finish_bare]
  | cons c cs =>
    have waits : s.member = t.member := congrArg (·.member) same
    obtain ⟨alike,left⟩ := read_bare t.member c cs s.line t.line
    have shorter := read_length t.member t.line c cs
    have inside {line} (pieces : List Piece) (stop : Except LexError Nat)
        (literal : (read t.member line c cs).1 = .str pieces stop) : ∀ p ∈ pieces, p.Within n :=
      fun p mem => Piece.Within.mono short (read_within (Prod.ext literal rfl) p mem)
    have taken : bare Scanner.bare (s.take lines (read t.member s.line c cs).1) =
        bare Scanner.bare (t.take lines' (read t.member t.line c cs).1) := by
      rw [Scanner.take_bare agree s alike inside,same,← Scanner.take_bare agree.right t rfl inside]
    rw [entries_proceed,entries_proceed,waits,left]
    refine bare_bind taken fun u u' _ _ same => ?_
    have groups : u.groups.isEmpty = u'.groups.isEmpty := by rw [← Scanner.isEmpty_groups_bare,same,Scanner.isEmpty_groups_bare]
    rw [← isNewline_bare,alike,isNewline_bare,groups]
    simp only [length_cons] at length short
    split
    · refine resume_bare_of (fun rest s t less same => ?_) ?_ _ _
      · exact ih rest.length (by omega) (by omega) same rfl
      · exact fun _ _ => same
    · exact ih _ (by omega) (by omega) same rfl

theorem resume_bare (agree : Agree n lines lines') (short : cs.length ≤ n) (same : ∀ line line', (f line).bare = (g line').bare) (line line' : Nat) :
    bare (map Entry.bare) (resume lines f line cs) = bare (map Entry.bare) (resume lines' g line' cs) :=
  resume_bare_of (fun _ _ _ less same => entries_bare agree (Nat.le_trans less short) same) same line line'

end Agreeing

theorem bare_forest (same : bare (map Entry.bare) es = bare (map Entry.bare) es') :
    bare bareAll (do return forest (← es)) = bare bareAll (do return forest (← es')) := by
  refine bare_bind same fun es es' _ _ same => ?_
  simp only [pure,Except.pure,bare,← forest_bare,same]

-- By induction on the length of the texts: expressions in a source are shorter than the source.
theorem tokenizeWithin_agree (enough : n ≤ a) (enough' : n ≤ b) :
    Agree n (tokenizeWithin a) (tokenizeWithin b) := by
  induction n generalizing a b with
  | zero => exact fun cs _ _ short => absurd short (Nat.not_lt_zero _)
  | succ n ih =>
    intro cs line line' short
    obtain ⟨a,rfl⟩ := Nat.exists_eq_add_one_of_ne_zero (Nat.ne_of_gt (Nat.lt_of_lt_of_le n.succ_pos enough))
    obtain ⟨b,rfl⟩ := Nat.exists_eq_add_one_of_ne_zero (Nat.ne_of_gt (Nat.lt_of_lt_of_le n.succ_pos enough'))
    have agree := ih (Nat.le_of_succ_le_succ enough) (Nat.le_of_succ_le_succ enough')
    have shorter := Nat.le_trans (Text.length_lineEnds_le cs) (Nat.le_of_lt_succ short)
    rw [tokenizeWithin_succ,tokenizeWithin_succ]
    exact bare_forest (resume_bare agree shorter (f := Scanner.start) (fun _ _ => rfl) line line')

end Lexer

end EmbedScript
