import EmbedScript.Proofs.Token.Renumbering
import EmbedScript.Proofs.Token.Steps

/-!
Line boundaries at which nothing is open. No lexeme of a `Closed` text depends on what follows, so
the scanner reaches the next line in one and the same state, or breaks off before.
-/

namespace EmbedScript.Lexeme

open List

-- Lexemes in front of a line break

-- The lexeme ends inside the text whatever follows, or it is a literal still open where the text ends.
def Local (f : List Char → Lexeme × List Char) (cs : List Char) : Prop :=
  (∃ lexeme rest, rest <:+ cs ∧ ∀ further, f (cs ++ further) = (lexeme,rest ++ further)) ∨
    ∃ q r, ∀ further, f (cs ++ further) = literal q r further

variable {cs : List Char}

theorem while_append_break (stops : p '\n' = false) (broken : '\n' ∈ cs) :
    cs.dropWhile p ≠ [] ∧ ∀ further, (cs ++ further).takeWhile p = cs.takeWhile p ∧
      (cs ++ further).dropWhile p = cs.dropWhile p ++ further := by
  induction cs with
  | nil => contradiction
  | cons c cs ih =>
    cases taken : p c with
    | false => simp [taken]
    | true =>
      have other : '\n' ≠ c := by rintro rfl; simp [stops] at taken
      simpa [taken] using ih (by simpa [other] using broken)

theorem readNumber_append (float : Bool) (broken : '\n' ∈ cs) (further : List Char) : readNumber float (cs ++ further) =
      ((readNumber float cs).1,(readNumber float cs).2.1,(readNumber float cs).2.2 ++ further) ∧
    '\n' ∈ (readNumber float cs).2.2 ∧ (readNumber float cs).2.2 <:+ cs := by
  fun_induction readNumber float cs with
  | case1 => contradiction
  | case2 float c rest digit =>
    have other : c ≠ '\n' := by rintro rfl; contradiction
    rw [readNumber.eq_def]
    grind
  | case4 float c _ _ d tail power =>
    have behind : tail <:+ c :: d :: tail := ⟨[c,d],rfl⟩
    have other : c ≠ '\n' ∧ d ≠ '\n' := ⟨by rintro rfl; contradiction,by rintro rfl; contradiction⟩
    rw [readNumber.eq_def]
    grind
  | case5 =>
    rw [readNumber.eq_def]
    grind
  | case6 => grind
  -- Whether a point belongs to the number depends on what follows it.
  | case3 float c rest | case7 float c rest =>
    rw [readNumber.eq_def]
    cases rest <;> grind

theorem isPrefixOf_append_break {pat : List Char} (absent : '\n' ∉ pat) (broken : '\n' ∈ cs)
    (further : List Char) : pat.isPrefixOf (cs ++ further) = pat.isPrefixOf cs := by
  have whole := prefix_append cs further
  rw [Bool.eq_iff_iff, isPrefixOf_iff_prefix, isPrefixOf_iff_prefix]
  refine ⟨fun found => ?_,fun found => found.trans whole⟩
  exact ( prefix_or_prefix_of_prefix found whole).resolve_right fun inside => absent (inside.subset broken)

theorem operators_unbroken : ∀ o ∈ operators, '\n' ∉ o.1.toList := by decide

theorem operator?_append {c} (broken : '\n' ∈ cs) (further : List Char) :
    operator? c (cs ++ further) = (operator? c cs).map fun o => (o.1,o.2.1,o.2.2 ++ further) := by
  have spelled : (operators.find? fun o => o.1.toList.isPrefixOf (c :: (cs ++ further))) =
      operators.find? fun o => o.1.toList.isPrefixOf (c :: cs) := by
    rw [← head?_filter,← head?_filter]
    exact congrArg head? (filter_congr fun o member =>
      isPrefixOf_append_break (operators_unbroken o member) (.tail _ broken) further)
  simp only [operator?,spelled]
  cases found : operators.find? fun o => o.1.toList.isPrefixOf (c :: cs) with
  | none => rfl
  | some o =>
    have spells : o.1.toList.isPrefixOf (c :: cs) := by simpa using find?_some found
    have inside := ( isPrefixOf_iff_prefix.mp spells).length_le
    have kept : (cs ++ further).drop (o.1.length - 1) = cs.drop (o.1.length - 1) ++ further :=
      drop_append_of_le_length (Nat.sub_le_of_le_add inside)
    exact congrArg (fun rest => some (o.2.1,o.2.2,rest)) kept

theorem literal_local (mark : q.quote ≠ '\n') (r : Reading)
    (ended : cs.getLast? = some '\n') : Local (literal q r) cs := by
  rcases readString_append q r mark ended with ⟨pieces,stop,rest,suffix,read⟩ | ⟨next,read⟩
  · exact .inl ⟨.str pieces stop,rest,suffix,fun further => by simp only [literal,read]⟩
  · exact .inr ⟨q,next,fun further => by simp only [literal,read]⟩

theorem Local.suffix (inside : body <:+ cs)
    (same : ∀ further, f (cs ++ further) = g (body ++ further)) (found : Local g body) : Local f cs := by
  rcases found with ⟨lexeme,rest,suffix,read⟩ | ⟨q,r,read⟩
  · exact .inl ⟨lexeme,rest,suffix.trans inside,fun further => (same further).trans (read further)⟩
  · exact .inr ⟨q,r,fun further => (same further).trans (read further)⟩

theorem readLiteral_local (mark : quote ≠ '\n') (format raw : Bool) (line : Nat)
    (ended : cs.getLast? = some '\n') : Local (readLiteral quote format raw line) cs := by
  have opens (further : List Char) : ((cs ++ further).take 2 == [quote,quote]) = (cs.take 2 == [quote,quote]) := by
    rcases cs with _ | ⟨a,_ | ⟨b,cs⟩⟩
    · contradiction
    · obtain rfl : a = '\n' := by simpa using ended
      simp [mark.symm]
    · rfl
  by_cases long : cs.take 2 == [quote,quote]
  · have front : cs = [quote,quote] ++ cs.drop 2 := by rw [← eq_of_beq long,take_append_drop]
    have left : cs.drop 2 ≠ [] := by
      intro none
      rw [none] at front
      rw [front] at ended
      exact mark (Option.some.inj ended)
    have suffix := drop_suffix 2 cs
    refine Local.suffix suffix (fun further => ?_) (literal_local (q := ⟨quote,true,format,raw,line⟩) mark { line }
        ((getLast?_suffix suffix left).trans ended))
    rw [readLiteral_eq,opens,if_pos long]
    conv_lhs => rw [front]
    rfl
  · refine Local.suffix (suffix_refl cs) (fun further => ?_)
      (literal_local (q := ⟨quote,false,format,raw,line⟩) mark { line } ended)
    rw [readLiteral_eq,opens,if_neg long]

theorem readLambda_local (broken : '\n' ∈ cs) : Local readLambda cs := by
  obtain ⟨left,parts⟩ := while_append_break (p := fun c => c != ':' && c != '\n') rfl broken
  have suffix := dropWhile_suffix (fun c => c != ':' && c != '\n') (l := cs)
  obtain ⟨d,rest,after⟩ := exists_cons_of_ne_nil left
  generalize cs.takeWhile _ = params at parts
  rw [after] at suffix
  by_cases colon : d = ':'
  · refine .inl ⟨.lambda params true,rest,(suffix_cons d rest).trans suffix,fun further => ?_⟩
    simp only [readLambda,parts,after,colon,cons_append]
  · refine .inl ⟨.lambda params false,d :: rest,suffix,fun further => ?_⟩
    simp only [readLambda,parts,after]
    split
    case h_1 same => exact absurd (List.cons.inj same).1 colon
    case h_2 => rfl

theorem readWord_local (member : Bool) (line : Nat) (text : List Char)
    (ended : cs.getLast? = some '\n') : Local (readWord member line text) cs := by
  have word (same : ∀ further, readWord member line text (cs ++ further) = (.word text,cs ++ further)) :
      Local (readWord member line text) cs :=
    .inl ⟨.word text,cs,suffix_refl cs,same⟩
  cases cs with
  | nil => contradiction
  | cons d rest =>
    cases member with
    | true =>
      refine word fun further => ?_
      rw [readWord.eq_def,if_pos rfl]
    | false =>
      by_cases lambda : text == "lambda".toList
      · refine Local.suffix (suffix_refl _) (fun further => ?_) (readLambda_local (mem_of_getLast? ended))
        rw [readWord.eq_def,if_neg Bool.false_ne_true,if_pos lambda]
      cases mark : stringMark? text with
      | none =>
        refine word fun further => ?_
        rw [readWord.eq_def,if_neg lambda,mark]
        rfl
      | some form =>
        by_cases quote : d == '"' || d == '\''
        · have different : d ≠ '\n' := by
            rintro rfl
            contradiction
          have left : rest.getLast? = some '\n' := by
            cases rest with
            | nil => exact absurd (Option.some.inj ended) different
            | cons => exact ended
          refine Local.suffix (List.suffix_cons d rest) (fun further => ?_) (readLiteral_local different form.1 form.2 line left)
          rw [readWord.eq_def,if_neg lambda,mark]
          exact if_pos quote
        · refine word fun further => ?_
          rw [readWord.eq_def,if_neg lambda,mark]
          exact if_neg quote

theorem read_local (member : Bool) (line : Nat) (c : Char) (ended : cs.getLast? = some '\n') : Local (read member line c) cs := by
  have broken := List.mem_of_getLast? ended
  have head {rest} (left : rest ≠ []) (further : List Char) : (rest ++ further).head? = rest.head? := by
    cases rest with
    | nil => contradiction
    | cons => rfl
  have left : cs ≠ [] := List.ne_nil_of_mem broken
  unfold read
  cases single? c with
  | some lexeme => exact .inl ⟨lexeme,cs,List.suffix_refl cs,fun further => rfl⟩
  | none =>
    simp only
    split
    · obtain ⟨-,parts⟩ := while_append_break (p := (· != '\n')) rfl broken
      exact .inl ⟨.gap,_,List.dropWhile_suffix _,fun further => congrArg _ (parts further).2⟩
    cases joined : c == '\\' && cs.head? == some '\n' with
    | true =>
      refine .inl ⟨.joint,cs.drop 1,List.drop_suffix 1 cs,fun further => ?_⟩
      simp only [head left,joined]
      exact congrArg _ (List.drop_append_of_le_length (List.length_pos_iff.mpr left))
    | false =>
    by_cases quote : c == '"' || c == '\''
    · have different : c ≠ '\n' := by
        rintro rfl
        contradiction
      refine Local.suffix (List.suffix_refl cs) (fun further => ?_) (readLiteral_local different false false line ended)
      simp only [head left,joined,quote]
      rfl
    by_cases digit : c.isDigit
    · have number := readNumber_append false broken
      generalize readNumber false cs = found at number
      obtain ⟨-,after,suffix⟩ := number []
      refine .inl ⟨.number (c :: found.1) found.2.1 (!found.2.2.head?.any isWordStart),_,suffix,fun further => ?_⟩
      simp only [head left,joined,quote,digit,number,head (List.ne_nil_of_mem after)]
      rfl
    by_cases start : isWordStart c
    · obtain ⟨some,parts⟩ := while_append_break (p := isWordChar) (by decide) broken
      have suffix := List.dropWhile_suffix isWordChar (l := cs)
      refine Local.suffix suffix (fun further => ?_) (readWord_local member line (c :: cs.takeWhile isWordChar)
        ((getLast?_suffix suffix some).trans ended))
      simp only [head left,joined,quote,digit,start,parts]
      rfl
    have spelled := operator?_append (c := c) broken
    cases found : operator? c cs with
    | none =>
      refine .inl ⟨.stray c,cs,List.suffix_refl cs,fun further => ?_⟩
      simp only [head left,joined,quote,digit,start,spelled,found]
      rfl
    | some o =>
      have suffix : o.2.2 <:+ cs := by
        obtain ⟨entry,-,rfl⟩ := Option.map_eq_some_iff.mp found
        exact List.drop_suffix ..
      refine .inl ⟨.op o.1 o.2.1,o.2.2,suffix,fun further => ?_⟩
      simp only [head left,joined,quote,digit,start,spelled,found]
      rfl

end EmbedScript.Lexeme

namespace EmbedScript

open List Lexeme

/-- Nothing is open where the text ends: its lexemes end in a line break outside brackets, or one of
them is a literal that breaks off. Every lexeme is read with one more line break behind the text;
one that needs it is open. -/
inductive Closed : (member : Bool) → (depth : Nat) → List Char → Prop where
  | line {member : Bool} : Closed member 0 ['\n']
  | lexeme {member : Bool} {depth line : Nat} {c : Char} {cs rest : List Char} {lexeme : Lexeme} :
      read member line c (cs ++ ['\n']) = (lexeme,rest ++ ['\n']) →
      Closed (lexeme.awaits member depth) (lexeme.nesting depth) rest → Closed member depth (c :: cs)
  | broken {member : Bool} {depth line : Nat} {c : Char} {cs rest : List Char} {lexeme : Lexeme} :
      read member line c (cs ++ ['\n']) = (lexeme,rest ++ ['\n']) →
      lexeme.breaks → Closed member depth (c :: cs)

-- Reading up to a boundary

namespace Lexeme

theorem literal_break (q : Quoting) (r : Reading) : (literal q r ['\n']).2 = [] := by
  have short : (readString q r ['\n']).2.2.length ≤ 0 := by
    rw [readString_eq]
    have suffix := stringStep_suffix q r '\n' []
    cases taken : stringStep q r ['\n'] with
    | ends stop rest =>
      rw [taken] at suffix
      exact suffix.length_le
    | more next rest =>
      rw [taken] at suffix
      exact Nat.le_trans (readString_length q next rest) suffix.length_le
  exact eq_nil_of_length_eq_zero (Nat.le_zero.mp short)

-- A lexeme that leaves the additional line break is the same in front of anything else.
theorem read_closed (ended : (c :: cs).getLast? = some '\n')
    (found : read member line c (cs ++ ['\n']) = (lexeme,rest ++ ['\n'])) :
    rest <:+ cs ∧ ∀ further, read member line c (cs ++ further) = (lexeme,rest ++ further) := by
  cases cs with
  | nil =>
    obtain rfl : c = '\n' := by simpa using ended
    obtain ⟨rfl,alone⟩ := Prod.mk.inj found
    obtain rfl : rest = [] := by simpa using alone.symm
    exact ⟨suffix_refl [],fun further => rfl⟩
  | cons d cs =>
    have last : (d :: cs).getLast? = some '\n' := ended
    rcases read_local member line c last with ⟨lexeme',rest',suffix,read⟩ | ⟨q,r,read⟩
    · obtain ⟨rfl,same⟩ := Prod.mk.inj ((read ['\n']).symm.trans found)
      rw [append_cancel_right same] at suffix read
      exact ⟨suffix,read⟩
    · have none := literal_break q r
      rw [← read,found] at none
      simp at none

theorem read_closed_at (ended : (c :: cs).getLast? = some '\n')
    (found : read member line c (cs ++ ['\n']) = (lexeme,rest ++ ['\n'])) (line' : Nat) :
    ∃ lexeme', lexeme'.bare = lexeme.bare ∧ rest <:+ cs ∧
      ∀ further, read member line' c (cs ++ further) = (lexeme',rest ++ further) := by
  obtain ⟨alike,left⟩ := read_bare member c (cs ++ ['\n']) line' line
  rw [found] at alike left
  exact ⟨_,alike,read_closed ended (Prod.ext rfl left)⟩

theorem awaits_bare (member : Bool) (depth : Nat) (lexeme : Lexeme) :
    lexeme.bare.awaits member depth = lexeme.awaits member depth := by
  cases lexeme <;> rfl

theorem nesting_bare (depth : Nat) (lexeme : Lexeme) : lexeme.bare.nesting depth = lexeme.nesting depth := by cases lexeme <;> rfl

theorem breaks_bare (lexeme : Lexeme) : lexeme.bare.breaks = lexeme.breaks := by
  cases lexeme with
  | str pieces stop => cases stop <;> rfl
  | _ => rfl

end Lexeme

theorem Closed.ne_nil (closed : Closed member depth cs) : cs ≠ [] := by cases closed <;> exact cons_ne_nil _ _

namespace Lexer

theorem indentation_comment (line : Nat) (indent cs : List Char) :
    indentation true line indent cs = indentation false line indent (cs.dropWhile (· != '\n')) := by
  induction cs with
  | nil => rfl
  | cons c cs ih =>
    by_cases feed : c = '\n'
    · subst feed
      rfl
    · simp [indentation,feed,ih]

def isPassed (c : Char) : Bool := c == '\n' || c == ' ' || c == '\t' || c == '\r' || c == '#'

theorem indentation_visible (visible : isPassed c = false) (line : Nat) (indent cs : List Char) :
    indentation false line indent (c :: cs) = (line,some indent.reverse,c :: cs) := by
  simp only [isPassed,Bool.or_eq_false_iff] at visible
  simp [indentation,visible]

theorem indentation_passed (passed : isPassed c) (line : Nat) (indent : List Char) (first : Nat) :
    ∃ line' indent', ∀ cs, indentation false line indent (c :: cs) =
        indentation false line' indent' (read false first c cs).2 ∧
      (read false first c cs).1.awaits false 0 = false ∧
      (read false first c cs).1.nesting 0 = 0 := by
  simp only [isPassed,Bool.or_eq_true,beq_iff_eq] at passed
  rcases passed with (((rfl | rfl) | rfl) | rfl) | rfl
  · exact ⟨line + 1,[],fun cs => ⟨rfl,rfl,rfl⟩⟩
  · exact ⟨line,' ' :: indent,fun cs => ⟨rfl,rfl,rfl⟩⟩
  · exact ⟨line,'\t' :: indent,fun cs => ⟨rfl,rfl,rfl⟩⟩
  · exact ⟨line,indent,fun cs => ⟨rfl,rfl,rfl⟩⟩
  · exact ⟨line,indent,fun cs => ⟨indentation_comment line indent cs,rfl,rfl⟩⟩

-- Blank lines in front are passed over: all of the text, or up to its first visible character.
theorem indentation_closed (closed : Closed member depth cs)
    (idle : member = false) (outside : depth = 0) (ended : cs.getLast? = some '\n') (line : Nat)
    (indent : List Char) :
    (∃ line' indent' rest, rest <:+ cs ∧ Closed false 0 rest ∧
      ∀ further, indentation false line indent (cs ++ further) = (line',some indent',rest ++ further)) ∨
    ∃ line', ∀ further, indentation false line indent (cs ++ further) = indentation false line' [] further := by
  have visible {c cs} (visible : isPassed c = false) (closed : Closed false 0 (c :: cs))
      (line : Nat) (indent : List Char) :
      ∃ line' indent' rest, rest <:+ c :: cs ∧ Closed false 0 rest ∧ ∀ further,
        indentation false line indent (c :: cs ++ further) = (line',some indent',rest ++ further) :=
    ⟨line,indent.reverse,c :: cs,suffix_refl _,closed,fun further => indentation_visible visible ..⟩
  induction closed generalizing line indent with
  | line => exact .inr ⟨line + 1,fun further => rfl⟩
  | @lexeme member depth first c cs rest lexeme found closed ih =>
    subst idle outside
    cases passed : isPassed c with
    | false => exact .inl (visible passed (.lexeme found closed) line indent)
    | true =>
      obtain ⟨suffix,read⟩ := read_closed ended found
      obtain ⟨line',indent',pass⟩ := indentation_passed passed line indent first
      obtain ⟨-,awaits,nesting⟩ := pass (cs ++ ['\n'])
      rw [found] at awaits nesting
      have behind := suffix.trans (suffix_cons c cs)
      have onward (further : List Char) : indentation false line indent (c :: cs ++ further) =
          indentation false line' indent' (rest ++ further) := by
        rw [cons_append,(pass _).1,read]
      rcases ih awaits nesting ((getLast?_suffix behind closed.ne_nil).trans ended) line' indent' with
        ⟨stop,indent,after,inside,closed,stops⟩ | ⟨stop,stops⟩
      · exact .inl ⟨stop,indent,after,inside.trans behind,closed,fun further => (onward _).trans (stops _)⟩
      · exact .inr ⟨stop,fun further => (onward _).trans (stops _)⟩
  | @broken member depth first c cs rest lexeme found breaks =>
    subst idle
    cases passed : isPassed c with
    | false => exact .inl (visible passed (.broken found breaks) line indent)
    | true =>
      simp only [isPassed,Bool.or_eq_true,beq_iff_eq] at passed
      rcases passed with (((rfl | rfl) | rfl) | rfl) | rfl
      all_goals
        rw [← (Prod.mk.inj found).1] at breaks
        cases breaks

-- Arriving at the next line

variable (lines : Reader)

-- Whatever follows, reading breaks off before it or comes to the start of a line in front of it.
def Arrives (read : List Char → Except LexError (List Entry)) : Prop := (∃ e, ∀ further, read further = .error e) ∨
    ∃ (f : Nat → Scanner) (line : Nat), (∀ line line', (f line).bare = (f line').bare) ∧
      ∀ further, read further = resume lines f line further

variable {lines}

theorem resume_arrives (stands : ∀ line, (f line).Stands false 0)
    (same : ∀ line line', (f line).bare = (f line').bare) (closed : Closed false 0 cs)
    (ended : cs.getLast? = some '\n')
    (each : ∀ rest s, rest <:+ cs → Closed false 0 rest → s.Stands false 0 →
      Arrives lines fun further => entries lines s (rest ++ further)) (line : Nat) :
    Arrives lines fun further => resume lines f line (cs ++ further) := by
  rcases indentation_closed closed rfl rfl ended line [] with
    ⟨stop,indent,rest,suffix,closed,stops⟩ | ⟨stop,stops⟩
  · have step (further : List Char) : resume lines f line (cs ++ further) =
        (f stop).enterLine indent >>= fun t => entries lines t (rest ++ further) := by
      rw [resume,stops]
    simp only [step]
    cases entered : (f stop).enterLine indent with
    | error e => exact .inl ⟨e,fun further => rfl⟩
    | ok t => exact each rest t suffix closed ((stands stop).enterLine entered)
  · have step (further : List Char) : resume lines f line (cs ++ further) = resume lines f stop further := by
      rw [resume,stops,resume]
    exact .inr ⟨f,stop,same,step⟩

variable (lines) in
theorem take_breaks (s : Scanner) (breaks : lexeme.breaks) : ∃ e, s.take lines lexeme = .error e := by
  cases lexeme with
  | str pieces stop =>
    cases stop with
    | ok line => contradiction
    | error e =>
      rw [Scanner.take,Scanner.string_eq]
      cases pieces.mapM (Scanner.pieceToken lines ⟨s.line,false⟩) with
      | error e' => exact ⟨e',rfl⟩
      | ok parts => exact ⟨e,rfl⟩
  | _ => contradiction

-- By induction on the text, lexeme by lexeme.
theorem entries_arrives (stands : s.Stands member depth)
    (closed : Closed member depth cs) (ended : cs.getLast? = some '\n') :
    Arrives lines fun further => entries lines s (cs ++ further) := by
  induction length : cs.length using Nat.strongRecOn generalizing s member depth cs with
  | ind n ih =>
  have step {c cs rest lexeme}
      (read : ∀ further, read member s.line c (cs ++ further) = (lexeme,rest ++ further))
      (further : List Char) :
      entries lines s (c :: cs ++ further) = proceed lines s lexeme (rest ++ further) := by
    rw [cons_append,entries_proceed,stands.1,read]
  cases closed with
  | line =>
    cases taken : s.take lines .newline with
    | error e => cases taken
    | ok t =>
      have standing := Scanner.take_stands taken
      rw [stands.2] at standing
      have outside : t.groups.isEmpty := isEmpty_iff.mpr (eq_nil_of_length_eq_zero standing.2)
      have read (further : List Char) : read member s.line '\n' ([] ++ further) = (.newline,[] ++ further) := rfl
      refine .inr ⟨fun line => { t with line },t.line,fun _ _ => rfl,fun further => ?_⟩
      simp only [step read,proceed,taken,bind,Except.bind,outside]
      rfl
  | @lexeme _ _ first c cs rest lexeme found closed =>
    obtain ⟨lexeme',alike,suffix,read⟩ := read_closed_at ended found s.line
    rw [← awaits_bare,← nesting_bare,← alike,awaits_bare,nesting_bare] at closed
    simp only [step read,proceed]
    have behind := suffix.trans (suffix_cons c cs)
    have last := (getLast?_suffix behind closed.ne_nil).trans ended
    have shorter : rest.length < n := length ▸ Nat.lt_succ_of_le suffix.length_le
    cases taken : s.take lines lexeme' with
    | error e => exact .inl ⟨e,fun further => rfl⟩
    | ok t =>
      have standing := Scanner.take_stands taken
      rw [stands.1,stands.2] at standing
      simp only [bind,Except.bind]
      split
      · rename_i newline
        obtain ⟨ends,outside⟩ := (Bool.and_eq_true _ _).mp newline
        cases lexeme' with
        | newline =>
          have zero : depth = 0 := by
            rw [← show t.groups.length = depth from standing.2,isEmpty_iff.mp outside,length_nil]
          subst zero
          rw [show awaits member 0 .newline = false from Bool.and_false member] at standing closed
          refine resume_arrives (f := fun line => { t with line }) (fun _ => standing) (fun _ _ => rfl) closed last
            (fun after u inside closed stands => ?_) t.line
          have less := Nat.lt_of_le_of_lt inside.length_le shorter
          exact ih after.length less stands closed ((getLast?_suffix inside closed.ne_nil).trans last) rfl
        | _ => contradiction
      · exact ih rest.length shorter standing closed last rfl
  | @broken _ _ first c cs rest lexeme found breaks =>
    obtain ⟨lexeme',alike,-,read⟩ := read_closed_at ended found s.line
    rw [← breaks_bare,← alike,breaks_bare] at breaks
    obtain ⟨e,refused⟩ := take_breaks lines s breaks
    refine .inl ⟨e,fun further => ?_⟩
    simp only [step read,proceed,refused]
    rfl

end Lexer

end EmbedScript
