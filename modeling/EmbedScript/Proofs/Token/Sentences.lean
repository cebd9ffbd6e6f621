import EmbedScript.Proofs.Token.Boundary
import EmbedScript.Proofs.Token.Nesting
import Mathlib.Data.List.TakeWhile

/-!
Statements as stretches of text. `Lexer.sentences` cuts a text into statements by its lexemes alone,
and the statements of an accepted source are its sentences.
-/

namespace EmbedScript

open List Lexeme

-- The characters of a lexeme

def Text.Advances (cs : List Char) (line : Nat) (rest : List Char) (stop : Nat) : Prop :=
  ∃ text, cs = text ++ rest ∧ stop = line + text.count '\n'

namespace Text.Advances

variable {after : List Char}

theorem refl (cs : List Char) (line : Nat) : Advances cs line cs line := ⟨[],rfl,rfl⟩

theorem trans {next} (first : Advances cs line rest next) (second : Advances rest next after stop) :
    Advances cs line after stop := by
  obtain ⟨text,rfl,rfl⟩ := first
  obtain ⟨further,rfl,rfl⟩ := second
  exact ⟨text ++ further,by rw [append_assoc],by rw [count_append,Nat.add_assoc]⟩

theorem plain (other : c ≠ '\n') (onward : Advances cs line rest stop) : Advances (c :: cs) line rest stop := by
  obtain ⟨text,rfl,rfl⟩ := onward
  exact ⟨c :: text,rfl,by rw [count_cons_of_ne other]⟩

theorem one (c : Char) (cs : List Char) (line : Nat) : Advances (c :: cs) line cs (if c == '\n' then line + 1 else line) := by
  refine ⟨[c],rfl,?_⟩
  by_cases feed : c = '\n' <;> simp [feed]

theorem drop (stops : p '\n' = false) (cs : List Char) (line : Nat) :
    Advances cs line (cs.dropWhile p) line := by
  induction cs with
  | nil => exact refl [] line
  | cons c cs ih =>
    rw [dropWhile_cons]
    split
    · next dropped => exact plain (by rintro rfl; rw [stops] at dropped; contradiction) ih
    · exact refl _ line

end Text.Advances

namespace Lexeme

open Text

def StringStep.Reaches (line : Nat) : StringStep → Prop
  | .ends stop _ => ∀ n, stop = .ok n → n = line
  | .more r _ => r.line = line

theorem Reading.escape_line (r : Reading) (c : Char) : (r.escape c).line = if c == '\n' then r.line + 1 else r.line := by
  unfold Reading.escape
  by_cases feed : c = '\n'
  · subst feed
    rfl
  · have other : (c == '\n') = false := beq_false_of_ne feed
    simp only [other]
    repeat' split
    all_goals first | rfl | contradiction

theorem stringStep_advances (mark : q.quote ≠ '\n') (r : Reading) (c : Char) (cs : List Char) :
    ∃ line, Advances (c :: cs) r.line (stringStep q r (c :: cs)).rest line ∧ (stringStep q r (c :: cs)).Reaches line := by
  have fails (e : LexError) : ∃ line, Advances (c :: cs) r.line cs line ∧ (StringStep.ends (.error e) cs).Reaches line := by
    refine ⟨_,Advances.one c cs r.line,fun _ ends => ?_⟩
    cases ends
  simp only [stringStep]
  by_cases feed : c = '\n'
  · subst feed
    have other : ('\n' == q.quote) = false := beq_false_of_ne mark.symm
    cases r.splice with
    | some s => exact fails _
    | none =>
      simp only [other]
      cases q.triple with
      | false => exact fails _
      | true => exact ⟨_,.one '\n' cs r.line,rfl⟩
  have here {rest} (onward : Advances cs r.line rest r.line) : Advances (c :: cs) r.line rest r.line :=
    .plain feed onward
  have doubled {d} (again : cs.head? == some d) (plain : d ≠ '\n') : Advances cs r.line cs.tail r.line := by
    obtain ⟨tail,rfl⟩ := head?_eq_some_iff.mp (eq_of_beq again)
    exact .plain plain (.refl tail r.line)
  cases r.splice with
  | some s =>
    simp only
    repeat' split
    all_goals first | exact fails _ | exact ⟨r.line,here (.refl cs r.line),rfl⟩
  | none =>
    simp only
    split
    · split
      · exact ⟨r.line,here (.refl cs r.line),fun _ ends => (Except.ok.inj ends).symm⟩
      split
      · next closing =>
        refine ⟨r.line,here ?_,fun _ ends => (Except.ok.inj ends).symm⟩
        have front : cs = q.quote :: q.quote :: cs.drop 2 := by
          rw [← take_append_drop 2 cs,eq_of_beq closing]
          simp
        nth_rewrite 1 [front]
        exact .plain mark (.plain mark (.refl _ r.line))
      · exact ⟨r.line,here (.refl cs r.line),rfl⟩
    split
    · exact fails _
    split
    · cases cs with
      | nil => exact ⟨r.line,here (.refl [] r.line),fun _ ends => by cases ends⟩
      | cons e tail => exact ⟨_,.plain feed (.one e tail r.line),r.escape_line e⟩
    split
    · split
      · next again => exact ⟨r.line,here (doubled again (by decide)),rfl⟩
      · exact ⟨r.line,here (.refl cs r.line),rfl⟩
    split
    · refine ⟨r.line,here ?_,rfl⟩
      split
      · next again => exact doubled again (by decide)
      · exact .refl cs r.line
    · exact ⟨_,.one c cs r.line,rfl⟩

-- A literal that closes knows the line of its closing quote. By induction on the length of the text.
theorem readString_advances (mark : q.quote ≠ '\n') (r : Reading) (cs : List Char) :
    ∃ line, Advances cs r.line (readString q r cs).2.2 line ∧ ∀ stop, (readString q r cs).2.1 = .ok stop → stop = line := by
  induction length : cs.length using Nat.strongRecOn generalizing r cs with
  | ind n ih =>
  cases cs with
  | nil => exact ⟨r.line,by rw [readString_eq]; exact .refl [] r.line,by rw [readString_eq]; exact nofun⟩
  | cons c cs =>
    rw [readString_eq]
    obtain ⟨line,advances,reaches⟩ := stringStep_advances mark r c cs
    cases taken : stringStep q r (c :: cs) with
    | ends stop rest =>
      rw [taken] at advances reaches
      exact ⟨line,advances,reaches⟩
    | more next rest =>
      rw [taken] at advances reaches
      obtain ⟨stop,onward,stops⟩ := ih rest.length (length ▸ stringStep_shorter taken) next rest rfl
      exact ⟨stop,advances.trans (reaches ▸ onward),stops⟩

def MayHoldDot : Lexeme → Prop
  | .dot | .number .. | .str .. | .gap | .joint => True
  | .lambda params _ => '.' ∈ params
  | _ => False

def Covers (cs : List Char) (line : Nat) (found : Lexeme × List Char) : Prop :=
  ∃ stop, Advances cs line found.2 stop ∧ (found.1.breaks = false → found.1.lineAfter line = stop) ∧
    ∀ text, cs = text ++ found.2 → '.' ∈ text → found.1.MayHoldDot

theorem readLiteral_dot (quote : Char) (format raw : Bool) (line : Nat) (cs : List Char) :
    (readLiteral quote format raw line cs).1.MayHoldDot := by
  rw [readLiteral_eq]
  split <;> trivial

theorem readLiteral_covers (mark : quote ≠ '\n') (format raw : Bool) (line : Nat)
    (cs : List Char) : Covers cs line (readLiteral quote format raw line cs) := by
  have covers (triple : Bool) {body} (opens : Advances cs line body line) :
      Covers cs line (literal ⟨quote,triple,format,raw,line⟩ { line } body) := by
    obtain ⟨stop,advances,stops⟩ := readString_advances (q := ⟨quote,triple,format,raw,line⟩) mark { line } body
    refine ⟨stop,opens.trans advances,?_,fun _ _ _ => trivial⟩
    simp only [literal]
    cases closes : (readString ⟨quote,triple,format,raw,line⟩ { line } body).2.1 with
    | error e =>
      intro refused
      cases refused
    | ok n => exact fun _ => stops n closes
  rw [readLiteral_eq]
  split
  · next long =>
    refine covers true ?_
    have front : cs = quote :: quote :: cs.drop 2 := by
      rw [← take_append_drop 2 cs,eq_of_beq long]
      simp
    nth_rewrite 1 [front]
    exact .plain mark (.plain mark (.refl _ line))
  · exact covers false (.refl cs line)

theorem readNumber_advances (float : Bool) (cs : List Char) (line : Nat) : Advances cs line (readNumber float cs).2.2 line := by
  have plain {c number} (holds : number = true) (feed : c = '\n' → number = false)
      {cs rest} (onward : Advances cs line rest line) : Advances (c :: cs) line rest line := by
    refine .plain (fun same => ?_) onward
    rw [feed same] at holds
    contradiction
  fun_induction readNumber float cs
  case case1 => exact .refl [] line
  case case2 digit _ _ _ read ih =>
    rw [read] at ih
    exact plain digit (by rintro rfl; rfl) ih
  case case3 point _ _ _ read ih =>
    rw [read] at ih
    exact plain point (by rintro rfl; rfl) ih
  case case4 exponent _ _ power _ _ _ read _ ih =>
    rw [read] at ih
    exact plain exponent (by rintro rfl; rfl) (plain power (by rintro rfl; rfl) ih)
  all_goals exact .refl _ line

theorem readLambda_covers (cs : List Char) (line : Nat) : Covers cs line (readLambda cs) := by
  have behind := Advances.drop (p := fun c => c != ':' && c != '\n') rfl cs line
  have parts := takeWhile_append_dropWhile (p := fun c => c != ':' && c != '\n') (l := cs)
  unfold readLambda
  split
  · next after found =>
    rw [found] at behind parts
    refine ⟨line,behind.trans (.plain (by decide) (.refl after line)),fun _ => rfl,fun text whole dot => ?_⟩
    rw [append_cons] at parts
    rw [← append_cancel_right (parts.trans whole)] at dot
    exact (mem_append.mp dot).resolve_right (by decide)
  · exact ⟨line,behind,fun _ => rfl,fun text whole dot => append_cancel_right (parts.trans whole) ▸ dot⟩

theorem readWord_covers (member : Bool) (line : Nat) (text cs : List Char) : Covers cs line (readWord member line text cs) := by
  have here : Covers cs line (.word text,cs) := by
    refine ⟨line,.refl cs line,fun _ => rfl,fun text whole dot => ?_⟩
    rw [self_eq_append_left.mp whole] at dot
    contradiction
  unfold readWord
  split
  · exact here
  split
  · exact readLambda_covers cs line
  split
  · next quote tail format raw mark =>
    split
    · next quoted =>
      have plain : quote ≠ '\n' := by
        rintro rfl
        contradiction
      obtain ⟨stop,advances,stops,-⟩ := readLiteral_covers plain format raw line tail
      exact ⟨stop,.plain plain advances,stops,fun _ _ _ => readLiteral_dot ..⟩
    · exact here
  · exact here

theorem operators_spelled : ∀ o ∈ operators, o.1.toList ≠ [] ∧ '.' ∉ o.1.toList := by decide

theorem operator?_spelled
    (read : operator? c cs = some (o,augmented,rest)) : ∃ entry ∈ operators, c :: cs = entry.1.toList ++ rest := by
  obtain ⟨entry,found,same⟩ := Option.map_eq_some_iff.mp read
  obtain ⟨-,-,rfl⟩ := Prod.mk.inj same |>.imp id Prod.mk.inj
  have listed := mem_of_find?_eq_some found
  have fits : entry.1.toList.isPrefixOf (c :: cs) := by simpa using find?_some found
  obtain ⟨tail,spells⟩ := isPrefixOf_iff_prefix.mp fits
  refine ⟨entry,listed,?_⟩
  cases text : entry.1.toList with
  | nil => exact absurd text (operators_spelled entry listed).1
  | cons d ds =>
    rw [text,cons_append] at spells
    obtain ⟨rfl,rfl⟩ := List.cons.inj spells
    have size : entry.1.length - 1 = ds.length := by
      rw [← String.length_toList,text]
      rfl
    rw [size,drop_left,cons_append]

theorem read_covers (member : Bool) (line : Nat) (c : Char) (cs : List Char) : Covers (c :: cs) line (read member line c cs) := by
  unfold read
  cases single : single? c with
  | some lexeme =>
    refine ⟨_,.one c cs line,fun _ => ?_,fun text whole dot => ?_⟩
    · unfold single? at single
      split at single <;> cases single <;> rfl
    · obtain rfl : [c] = text := append_cancel_right whole
      obtain rfl := mem_singleton.mp dot
      cases single
      trivial
  | none =>
    have plain : c ≠ '\n' := by
      rintro rfl
      contradiction
    have other : '.' ≠ c := by
      rintro rfl
      contradiction
    simp only
    split
    · exact ⟨line,.plain plain (.drop rfl cs line),fun _ => rfl,fun _ _ _ => trivial⟩
    split
    · next joined =>
      obtain ⟨-,feed⟩ := (Bool.and_eq_true _ _).mp joined
      obtain ⟨tail,rfl⟩ := head?_eq_some_iff.mp (eq_of_beq feed)
      exact ⟨line + 1,.plain plain (.one '\n' tail line),fun _ => rfl,fun _ _ _ => trivial⟩
    split
    · obtain ⟨stop,advances,stops,-⟩ := readLiteral_covers plain false false line cs
      exact ⟨stop,.plain plain advances,stops,fun _ _ _ => readLiteral_dot ..⟩
    split
    · exact ⟨line,.plain plain (readNumber_advances false cs line),fun _ => rfl,fun _ _ _ => trivial⟩
    split
    · obtain ⟨stop,advances,stops,dots⟩ := readWord_covers member line (c :: cs.takeWhile isWordChar) (cs.dropWhile isWordChar)
      refine ⟨stop,.plain plain ((Advances.drop (by decide) cs line).trans advances),stops,fun text whole dot => ?_⟩
      obtain ⟨further,spelled,-⟩ := advances
      have parts := takeWhile_append_dropWhile (p := isWordChar) (l := cs)
      rw [spelled,← append_assoc] at parts
      obtain rfl : c :: (cs.takeWhile isWordChar ++ further) = text := append_cancel_right ((congrArg (c :: ·) parts).trans whole)
      rw [mem_cons,mem_append] at dot
      refine dots further spelled ((dot.resolve_left other).resolve_left fun inside => ?_)
      exact absurd (mem_takeWhile_imp inside) (by decide +kernel)
    split
    · next found =>
      obtain ⟨entry,listed,spelled⟩ := operator?_spelled found
      refine ⟨line,⟨_,spelled,by rw [count_eq_zero.mpr (operators_unbroken entry listed)]; rfl⟩,
        fun _ => rfl,fun text whole dot => ?_⟩
      rw [← append_cancel_right (spelled.symm.trans whole)] at dot
      exact absurd dot (operators_spelled entry listed).2
    · refine ⟨line,.plain plain (.refl cs line),fun _ => rfl,fun text whole dot => ?_⟩
      obtain rfl : [c] = text := append_cancel_right whole
      exact absurd (mem_singleton.mp dot) other

end Lexeme

structure Spelling where
  before : List Char
  text : List Char
  lexeme : Lexeme

def Spelling.Spells (first : Nat) (whole : List Char) (p : Spelling) : Prop :=
  ∃ member c rest after, whole = p.before ++ c :: rest ∧ c :: rest = p.text ++ after ∧
    read member (first + p.before.count '\n') c rest = (p.lexeme,after)

namespace Lexer

/-- The lexemes of `cs`, which stands behind `before` in a text that begins on line `first`. A dot waits
there if `member`, and `depth` brackets are open. -/
def lexemes (first : Nat) (member : Bool) (depth : Nat) (before cs : List Char) : List Spelling :=
  match cs with
  | [] => []
  | c :: rest =>
    match _read : read member (first + before.count '\n') c rest with
    | (lexeme,after) =>
      let text := (c :: rest).take (rest.length + 1 - after.length)
      ⟨before,text,lexeme⟩ :: lexemes first (lexeme.awaits member depth) (lexeme.nesting depth) (before ++ text) after
termination_by cs.length
decreasing_by
  have shorter := read_length member (first + before.count '\n') c rest
  rw [_read] at shorter
  exact Nat.lt_succ_of_le shorter

/-- The sentences that the lexemes make, if `depth` brackets are open and `gathered` is what the sentence
has so far, last first. -/
def cut (depth : Nat) (gathered : List Spelling) : List Spelling → List (List Spelling)
  | [] => if gathered.isEmpty then [] else [gathered.reverse]
  | p :: ps =>
    if p.lexeme.isEnd && depth == 0 then
      (if gathered.isEmpty then [] else [gathered.reverse]) ++ cut 0 [] ps
    else if p.lexeme.isBlank then cut depth gathered ps
    else cut (p.lexeme.nesting depth) (p :: gathered) ps

def sentences (first : Nat) (cs : List Char) : List (List Spelling) := cut 0 [] (lexemes first false 0 [] cs)

variable {after : List Char}

theorem lexemes_cons (read : read member (first + before.count '\n') c cs = (lexeme,after))
    (whole : c :: cs = text ++ after) : lexemes first member depth before (c :: cs) = ⟨before,text,lexeme⟩ ::
        lexemes first (lexeme.awaits member depth) (lexeme.nesting depth) (before ++ text) after := by
  have spelled : (c :: cs).take (cs.length + 1 - after.length) = text := by
    rw [← length_cons,whole,length_append,Nat.add_sub_cancel,take_left]
  rw [lexemes]
  split
  next lexeme' after' read' =>
  obtain ⟨rfl,rfl⟩ := Prod.mk.inj (read.symm.trans read')
  rw [spelled]

theorem lexemes_spells (found : p ∈ lexemes first member depth before cs) : p.Spells first (before ++ cs) := by
  induction length : cs.length using Nat.strongRecOn generalizing member depth before cs with
  | ind n ih =>
  cases cs with
  | nil =>
    rw [lexemes] at found
    contradiction
  | cons c cs =>
    rcases read : read member (first + before.count '\n') c cs with ⟨lexeme,after⟩
    have shorter := read_length member (first + before.count '\n') c cs
    obtain ⟨_,⟨text,whole,-⟩,-⟩ := read_covers member (first + before.count '\n') c cs
    rw [read] at shorter whole
    rw [lexemes_cons read whole] at found
    rcases mem_cons.mp found with rfl | found
    · exact ⟨member,c,cs,after,rfl,whole,read⟩
    · rw [whole,← append_assoc]
      exact ih after.length (length ▸ Nat.lt_succ_of_le shorter) found rfl

theorem cut_mem (found : sentence ∈ cut depth gathered ps) (inside : p ∈ sentence) : p ∈ gathered ∨ p ∈ ps := by
  have flushed {gathered : List Spelling}
      (found : sentence ∈ if gathered.isEmpty then [] else [gathered.reverse]) : p ∈ gathered := by
    split at found
    · contradiction
    · obtain rfl := mem_singleton.mp found
      exact mem_reverse.mp inside
  induction ps generalizing depth gathered with
  | nil => exact .inl (flushed found)
  | cons q ps ih =>
    rw [cut] at found
    split at found
    · rcases mem_append.mp found with found | found
      · exact .inl (flushed found)
      · exact .inr (.tail _ ((ih found).resolve_left not_mem_nil))
    split at found
    · exact (ih found).imp_right (mem_cons_of_mem q)
    · rcases ih found with found | found
      · exact (mem_cons.mp found).symm.imp_right fun same : p = q => same ▸ mem_cons_self
      · exact .inr (.tail _ found)

theorem sentences_spells (found : sentence ∈ sentences first cs)
    (inside : p ∈ sentence) : p.Spells first cs :=
  lexemes_spells ((cut_mem found inside).resolve_left not_mem_nil)

-- Blank lines

def Skips (first : Nat) (before cs before' cs' : List Char) : Prop :=
  ∃ ps, lexemes first false 0 before cs = ps ++ lexemes first false 0 before' cs' ∧ ∀ p ∈ ps, p.lexeme.isBlank

theorem Skips.cut_eq (skips : Skips first before cs before' cs') :
    cut 0 [] (lexemes first false 0 before cs) = cut 0 [] (lexemes first false 0 before' cs') := by
  obtain ⟨ps,found,blank⟩ := skips
  rw [found]
  clear found
  induction ps with
  | nil => rfl
  | cons p ps ih =>
    obtain ⟨first,blank⟩ := forall_mem_cons.mp blank
    rw [cons_append,cut,ih blank]
    split <;> rfl

theorem Skips.refl (first : Nat) (before cs : List Char) : Skips first before cs before cs := ⟨[],rfl,nofun⟩

theorem Skips.trans (one : Skips first before cs mid mid')
    (two : Skips first mid mid' before' cs') : Skips first before cs before' cs' := by
  obtain ⟨ps,found,blank⟩ := one
  obtain ⟨qs,further,blank'⟩ := two
  refine ⟨ps ++ qs,by rw [found,further,append_assoc],fun p inside => ?_⟩
  exact (mem_append.mp inside).elim (blank p) (blank' p)

theorem indentation_blank_lexeme (passed : isPassed c) (line : Nat) (indent cs : List Char) (start : Nat) :
    (read false start c cs).1.isBlank ∧ ∃ indent', indentation false line indent (c :: cs) =
      indentation false ((read false start c cs).1.lineAfter line) indent' (read false start c cs).2 := by
  simp only [isPassed,Bool.or_eq_true,beq_iff_eq] at passed
  rcases passed with (((rfl | rfl) | rfl) | rfl) | rfl
  · exact ⟨rfl,[],rfl⟩
  · exact ⟨rfl,' ' :: indent,rfl⟩
  · exact ⟨rfl,'\t' :: indent,rfl⟩
  · exact ⟨rfl,indent,rfl⟩
  · exact ⟨rfl,indent,indentation_comment line indent cs⟩

theorem skips_blank (read : read false (first + before.count '\n') c cs = (lexeme,after))
    (blank : lexeme.isBlank) : ∃ before', Skips first before (c :: cs) before' after ∧
      lexeme.lineAfter (first + before.count '\n') = first + before'.count '\n' := by
  obtain ⟨_,⟨text,whole,rfl⟩,stops,-⟩ := read_covers false (first + before.count '\n') c cs
  rw [read] at whole stops
  have open' : lexeme.awaits false 0 = false ∧ lexeme.nesting 0 = 0 ∧ lexeme.breaks = false := by
    cases lexeme <;> first | exact ⟨rfl,rfl,rfl⟩ | cases blank
  refine ⟨before ++ text,⟨[⟨before,text,lexeme⟩],?_,?_⟩,?_⟩
  · rw [lexemes_cons read whole,open'.1,open'.2.1]
    rfl
  · exact forall_mem_singleton.mpr blank
  · rw [stops open'.2.2,count_append,Nat.add_assoc]

-- Where the next line starts, all in front of it is blank. By induction on the length of the text.
theorem indentation_skips {next}
    (skipped : indentation false (first + before.count '\n') indent cs = (stop,next,after)) :
    ∃ before', Skips first before cs before' after ∧ stop = first + before'.count '\n' := by
  induction length : cs.length using Nat.strongRecOn generalizing before indent cs with
  | ind n ih =>
  cases cs with
  | nil =>
    obtain ⟨rfl,-,rfl⟩ := Prod.mk.inj skipped |>.imp id Prod.mk.inj
    exact ⟨before,.refl ..,rfl⟩
  | cons c cs =>
    cases passed : isPassed c with
    | false =>
      rw [indentation_visible passed] at skipped
      obtain ⟨rfl,-,rfl⟩ := Prod.mk.inj skipped |>.imp id Prod.mk.inj
      exact ⟨before,.refl ..,rfl⟩
    | true =>
      obtain ⟨blank,indent',pass⟩ :=
        indentation_blank_lexeme passed (first + before.count '\n') indent cs (first + before.count '\n')
      have shorter := read_length false (first + before.count '\n') c cs
      rcases read : read false (first + before.count '\n') c cs with ⟨lexeme,rest⟩
      rw [read] at blank pass shorter
      obtain ⟨mid,skips,moved⟩ := skips_blank read blank
      rw [pass,moved] at skipped
      obtain ⟨before',further,stands⟩ := ih _ (length ▸ Nat.lt_succ_of_le shorter) skipped rfl
      exact ⟨before',skips.trans further,stands⟩

end Lexer

-- Gathering a statement

inductive Scanner.Gathers (lines : Lexer.Reader) (first : Nat) : List Spelling → Scanner → Prop where
  | idle {s : Scanner} : s.fresh → s.member = false → Gathers lines first [] s
  | blank {ps : List Spelling} {s : Scanner} (line : Nat) : Gathers lines first ps s →
      Gathers lines first ps { s with line }
  | take {ps : List Spelling} {s t : Scanner} {p : Spelling} : Gathers lines first ps s →
      s.line = first + p.before.count '\n' → t.line = s.line + p.text.count '\n' →
      p.lexeme.isBlank = false → s.Takes lines p.lexeme t → Gathers lines first (p :: ps) t

def Head.Gathered (lines : Lexer.Reader) (first : Nat) (h : Head) (sentence : List Spelling) : Prop :=
  ∃ s : Scanner, s.Gathers lines first sentence.reverse ∧ s.groups = [] ∧ s.takeHead.1 = some h

namespace Scanner

variable {s : Scanner}

theorem Gathers.fresh_eq (gathers : s.Gathers lines first ps) : s.fresh = ps.isEmpty := by
  induction gathers with
  | idle fresh => exact fresh
  | blank line _ ih => exact ih
  | take _ _ _ visible takes _ => exact (takes.start visible).1

theorem takeHead_fresh (outside : s.groups = []) : s.takeHead.1 =
    if s.fresh then none else some ⟨s.statementLine,s.keyword,s.tokens.reverse⟩ := by
  rw [takeHead_head,fresh,outside]
  rfl

theorem Gathers.ended (gathers : s.Gathers lines first ps) (outside : s.groups = []) :
    Forall₂ (Head.Gathered lines first) s.takeHead.1.toList (if ps.isEmpty then [] else [ps.reverse]) := by
  have head := takeHead_fresh outside
  rw [gathers.fresh_eq] at head
  split
  · next empty =>
    rw [head,if_pos empty]
    exact .nil
  · next some =>
    rw [if_neg some] at head
    rw [head]
    refine .cons ⟨s,?_,outside,head⟩ .nil
    rwa [reverse_reverse]

end Scanner

-- The statements of a source

namespace Lexer

variable {s : Scanner} {after : List Char}

theorem lexemes_read (stands : s.line = first + before.count '\n')
    (read : read s.member s.line c cs = (lexeme,after)) (whole : lexeme.breaks = false) :
    ∃ text, lexemes first s.member s.groups.length before (c :: cs) = ⟨before,text,lexeme⟩ ::
        lexemes first (lexeme.awaits s.member s.groups.length) (lexeme.nesting s.groups.length) (before ++ text) after ∧
      lexeme.lineAfter s.line = s.line + text.count '\n' := by
  obtain ⟨_,⟨text,spelled,rfl⟩,stops,-⟩ := read_covers s.member s.line c cs
  rw [read] at spelled stops
  exact ⟨text,lexemes_cons (stands ▸ read) spelled,stops whole⟩

theorem take_whole (taken : s.take lines lexeme = .ok t) : lexeme.breaks = false := by
  cases breaks : lexeme.breaks with
  | false => rfl
  | true =>
    obtain ⟨e,refused⟩ := take_breaks lines s breaks
    rw [refused] at taken
    cases taken

theorem onward_skips {next} (isEnd : lexeme.isEnd) (goesOn : onward lexeme s.line after = (line,next))
    (moved : lexeme.lineAfter s.line = first + before.count '\n') :
    ∃ before', Skips first before after before' next ∧ line = first + before'.count '\n' := by
  cases lexeme with
  | newline =>
    rcases skipped : indentation false (s.line + 1) [] after with ⟨stop,indent,rest⟩
    obtain ⟨rfl,rfl⟩ := Prod.mk.inj ((onward_newline skipped).symm.trans goesOn)
    rw [show s.line + 1 = _ from moved] at skipped
    exact indentation_skips skipped
  | semicolon | colon =>
    obtain ⟨rfl,rfl⟩ := Prod.mk.inj goesOn
    exact ⟨before,.refl ..,moved⟩
  | _ => cases isEnd

theorem lexemes_end {next} (outside : s.groups = []) (isEnd : lexeme.isEnd) (stands : s.line = first + before.count '\n')
    (read : read s.member s.line c cs = (lexeme,after)) (goesOn : onward lexeme s.line after = (line,next)) :
    ∃ p mid before', p.lexeme = lexeme ∧
      lexemes first s.member 0 before (c :: cs) = p :: lexemes first false 0 mid after ∧
      Skips first mid after before' next ∧ line = first + before'.count '\n' := by
  have left : lexeme.breaks = false ∧ lexeme.awaits s.member 0 = false ∧ lexeme.nesting 0 = 0 := by
    cases lexeme <;> first | exact ⟨rfl,rfl,rfl⟩ | exact ⟨rfl,Bool.and_false _,rfl⟩ | cases isEnd
  obtain ⟨text,found,moved⟩ := lexemes_read stands read left.1
  rw [outside,length_nil,left.2.1,left.2.2] at found
  have behind : lexeme.lineAfter s.line = first + (before ++ text).count '\n' := by rw [moved,stands,count_append,Nat.add_assoc]
  obtain ⟨before',skips,stops⟩ := onward_skips isEnd goesOn behind
  exact ⟨_,before ++ text,before',rfl,found,skips,stops⟩

theorem Delivers.sentences (delivers : Delivers lines s cs heads)
    (gathers : s.Gathers lines first ps) (stands : s.line = first + before.count '\n') :
    Forall₂ (Head.Gathered lines first) heads (cut s.groups.length ps (lexemes first s.member s.groups.length before cs)) := by
  induction delivers generalizing before ps with
  | finish outside =>
    rw [lexemes]
    exact gathers.ended outside
  | @within s t c cs after lexeme _ read within taken _ ih =>
    have takes := Scanner.take_takes within taken
    obtain ⟨awaits,nesting⟩ := Scanner.take_stands taken
    obtain ⟨text,found,moved⟩ := lexemes_read stands read (take_whole taken)
    rw [← takes.line] at moved
    have behind : t.line = first + (before ++ text).count '\n' := by rw [moved,stands,count_append,Nat.add_assoc]
    have inside : (lexeme.isEnd && s.groups.length == 0) = false := by
      rw [← within,Scanner.ends,Bool.and_comm]
      cases s.groups <;> rfl
    rw [found,cut,inside,← awaits,← nesting]
    cases blank : lexeme.isBlank with
    | true =>
      have same := takes.blank_eq blank
      have level : t.groups.length = s.groups.length := by rw [same]
      rw [← level]
      exact ih (same ▸ gathers.blank _) behind
    | false => exact ih (.take gathers stands moved blank takes) behind
  | @ends s c cs after next lexeme line heads read ends goesOn _ ih =>
    obtain ⟨outside,isEnd⟩ : s.groups = [] ∧ lexeme.isEnd = true := by simpa [Scanner.ends] using ends
    obtain ⟨p,mid,before',same,found,skips,stops⟩ := lexemes_end outside isEnd stands read goesOn
    have idle : Scanner.Gathers lines first [] { s.takeHead.2 with line } :=
      .idle (by simp [Scanner.takeHead_rest,Scanner.fresh,outside]) (by rw [Scanner.takeHead_rest])
    have rest := ih idle stops
    rw [outside,length_nil,found,cut,same,isEnd,skips.cut_eq]
    refine rel_append (gathers.ended outside) ?_
    simpa [Scanner.takeHead_rest,outside] using rest

theorem tokenizeWithin_sentences {nesting}
    (accepted : tokenizeWithin (nesting + 1) source first = .ok ls) :
    Forall₂ (fun l => Head.Gathered (tokenizeWithin nesting) first l.head) (Line.preorderAll ls)
      (sentences first (Text.lineEnds source)) := by
  obtain ⟨es,line,indent,rest,rfl,skipped,nested,delivers⟩ := tokenizeWithin_complete accepted
  rw [← forall₂_map_left_iff,(Line.forest_nested nested).1]
  rw [Text.replace_returns] at skipped
  obtain ⟨before,skips,stops⟩ : ∃ before, Skips first [] _ before rest ∧ line = first + before.count '\n' :=
    indentation_skips skipped
  rw [sentences,skips.cut_eq]
  exact delivers.sentences (.idle rfl rfl) stops

end Lexer

end EmbedScript
