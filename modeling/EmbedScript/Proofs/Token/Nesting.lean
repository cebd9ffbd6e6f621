import EmbedScript.Proofs.Token.Blocks

/-!
One lexeme keeps the blocks sound and completes at most one statement; hence a whole run emits
entries that fit, one for each statement.
-/

namespace EmbedScript

open Entry Scanner Lexeme

variable {line : Nat}

namespace Scanner

variable {s : Scanner}

theorem take_within (within : s.ends lexeme = false) (taken : s.take lines lexeme = .ok t) : t = t.among s := by
  have same := take_among s s lines within
  rw [among_self,taken] at same
  exact Except.ok.inj same

theorem Sound.take_within (sound : s.Sound) (inline : s.Inline) (within : s.ends lexeme = false)
    (taken : s.take lines lexeme = .ok t) : t.Sound ∧ t.Inline := by
  rw [Scanner.take_within within taken]
  exact ⟨⟨sound.blocks,sound.deep,sound.room,sound.empty⟩,inline⟩

theorem Sound.take_end (sound : s.Sound) (inline : s.Inline) (ends : s.ends lexeme = true)
    (within : lexeme.isNewline = false) (taken : s.take lines lexeme = .ok t) :
    t.Sound ∧ t.Inline ∧ s.Completes s.line t := by
  obtain ⟨-,⟨rfl,-⟩ | ⟨rfl,rfl⟩ | ⟨rfl,opened⟩⟩ := take_ends ends taken
  · cases within
  · exact sound.endStatement inline
  · exact sound.openBlock opened

theorem Sound.take_newline (sound : s.Sound) (inline : s.Inline) (outside : s.groups.isEmpty = true)
    (taken : s.take lines .newline = .ok t) :
    t.Sound ∧ t.filled = false ∧ s.Completes (s.line + 1) t := by
  simp only [take,outside] at taken
  cases taken
  obtain ⟨sound,completes⟩ := (sound.move (s.line + 1)).endLine inline
  exact ⟨sound,rfl,completes.of_line⟩

theorem take_inside (within : s.ends lexeme = false) (taken : s.take lines lexeme = .ok t) :
    (lexeme.isNewline && t.groups.isEmpty) = false := by
  cases lexeme with
  | newline =>
    have inside : s.groups.isEmpty = false := by simpa [ends,isEnd] using within
    simp only [take,inside] at taken
    cases taken
    exact inside
  | _ => rfl

theorem endLine_idle (idle : s.takeHead.1 = none) : s.endLine.entries = s.entries := by
  change s.endStatement.entries = _
  rw [endStatement_eq,idle,takeHead_rest]

theorem finish_eq (finished : s.finish = .ok es) : s.groups = [] ∧ es = s.endLine.entries.reverse := by
  unfold finish at finished
  split at finished
  · cases finished
  · simp only at finished
    split at finished
    · cases finished
    · exact ⟨‹_›,(Except.ok.inj finished).symm⟩

end Scanner

namespace Lexer

theorem entries_cases (read : read s.member s.line c rest = (lexeme,after))
    (done : entries lines s (c :: rest) = .ok es) : ∃ t, s.take lines lexeme = .ok t ∧
    if lexeme.isNewline && t.groups.isEmpty then
      match indentation false t.line [] after with
      | (line,none,_) => finish { t with line } = .ok es
      | (line,some indent,rest) => ∃ u, enterLine { t with line } indent = .ok u ∧ entries lines u rest = .ok es
    else entries lines t after = .ok es := by
  rw [entries] at done
  split at done
  next lexeme' after' read' =>
  obtain ⟨rfl,rfl⟩ := Prod.mk.inj (read.symm.trans read')
  obtain ⟨t,taken,done⟩ := Except.bind_eq_ok done
  refine ⟨t,taken,?_⟩
  split at done
  · next newline =>
    rw [if_pos newline]
    split at done
    · next skipped => simpa [skipped] using done
    · next line indent rest skipped =>
      rw [skipped]
      exact Except.bind_eq_ok done
  · next within =>
    rw [if_neg within]
    exact done

-- A run of `statements` that ends outside brackets, step by step.
inductive Delivers (lines : Reader) : Scanner → List Char → List Head → Prop where
  | finish {s : Scanner} (outside : s.groups = []) : Delivers lines s [] s.takeHead.1.toList
  | within {s t : Scanner} {c : Char} {rest after : List Char} {lexeme : Lexeme} {heads : List Head}
      (read : read s.member s.line c rest = (lexeme,after)) (within : s.ends lexeme = false)
      (taken : s.take lines lexeme = .ok t) (further : Delivers lines t after heads) :
      Delivers lines s (c :: rest) heads
  | ends {s : Scanner} {c : Char} {rest after next : List Char} {lexeme : Lexeme} {line : Nat} {heads : List Head}
      (read : read s.member s.line c rest = (lexeme,after)) (ends : s.ends lexeme = true)
      (goesOn : onward lexeme s.line after = (line,next))
      (further : Delivers lines { s.takeHead.2 with line } next heads) :
      Delivers lines s (c :: rest) (s.takeHead.1.toList ++ heads)

theorem Delivers.statements (delivers : Delivers lines s cs heads) : statements lines s cs = .ok heads := by
  induction delivers with
  | finish => rw [Lexer.statements]
  | within read within taken _ ih =>
    rw [Lexer.statements]
    split
    next lexeme' after' read' =>
    obtain ⟨rfl,rfl⟩ := Prod.mk.inj (read.symm.trans read')
    simp [within,taken,ih,bind,Except.bind]
  | ends read ends goesOn _ ih =>
    rw [Lexer.statements]
    split
    next lexeme' after' read' =>
    obtain ⟨rfl,rfl⟩ := Prod.mk.inj (read.symm.trans read')
    simp [ends,goesOn,ih,bind,Except.bind,pure,Except.pure]

def Completes (lines : Reader) (s : Scanner) (cs : List Char) (es : List Entry) : Prop :=
  Nested es.reverse ∧ ∃ heads, (∀ blocks, Delivers lines (s.among blocks) cs heads) ∧
    es.map head = (s.entries.map head).reverse ++ heads

theorem completes_finish (sound : s.Sound) (inline : s.Inline) (finished : s.finish = .ok es) : Completes lines s [] es := by
  obtain ⟨outside,rfl⟩ := finish_eq finished
  obtain ⟨sound,completes⟩ := sound.endLine inline
  refine ⟨by simpa using sound.blocks.nested,s.takeHead.1.toList,?_,?_⟩
  · intro blocks
    rw [← takeHead_among s blocks]
    exact .finish outside
  · rw [List.map_reverse,completes.heads,List.reverse_append]
    cases s.takeHead.1 <;> rfl

theorem Completes.within (read : read s.member s.line c rest = (lexeme,after))
    (within : s.ends lexeme = false) (taken : s.take lines lexeme = .ok t)
    (completes : Completes lines t after es) : Completes lines s (c :: rest) es := by
  obtain ⟨nested,heads,found,eq⟩ := completes
  have same : t.entries = s.entries := by
    rw [take_within within taken]
    rfl
  refine ⟨nested,heads,?_,by rwa [← same]⟩
  intro blocks
  have takes : (s.among blocks).take lines lexeme = .ok (t.among blocks) := by
    rw [take_among s blocks lines within,taken]
    rfl
  exact .within read within takes (found blocks)

theorem Completes.ends (read : read s.member s.line c rest = (lexeme,after)) (ends : s.ends lexeme = true)
    (goesOn : onward lexeme s.line after = (line,next)) (ended : s.Completes line u)
    (completes : Completes lines u next es) : Completes lines s (c :: rest) es := by
  obtain ⟨nested,heads,found,eq⟩ := completes
  refine ⟨nested,s.takeHead.1.toList ++ heads,?_,?_⟩
  · intro blocks
    have resumes : u.among blocks = { (s.among blocks).takeHead.2 with line } := by
      rw [ended.cleared,takeHead_rest,takeHead_rest]
      rfl
    rw [← takeHead_among s blocks]
    exact .ends read ends goesOn (resumes ▸ found blocks)
  · rw [eq,ended.heads,List.reverse_append,List.append_assoc]
    cases s.takeHead.1 <;> rfl

theorem indentation_none
    (ended : indentation comment line indent cs = (stop,none,rest)) : rest = [] := by
  fun_induction indentation comment line indent cs <;> simp_all

theorem completes_idle (sound : s.Sound) (idle : s.takeHead.1 = none)
    (finished : s.finish = .ok es) : Completes lines s [] es := by
  have last := endLine_idle idle
  obtain ⟨outside,rfl⟩ := finish_eq finished
  refine ⟨by simpa [last] using sound.blocks.nested,[],?_,by simp [last]⟩
  intro blocks
  have ended : Delivers lines (s.among blocks) [] _ := .finish outside
  rwa [takeHead_among,idle] at ended

theorem onward_newline (skipped : indentation false (line + 1) [] after = (stop,indent,next)) :
    onward .newline line after = (stop,next) := by
  simp [onward,isNewline,skipped]

def Further (lines : Reader) (after : List Char) (es : List Entry) : Prop :=
  ∀ {u : Scanner} {next : List Char}, next.length ≤ after.length → u.Sound → u.Inline →
    entries lines u next = .ok es → Completes lines u next es

theorem entries_newline (sound : s.Sound) (inline : s.Inline) (read : read s.member s.line c rest = (.newline,after))
    (outside : s.groups.isEmpty = true) (taken : s.take lines .newline = .ok t)
    (further : Further lines after es) (done : match indentation false t.line [] after with
      | (line,none,_) => finish { t with line } = .ok es
      | (line,some indent,rest) => ∃ u, enterLine { t with line } indent = .ok u ∧ entries lines u rest = .ok es) :
    Completes lines s (c :: rest) es := by
  have ends : s.ends .newline = true := by simpa [ends,isEnd] using outside
  obtain ⟨sound,unfilled,ended⟩ := sound.take_newline inline outside taken
  rw [ended.line] at done
  rcases skipped : indentation false (s.line + 1) [] after with ⟨line,indent,next⟩
  rw [skipped] at done
  have moved := sound.move line
  cases indent with
  | none =>
    obtain rfl := indentation_none skipped
    have stopped : s.Completes line { t with line } := ended.trans rfl rfl
    refine .ends read ends (onward_newline skipped) stopped ?_
    exact completes_idle moved stopped.idle done
  | some indent =>
    obtain ⟨u,entered,done⟩ := done
    obtain ⟨sound,free,entries,reading⟩ := moved.enterLine unfilled entered
    have resumed : s.Completes line u := ended.trans entries reading
    have shorter := indentation_length false (s.line + 1) [] after
    rw [skipped] at shorter
    have inline : u.Inline := fun waits => by simp [free] at waits
    exact .ends read ends (onward_newline skipped) resumed (further shorter sound inline done)

theorem entries_step (sound : s.Sound) (inline : s.Inline) (read : read s.member s.line c rest = (lexeme,after))
    (further : Further lines after es) (done : entries lines s (c :: rest) = .ok es) :
    Completes lines s (c :: rest) es := by
  obtain ⟨t,taken,done⟩ := entries_cases read done
  cases ends : s.ends lexeme with
  | false =>
    rw [take_inside ends taken] at done
    obtain ⟨sound,inline⟩ := sound.take_within inline ends taken
    exact .within read ends taken (further (Nat.le_refl _) sound inline done)
  | true =>
    cases newline : lexeme.isNewline with
    | false =>
      rw [newline] at done
      obtain ⟨sound,inline,ended⟩ := sound.take_end inline ends newline taken
      have completes := further (Nat.le_refl _) sound inline done
      exact .ends read ends (by simp [onward,newline]) ended completes
    | true =>
      obtain rfl : lexeme = .newline := by cases lexeme <;> first | rfl | cases newline
      have outside : s.groups.isEmpty = true := by simpa [Scanner.ends,isEnd] using ends
      obtain ⟨_,_,ended⟩ := sound.take_newline inline outside taken
      have closed : t.groups.isEmpty = true := by rw [ended.groups,outside]
      rw [closed] at done
      exact entries_newline sound inline read outside taken further done

-- By induction on the length of the text: a line break skips any number of blank lines.
theorem entries_complete (sound : s.Sound) (inline : s.Inline)
    (done : entries lines s cs = .ok es) : Completes lines s cs es := by
  induction length : cs.length using Nat.strongRecOn generalizing s cs with
  | ind n ih =>
  match cs with
  | [] =>
    rw [entries] at done
    exact completes_finish sound inline done
  | c :: rest =>
    rcases read : read s.member s.line c rest with ⟨lexeme,after⟩
    have shorter := read_length s.member s.line c rest
    rw [read] at shorter
    refine entries_step sound inline read (fun shorter' sound inline done => ?_) done
    exact ih _ (by simp only [List.length_cons] at length shorter; omega) sound inline done rfl

theorem start_sound (line : Nat) : (start line).Sound :=
  ⟨⟨trivial,by simp [start],.nil,rfl,by simp [start]⟩,by simp [start],by simp [start],by simp [start]⟩

theorem Completes.from_start (completes : Completes lines s cs es) (fresh : s.entries = [])
    (reading : s.among (.start line) = .start line) :
    Nested es.reverse ∧ Delivers lines (.start line) cs (es.map head) := by
  obtain ⟨nested,heads,read,eq⟩ := completes
  rw [fresh] at eq
  refine ⟨nested,?_⟩
  rw [← reading,eq]
  exact read _

theorem tokenizeWithin_complete {nesting}
    (accepted : tokenizeWithin (nesting + 1) source first = .ok forest) :
    ∃ es line indent rest, forest = Line.forest es ∧
      indentation false first [] (Text.replace ['\r','\n'] ['\n'] source none) = (line,indent,rest) ∧
      Nested es.reverse ∧ Delivers (tokenizeWithin nesting) (.start line) rest (es.map head) := by
  rw [tokenizeWithin] at accepted
  rcases skipped : indentation false first [] (Text.replace ['\r','\n'] ['\n'] source none) with
    ⟨line,_ | indent,rest⟩
  · obtain rfl := indentation_none skipped
    rw [skipped] at accepted
    obtain ⟨es,finished,⟨⟩⟩ := Except.bind_eq_ok accepted
    exact ⟨es,_,_,_,rfl,rfl,(completes_idle (start_sound line) rfl finished).from_start rfl rfl⟩
  · rw [skipped] at accepted
    obtain ⟨s,entered,accepted⟩ := Except.bind_eq_ok accepted
    obtain ⟨es,done,⟨⟩⟩ := Except.bind_eq_ok accepted
    obtain ⟨sound,free,fresh,reading⟩ := (start_sound line).enterLine rfl entered
    have completes := entries_complete sound (fun waits => by simp [free] at waits) done
    exact ⟨es,_,_,_,rfl,rfl,completes.from_start fresh (by rw [reading]; rfl)⟩

end Lexer

-- The lines of a source

-- No statement of an accepted source is lost, doubled or moved, and tiers stand only below `if`.
theorem tokenize_preorder {source : String} {forest : List Line}
    (accepted : tokenize source = .ok forest) :
    statements source = .ok ((Line.preorderAll forest).map Line.head) ∧
      tokenStream source = .ok ((Line.preorderAll forest).flatMap (·.head.tokens)) ∧
      ∀ line ∈ Line.preorderAll forest, line.Tiered := by
  obtain ⟨es, line, indent, rest, rfl, skipped, nested, delivers⟩ := Lexer.tokenizeWithin_complete accepted
  obtain ⟨heads, tiered⟩ := Line.forest_nested nested
  have whole : statements source = .ok ((Line.preorderAll (Line.forest es)).map Line.head) := by
    rw [heads, statements, Lexer.statementsFrom, skipped]
    exact delivers.statements
  refine ⟨whole, ?_, tiered⟩
  rw [tokenStream, whole]
  simp [Except.map, List.flatMap_map]

def ladder : String := "if a: b; c\nelif d:\n  while e: f; if g: h\n  i\nelse: j\nk"

theorem ladder_lines : (tokenize ladder).toOption.map (fun forest =>
      ((Line.preorderAll forest).map (·.head.keyword),forest.map fun line => line.tiers.map (·.head.keyword))) =
      some ([some .ifKw,none,none,some .elifKw,some .whileKw,none,some .ifKw,none,none,
        some .elseKw,none,none],[[some .elifKw,some .elseKw],[]]) := by
  decide +kernel

theorem tokenize_preorder_ladder : ∃ forest, tokenize ladder = .ok forest ∧
    (Line.preorderAll forest).map (·.head.keyword) =
      [some .ifKw, none, none, some .elifKw, some .whileKw, none, some .ifKw, none, none,
        some .elseKw, none, none] ∧
    (forest.map fun line => line.tiers.map (·.head.keyword)) = [[some .elifKw, some .elseKw], []] ∧
    statements ladder = .ok ((Line.preorderAll forest).map Line.head) ∧
    tokenStream ladder = .ok ((Line.preorderAll forest).flatMap (·.head.tokens)) ∧
    ∀ line ∈ Line.preorderAll forest, line.Tiered := by
  have read := ladder_lines
  cases accepted : tokenize ladder with
  | error e => simp [accepted, Except.toOption] at read
  | ok forest =>
    rw [accepted] at read
    obtain ⟨keywords, tiers⟩ := Prod.mk.inj (Option.some.inj read)
    exact ⟨forest, rfl, keywords, tiers, tokenize_preorder accepted⟩

end EmbedScript
