import EmbedScript.Proofs.Token.Layout
import Mathlib.Data.List.TakeWhile

/-!
The offside rule. `Lexer.Passes` follows a reading through all states of the scanner, `Lexer.Records`
tells the indentation of each statement of a source that is accepted.
-/

namespace EmbedScript

open Entry Carried List Scanner

namespace Lexer

-- The states of the scanner, with the statements completed so far, last first, what is left of the
-- text, and whether a line starts there.
inductive Passes (lines : Reader) (source : List Char) (first : Nat) :
    List Carried → Scanner → List Char → Bool → Prop
  | start {line : Nat} {indent rest : List Char} {s : Scanner}
      (begins : indentation false first [] (Text.replace ['\r','\n'] ['\n'] source none) =
        (line,some indent,rest))
      (entered : (start line).enterLine indent = .ok s) : Passes lines source first [] s rest false
  | take {ms : List Carried} {s t : Scanner} {c : Char} {rest after : List Char} {lexeme : Lexeme}
      (passes : Passes lines source first ms s (c :: rest) false)
      (read : Lexeme.read s.member s.line c rest = (lexeme,after)) (taken : s.take lines lexeme = .ok t) :
      Passes lines source first (s.carry t ++ ms) t after (lexeme.isNewline && t.groups.isEmpty)
  | line {ms : List Carried} {s t : Scanner} {cs rest indent : List Char} {line : Nat}
      (passes : Passes lines source first ms s cs true)
      (skipped : indentation false s.line [] cs = (line,some indent,rest))
      (entered : enterLine { s with line } indent = .ok t) :
      Passes lines source first ms t rest false

inductive Records (lines : Reader) (source : List Char) (first : Nat) : List Carried → Prop
  | blank {line : Nat} {rest : List Char}
      (begins : indentation false first [] (Text.replace ['\r','\n'] ['\n'] source none) =
        (line,none,rest)) : Records lines source first []
  | inLine {ms : List Carried} {s : Scanner} {es : List Entry}
      (passes : Passes lines source first ms s [] false) (finished : s.finish = .ok es) :
      Records lines source first (s.carry s.endLine ++ ms)
  | atStart {ms : List Carried} {s : Scanner} {cs rest : List Char} {line : Nat} {es : List Entry}
      (passes : Passes lines source first ms s cs true)
      (skipped : indentation false s.line [] cs = (line,none,rest))
      (finished : finish { s with line } = .ok es) : Records lines source first ms

variable {source : List Char} {first : Nat} {ms : List Carried} {s : Scanner} {cs : List Char} {lineStart : Bool}

theorem start_follow (line : Nat) : Follow [] (start line) true where
  sound := start_sound line
  chained := ⟨pairwise_singleton _ _,mem_singleton.mpr rfl⟩
  recorded := ⟨rfl,trivial,.first,forall_mem_nil _⟩
  attentive := nofun
  inline := Bool.noConfusion
  fresh _ := ⟨rfl,rfl⟩

theorem Passes.follow (passes : Passes lines source first ms s cs lineStart) : Follow ms s lineStart := by
  induction passes with
  | start _ entered => exact (start_follow _).enterLine rfl entered
  | take _ _ taken ih => exact ih.take taken
  | @line _ _ _ _ _ _ line _ _ entered ih => exact (ih.move line).enterLine (ih.fresh rfl).1 entered

theorem Records.aligned (records : Records lines source first ms) : Aligned ms ∧ Nested (ms.map entry) := by
  cases records with
  | blank => exact ⟨trivial,trivial⟩
  | inLine passes =>
    have follow := passes.follow
    obtain ⟨recorded,_⟩ := follow.recorded.endLine follow.attentive follow.sound (follow.inline rfl)
    obtain ⟨sound,_⟩ := follow.sound.endLine (follow.inline rfl)
    exact ⟨recorded.aligned,recorded.entries ▸ sound.blocks.nested⟩
  | atStart passes =>
    have follow := passes.follow
    exact ⟨follow.recorded.aligned,follow.recorded.entries ▸ follow.sound.blocks.nested⟩

-- A reading that succeeds records its entries. By induction on the length of the text.
theorem Passes.records (passes : Passes lines source first ms s cs false) (done : entries lines s cs = .ok es) :
    ∃ all, Records lines source first all ∧ (all.map entry).reverse = es := by
  induction length : cs.length using Nat.strongRecOn generalizing ms s cs with
  | ind n ih =>
  match cs with
  | [] =>
    rw [entries] at done
    have follow := passes.follow
    obtain ⟨recorded,_⟩ := follow.recorded.endLine follow.attentive follow.sound (follow.inline rfl)
    refine ⟨_,.inLine passes done,?_⟩
    rw [recorded.entries,(finish_eq done).2]
  | c :: rest =>
    rcases read : Lexeme.read s.member s.line c rest with ⟨lexeme,after⟩
    have shorter := Lexeme.read_length s.member s.line c rest
    rw [read] at shorter
    obtain ⟨t,taken,done⟩ := entries_cases read done
    have onward := passes.take read taken
    cases newline : lexeme.isNewline && t.groups.isEmpty with
    | false =>
      rw [newline] at done onward
      exact ih _ (by simp only [length_cons] at length shorter; omega) onward done rfl
    | true =>
      rw [newline] at done onward
      rcases skipped : indentation false t.line [] after with ⟨line,_ | indent,next⟩
      · rw [skipped] at done
        have follow := onward.follow.move line
        refine ⟨_,.atStart onward skipped done,?_⟩
        rw [follow.recorded.entries,(finish_eq done).2,endLine_idle (follow.fresh rfl).2]
      · rw [skipped] at done
        obtain ⟨u,entered,done⟩ := done
        have further := indentation_length false t.line [] after
        rw [skipped] at further
        refine ih _ ?_ (onward.line skipped entered) done rfl
        simp only [length_cons] at length shorter further
        omega

theorem tokenizeWithin_records {nesting} (accepted : tokenizeWithin (nesting + 1) source first = .ok ls) :
    ∃ all, Records (tokenizeWithin nesting) source first all ∧ ls = Line.forest (all.map entry).reverse := by
  rw [tokenizeWithin] at accepted
  rcases skipped : indentation false first [] (Text.replace ['\r','\n'] ['\n'] source none) with
    ⟨line,_ | indent,rest⟩
  · simp only [skipped] at accepted
    cases accepted
    exact ⟨[],.blank skipped,rfl⟩
  · rw [skipped] at accepted
    obtain ⟨s,entered,accepted⟩ := Except.bind_eq_ok accepted
    obtain ⟨es,done,⟨⟩⟩ := Except.bind_eq_ok accepted
    obtain ⟨all,records,rfl⟩ := (Passes.start skipped entered).records done
    exact ⟨all,records,rfl⟩

end Lexer

namespace Carried

theorem Admits.inv {depth indent inline} (admits : Admits depth indent inline before) :
    (depth = 0 ∧ indent = [] ∧ inline = false ∧ before = []) ∨
      (∃ opener earlier, before = opener :: earlier ∧ depth = opener.depth + 1 ∧ opener.Below indent inline) ∨
      Follows depth indent inline before := by
  cases admits with
  | first => exact .inl ⟨rfl,rfl,rfl,rfl⟩
  | opened _ below => exact .inr (.inl ⟨_,_,rfl,rfl,below⟩)
  | sibling follows => exact .inr (.inr follows)

theorem Aligned.suffix (aligned : Aligned (later ++ before)) : Aligned before := by
  induction later with
  | nil => exact aligned
  | cons c later ih => exact ih aligned.2

theorem Follows.inside {depth indent inline}
    (follows : Follows depth indent inline (later ++ o :: earlier)) (deeper : o.depth < depth) :
    ∃ last ∈ later, last.depth = depth ∧ last.indent = indent ∧ last.inline = inline := by
  obtain ⟨between,last,rest,shape,behind,same,carried⟩ := follows
  refine ⟨last,?_,same,carried⟩
  have apart : o ≠ last := fun equal => by rw [equal,same] at deeper; exact Nat.lt_irrefl _ deeper
  rcases append_eq_append_iff.mp shape with ⟨more,split,tail⟩ | ⟨more,split,tail⟩
  · cases more with
    | nil => exact absurd (List.cons.inj tail).1 apart
    | cons x more =>
      obtain rfl := (List.cons.inj tail).1
      have above := behind o (by rw [split]; simp)
      exact absurd (Nat.lt_trans above deeper) (Nat.lt_irrefl _)
  · cases more with
    | nil => exact absurd (List.cons.inj tail).1.symm apart
    | cons x more =>
      obtain rfl := (List.cons.inj tail).1
      rw [split]
      simp

theorem Aligned.block (aligned : Aligned (later ++ o :: earlier)) (inside : ∀ c ∈ later, o.depth < c.depth) :
    ∃ indent inline, o.Below indent inline ∧ ∀ c ∈ later, c.depth = o.depth + 1 → c.indent = indent ∧ c.inline = inline := by
  induction later with
  | nil => exact ⟨o.indent,true,rfl,forall_mem_nil _⟩
  | cons c later ih =>
    obtain ⟨admits,aligned⟩ := aligned
    obtain ⟨_,within⟩ := forall_mem_cons.mp inside
    obtain ⟨indent,inline,below,all⟩ := ih aligned within
    by_cases direct : c.depth = o.depth + 1
    · rcases admits.inv with ⟨_,_,_,none⟩ | ⟨opener,rest,shape,depth,below'⟩ | follows
      · simp at none
      · -- The first of the block: nothing stands between it and the opener.
        obtain rfl : later = [] := by
          cases later with
          | nil => rfl
          | cons x later =>
            obtain rfl := (List.cons.inj shape).1
            have above := within x mem_cons_self
            omega
        obtain rfl := (List.cons.inj shape).1
        refine ⟨c.indent,c.inline,below',fun d among _ => ?_⟩
        obtain rfl := mem_singleton.mp among
        exact ⟨rfl,rfl⟩
      · obtain ⟨last,among,depth,same,side⟩ := follows.inside (by omega)
        obtain ⟨agrees,agrees'⟩ := all last among (depth.trans direct)
        refine ⟨indent,inline,below,forall_mem_cons.mpr ⟨fun _ => ?_,all⟩⟩
        exact ⟨same.symm.trans agrees,side.symm.trans agrees'⟩
    · exact ⟨indent,inline,below,forall_mem_cons.mpr ⟨fun absurd => (direct absurd).elim,all⟩⟩

theorem Aligned.outermost (aligned : Aligned before) : ∀ c ∈ before, c.depth = 0 → c.indent = [] ∧ c.inline = false := by
  induction before with
  | nil => exact forall_mem_nil _
  | cons c before ih =>
    obtain ⟨admits,aligned⟩ := aligned
    refine forall_mem_cons.mpr ⟨fun top => ?_,ih aligned⟩
    rcases admits.inv with ⟨_,indent,inline,_⟩ | ⟨opener,_,_,depth,_⟩ | follows
    · exact ⟨indent,inline⟩
    · omega
    · obtain ⟨between,last,rest,rfl,_,depth,same,side⟩ := follows
      obtain ⟨indent,inline⟩ := ih aligned last (by simp) (depth.trans top)
      exact ⟨same.symm.trans indent,side.symm.trans inline⟩

theorem Aligned.dedent (aligned : Aligned (c :: o :: earlier)) (less : c.indent.length < o.indent.length) :
    Follows c.depth c.indent c.inline (o :: earlier) := by
  rcases aligned.1.inv with ⟨_,_,_,none⟩ | ⟨opener,rest,shape,_,below⟩ | follows
  · cases none
  · obtain rfl := (List.cons.inj shape).1
    unfold Below at below
    split at below
    · exact absurd (below ▸ less) (Nat.lt_irrefl _)
    · exact absurd (Nat.lt_trans less below.2) (Nat.lt_irrefl _)
  · exact follows

end Carried

-- The lines of blocks

namespace Entry

open Pending

-- What waits at a depth are the statements there up to the first that is less deep.
theorem waiting_lines (es : List Entry) (depth : Nat) : (waiting (es.foldr place []) depth).lines.map Line.head =
      ((es.takeWhile (depth ≤ ·.depth)).filter fun e => e.depth == depth && !e.tier).map head := by
  induction es with
  | nil => rfl
  | cons e es ih =>
    rw [foldr_cons,waiting_place,takeWhile_cons]
    rcases Nat.lt_trichotomy depth e.depth with deeper | here | outer
    · rw [if_pos deeper,if_pos (decide_eq_true (Nat.le_of_lt deeper)),ih]
      have other : (e.depth == depth) = false := by simp; omega
      simp [other]
    · subst here
      cases tier : e.tier with
      | true => simpa [level,tier] using ih
      | false => simpa [level,tier,line,Line.head] using ih
    · rw [if_neg (by omega),if_neg (by omega),if_neg (by simpa using outer)]
      rfl

def forestLines : List Entry → List Line
  | [] => []
  | e :: es => e.line (es.foldr place []) :: forestLines es

theorem forestLines_getElem? (before : List Entry) (e : Entry) (later : List Entry) :
    (forestLines (before ++ e :: later))[before.length]? = some (e.line (later.foldr place [])) := by
  induction before with
  | nil => rfl
  | cons first before ih => exact ih

theorem forestLines_length (es : List Entry) : (forestLines es).length = es.length := by
  induction es with
  | nil => rfl
  | cons e es ih => exact congrArg (· + 1) ih

theorem Keeps.forestLines (nested : Nested before)
    (keeps : Keeps (nesting before) following (following.foldr Entry.place []))
    (lines : preorderAll (following.foldr Entry.place []) = Entry.forestLines following) :
    let es := before.reverse ++ following
    Keeps [false] es (es.foldr Entry.place []) ∧ preorderAll (es.foldr Entry.place []) = Entry.forestLines es := by
  induction before generalizing following with
  | nil => exact ⟨keeps,lines⟩
  | cons e before ih =>
    obtain ⟨fits,nested⟩ := nested
    rw [reverse_cons,append_assoc,singleton_append]
    refine ih nested (keeps.place fits) ?_
    rw [foldr_cons,keeps.preorderAll_place fits,lines]
    rfl

theorem preorderAll_forest (nested : Nested es.reverse) :
    Line.preorderAll (Line.forest es) = forestLines es := by
  have folded := Keeps.forestLines nested (keeps_nil _) rfl
  rw [reverse_reverse,append_nil] at folded
  exact folded.1.preorderAll_forest.symm.trans folded.2

end Entry

-- The rule

def Carried.block (o : Carried) (later : List Carried) : List Carried :=
  (later.takeWhile (o.depth < ·.depth)).filter (·.depth == o.depth + 1)

structure Layout (ms : List Carried) (ls : List Line) : Prop where
  lines : (Line.preorderAll ls).length = ms.length
  outermost : ∀ c ∈ ms, c.depth = 0 → c.indent = [] ∧ c.inline = false
  -- A block carries one indentation, further than that of its opener unless it stands on its line.
  blocks : ∀ before o later, ms = before ++ o :: later → ∃ indent inline, o.Below indent inline ∧
    ∀ c ∈ o.block later, c.indent = indent ∧ c.inline = inline
  -- And it is the block of the line.
  bodies : ∀ before o later, ms = before ++ o :: later → ∃ line,
    (Line.preorderAll ls)[before.length]? = some line ∧ line.head = o.entry.head ∧
      line.body.map (·.map Line.head) = if o.entry.opens then
        some (((o.block later).filter (!·.entry.tier)).map (·.entry.head)) else none
  -- A dedent goes on in a block around the last statement, behind its sibling there.
  dedents : ∀ before last c later, ms = before ++ last :: c :: later →
    c.indent.length < last.indent.length → ∃ earlier sibling between,
      before ++ [last] = earlier ++ sibling :: between ∧ sibling.depth = c.depth ∧
        sibling.indent = c.indent ∧ ∀ d ∈ between, c.depth < d.depth

theorem Layout.of_aligned (aligned : Aligned ms.reverse)
    (nested : Nested (ms.reverse.map entry)) : Layout ms (Line.forest (ms.map entry)) := by
  have lines : Line.preorderAll (Line.forest (ms.map entry)) = forestLines (ms.map entry) :=
    preorderAll_forest (by rwa [← map_reverse])
  refine ⟨?_,?_,?_,?_,?_⟩
  · rw [lines,forestLines_length,length_map]
  · exact fun c among => aligned.outermost c (mem_reverse.mpr among)
  · rintro before o later rfl
    have inner : Aligned ((later.takeWhile (o.depth < ·.depth)).reverse ++ o :: before.reverse) := by
      suffices whole : Aligned ((later.dropWhile (o.depth < ·.depth)).reverse ++
          ((later.takeWhile (o.depth < ·.depth)).reverse ++ o :: before.reverse)) from whole.suffix
      rw [← append_assoc,← reverse_append]
      simpa using aligned
    have inside : ∀ c ∈ (later.takeWhile (o.depth < ·.depth)).reverse, o.depth < c.depth := by
      intro c among
      have deeper := mem_takeWhile_imp (mem_reverse.mp among)
      exact of_decide_eq_true deeper
    obtain ⟨indent,inline,below,all⟩ := inner.block inside
    refine ⟨indent,inline,below,fun c among => ?_⟩
    obtain ⟨within,direct⟩ := mem_filter.mp among
    exact all c (mem_reverse.mpr within) (eq_of_beq direct)
  · rintro before o later rfl
    refine ⟨o.entry.line ((later.map entry).foldr place []),?_,rfl,?_⟩
    · have found := forestLines_getElem? (before.map entry) o.entry (later.map entry)
      rw [length_map] at found
      rw [lines,map_append,map_cons,found]
    · have waiting := waiting_lines (later.map entry) (o.entry.depth + 1)
      rw [takeWhile_map,filter_map,map_map] at waiting
      cases opens : o.entry.opens with
      | false => simp [Entry.line,Line.body,opens]
      | true =>
        simp only [Entry.line,Line.body,opens,if_true,Option.map_some,waiting,Carried.block,filter_filter]
        congr 3
        funext c
        exact Bool.and_comm _ _
  · rintro before last c later rfl less
    have inner : Aligned (c :: last :: before.reverse) := by
      suffices whole : Aligned (later.reverse ++ c :: last :: before.reverse) from whole.suffix
      simpa using aligned
    obtain ⟨between,sibling,earlier,shape,behind,depth,indent,_⟩ := inner.dedent less
    refine ⟨earlier.reverse,sibling,between.reverse,?_,depth,indent,?_⟩
    · have order := congrArg reverse shape
      simpa using order
    · exact fun d among => behind d (mem_reverse.mp among)

-- How the indentation of a line selects its block among those that are open: behind an opener a new
-- one, indented further, and otherwise the one that has it.
structure Scanner.Selects (s : Scanner) (indent : List Char) : Prop where
  free : s.opener = none → ((∃ t, s.enterLine indent = .ok t) ↔ indent ∈ s.indents)
  returns : ∀ t, s.enterLine indent = .ok t → s.opener = none →
    t.level ∈ s.level :: s.outer ∧ t.level.indent = indent ∧
      t.indents = s.indents.filter (·.length ≤ indent.length)
  behind : s.opener ≠ none → ((∃ t, s.enterLine indent = .ok t) ↔ StrictlyExtends indent s.level.indent)
  opens : ∀ t o, s.enterLine indent = .ok t → s.opener = some o →
    t.level.depth = o.depth + 1 ∧ t.indents = indent :: s.indents.filter (·.length < indent.length)

theorem Scanner.Chained.selects {s : Scanner} (chained : s.Chained) (indent : List Char) : s.Selects indent where
  free waits := enterLine_free_iff waits chained
  returns t entered waits := by
    obtain ⟨among,same,left⟩ := enterLine_free waits chained entered
    refine ⟨among,same,?_⟩
    rw [indents,left,indents,filter_map]
    rfl
  behind waits := by
    obtain ⟨o,waits⟩ := Option.ne_none_iff_exists'.mp waits
    simp only [enterLine_opener waits,exists_and_left,exists_eq,and_true]
  opens t o entered waits := by
    obtain ⟨longer,rfl⟩ := (enterLine_opener waits).mp entered
    refine ⟨rfl,congrArg (indent :: ·) (filter_eq_self.mpr fun i known => ?_).symm⟩
    exact decide_eq_true (Nat.lt_of_le_of_lt (chained.longest i known) longer.2)

-- In every state of a reading the indentations of the open blocks are a chain, the current one the
-- longest, and lines select their blocks by it; and an accepted source is laid out accordingly.
theorem indentation_chain (nesting : Nat) (source : List Char) (first : Nat) :
    (∀ ms s cs lineStart, Lexer.Passes (Lexer.tokenizeWithin nesting) source first ms s cs lineStart →
      [] ∈ s.indents ∧ s.indents.Pairwise StrictlyExtends ∧
      (∀ i ∈ s.indents, i.length ≤ s.level.indent.length) ∧ ∀ indent, s.Selects indent) ∧
    ∀ ls, Lexer.tokenizeWithin (nesting + 1) source first = .ok ls → ∃ ms,
      Lexer.Records (Lexer.tokenizeWithin nesting) source first ms.reverse ∧
        ls = Line.forest (ms.map Carried.entry) ∧ Layout ms ls := by
  constructor
  · intro ms s cs lineStart passes
    have chained := passes.follow.chained
    exact ⟨chained.outermost, chained.strict, chained.longest, chained.selects⟩
  · intro ls accepted
    obtain ⟨all, records, rfl⟩ := Lexer.tokenizeWithin_records accepted
    obtain ⟨aligned, nested⟩ := records.aligned
    refine ⟨all.reverse, by rwa [List.reverse_reverse], by rw [List.map_reverse], ?_⟩
    rw [← List.map_reverse]
    exact .of_aligned (by rwa [List.reverse_reverse]) (by rwa [List.reverse_reverse])

-- Tabs and blanks, a block on the line of its opener, and a dedent out of two blocks.
def stairs : List Char := "if a:\n\t if b: c; d\n\t while e:\n\t  f\n\t  # g\n \nh".toList

theorem indentation_chain_stairs : ∃ ls ms, Lexer.tokenizeWithin 1 stairs 1 = .ok ls ∧
    Line.forest (ms.map Carried.entry) = ls ∧ ms.length = 7 ∧ Layout ms ls := by
  have read : (Lexer.tokenizeWithin 1 stairs 1).toOption.any
      (fun ls => (Line.preorderAll ls).length == 7) = true := by
    decide +kernel
  cases accepted : Lexer.tokenizeWithin 1 stairs 1 with
  | error e =>
    rw [accepted] at read
    cases read
  | ok ls =>
    rw [accepted] at read
    obtain ⟨ms, _, forest, layout⟩ := (indentation_chain 0 stairs 1).2 ls accepted
    exact ⟨ls, ms, rfl, forest.symm, layout.lines.symm.trans (eq_of_beq read), layout⟩

end EmbedScript
