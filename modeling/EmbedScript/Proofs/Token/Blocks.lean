import EmbedScript.Proofs.Token.Forest
import EmbedScript.Proofs.Token.Statements

/-!
The open blocks of the scanner agree with the nesting of the entries it has emitted.
-/

namespace EmbedScript

open Entry

-- The open blocks, innermost first, agree with the entries, last first.
structure Blocks (entries : List Entry) (level : Level) (outer : List Level) : Prop where
  nested : Nested entries
  inward : ∀ l ∈ outer, l.depth < level.depth
  strict : outer.Pairwise fun a b => b.depth < a.depth
  level : (nesting entries)[level.depth]? = some level.tiered
  outer : ∀ l ∈ outer, (nesting entries)[l.depth]? = some l.tiered

namespace Blocks

variable {level : Level} {outer : List Level}

section

variable (blocks : Blocks entries level outer)

include blocks

theorem reached : level.depth < (nesting entries).length := (List.getElem?_eq_some_iff.mp blocks.level).1

theorem emit_here (fits : e.Fits (nesting entries)) (here : e.depth = level.depth) :
    Blocks (e :: entries) { level with tiered := e.tierable } outer where
  nested := ⟨fits,blocks.nested⟩
  inward := blocks.inward
  strict := blocks.strict
  level := by
    change (e.enter _)[level.depth]? = _
    rw [← here,fits.enter_here]
  outer l among := by
    have above := blocks.inward l among
    exact (fits.enter_before (by omega)).trans (blocks.outer l among)

theorem emit_deeper (fits : e.Fits (nesting entries)) (deeper : level.depth < e.depth) : Blocks (e :: entries) level outer where
  nested := ⟨fits,blocks.nested⟩
  inward := blocks.inward
  strict := blocks.strict
  level := (fits.enter_before deeper).trans blocks.level
  outer l among := by
    have above := blocks.inward l among
    exact (fits.enter_before (by omega)).trans (blocks.outer l among)

theorem push {inner} (deeper : level.depth < inner.depth) (agrees : (nesting entries)[inner.depth]? = some inner.tiered) :
    Blocks entries inner (level :: outer) where
  nested := blocks.nested
  inward := by
    have below : ∀ l ∈ outer, l.depth < inner.depth := fun l among => by
      have above := blocks.inward l among
      omega
    simpa using ⟨deeper,below⟩
  strict := List.pairwise_cons.mpr ⟨blocks.inward,blocks.strict⟩
  level := agrees
  outer := by simpa using ⟨blocks.level,blocks.outer⟩

end

theorem pop {above} (blocks : Blocks entries level (above :: outer)) : Blocks entries above outer where
  nested := blocks.nested
  inward := (List.pairwise_cons.mp blocks.strict).1
  strict := (List.pairwise_cons.mp blocks.strict).2
  level := blocks.outer above (by simp)
  outer l among := blocks.outer l (by simp [among])

theorem dropWhile {inner} (blocks : Blocks entries level outer)
    (left : (level :: outer).dropWhile p = inner :: rest) :
    Blocks entries inner rest := by
  induction outer generalizing level with
  | nil =>
    rw [List.dropWhile_cons] at left
    split at left
    · cases left
    · cases left
      exact blocks
  | cons above outer ih =>
    rw [List.dropWhile_cons] at left
    split at left
    · exact ih blocks.pop left
    · cases left
      exact blocks

end Blocks

namespace Scanner

-- The blocks agree, and a statement that waits for its block still has the place for it.
structure Sound (s : Scanner) : Prop where
  blocks : Blocks s.entries s.level s.outer
  deep : ∀ o ∈ s.opener, s.level.depth ≤ o.depth
  room : ∀ o ∈ s.opener, o.depth + 1 < (nesting s.entries).length
  empty : ∀ o ∈ s.opener, s.filled = false → (nesting s.entries)[o.depth + 1]? = some false

def Inline (s : Scanner) : Prop := s.opener.isSome → s.inline = true

-- The statement that `s` has read is the last entry of `t`, which stands on a line and has read
-- nothing since.
structure Completes (s : Scanner) (line : Nat) (t : Scanner) : Prop where
  heads : t.entries.map head = s.takeHead.1.toList ++ s.entries.map head
  cleared : t = among { s.takeHead.2 with line } t

variable {s : Scanner}

theorem Sound.move (sound : s.Sound) (line : Nat) : Sound { s with line } := ⟨sound.blocks,sound.deep,sound.room,sound.empty⟩

theorem Sound.rest (sound : s.Sound) : s.takeHead.2.Sound := by
  rw [takeHead_rest]
  exact ⟨sound.blocks,sound.deep,sound.room,sound.empty⟩

theorem Inline.rest (inline : s.Inline) : s.takeHead.2.Inline := by
  rw [takeHead_rest]
  exact inline

-- Placing a statement

structure Placed (s : Scanner) (head : Head) (opens : Bool) (depth : Nat) (t : Scanner) : Prop where
  entries : t.entries = ⟨head,depth,false,opens⟩ :: s.entries
  fits : Fits ⟨head,depth,false,opens⟩ (nesting s.entries)
  blocks : Blocks t.entries t.level t.outer
  level : t.level.depth = s.level.depth
  deep : s.level.depth ≤ depth
  opener : t.opener = s.opener
  inline : t.inline = s.inline
  inside : s.inline = true → ∀ o ∈ s.opener, depth = o.depth + 1 ∧ t.filled = true
  reading : t = s.among t

theorem Sound.place (sound : s.Sound) (head : Head) (opens : Bool) :
    s.Placed head opens (s.place head opens).1 (s.place head opens).2 := by
  unfold Scanner.place
  split
  · next o inline opener =>
    have fits : Fits ⟨head,o.depth + 1,false,opens⟩ (nesting s.entries) := ⟨sound.room o opener,by simp,by simp⟩
    have deeper := Nat.lt_succ_of_le (sound.deep o opener)
    have blocks := sound.blocks.emit_deeper fits deeper
    refine ⟨rfl,fits,blocks,rfl,Nat.le_of_lt deeper,rfl,rfl,?_,rfl⟩
    intro _ o' same
    rw [opener,Option.mem_some_iff] at same
    exact ⟨by rw [same],rfl⟩
  · next plain =>
    have fits : Fits ⟨head,s.level.depth,false,opens⟩ (nesting s.entries) := ⟨sound.blocks.reached,by simp,by simp⟩
    have blocks := sound.blocks.emit_here fits rfl
    refine ⟨rfl,fits,blocks,rfl,Nat.le_refl _,rfl,rfl,?_,rfl⟩
    intro inline o opener
    exact absurd opener (plain o inline)

theorem Placed.sound {head depth} (placed : s.Placed head false depth t)
    (sound : s.Sound) (inline : s.Inline) : t.Sound where
  blocks := placed.blocks
  deep o waits := by
    rw [placed.opener] at waits
    rw [placed.level]
    exact sound.deep o waits
  room o waits := by
    rw [placed.opener] at waits
    obtain ⟨here,_⟩ := placed.inside (inline (Option.isSome_of_mem waits)) o waits
    have length := placed.fits.enter_length
    rw [placed.entries,nesting,length,here]
    exact Nat.lt_succ_self _
  empty o waits unfilled := by
    rw [placed.opener] at waits
    obtain ⟨_,filled⟩ := placed.inside (inline (Option.isSome_of_mem waits)) o waits
    exact absurd (filled.symm.trans unfilled) (by decide)

-- Completing a statement

theorem takeHead_line : { s.takeHead.2 with line := s.line } = s.takeHead.2 := by rw [takeHead_rest]

theorem Completes.some {head} (ended : s.takeHead.1 = some head)
    (named : e.head = head) (entries : t.entries = e :: s.takeHead.2.entries)
    (cleared : t = s.takeHead.2.among t) : s.Completes s.line t :=
  ⟨by simp [ended,entries,named,takeHead_rest],by rwa [takeHead_line]⟩

theorem Completes.line {line} (completes : s.Completes line t) : t.line = line := by
  rw [completes.cleared,among_line]

theorem Completes.groups {line} (completes : s.Completes line t) : t.groups = s.groups := by
  rw [completes.cleared,takeHead_rest,among_groups]

theorem Completes.idle {line} (completes : s.Completes line t) : t.takeHead.1 = .none := by
  rw [completes.cleared,takeHead_rest]
  rfl

theorem Completes.trans {u line} (completes : s.Completes line t)
    (entries : u.entries = t.entries) (resumes : u = among { t with line := next } u) :
    s.Completes next u := by
  refine ⟨by rw [entries,completes.heads],?_⟩
  rw [completes.cleared] at resumes
  exact resumes

theorem Completes.of_line {line} (completes : Completes { s with line } next t) : s.Completes next t := by
  obtain ⟨heads,cleared⟩ := completes
  rw [takeHead_head] at heads
  rw [takeHead_rest] at cleared
  exact ⟨by rw [takeHead_head]; exact heads,by rw [takeHead_rest]; exact cleared⟩

theorem endStatement_eq (s : Scanner) : s.endStatement = match s.takeHead.1 with
    | .none => s.takeHead.2
    | .some head => (s.takeHead.2.place head false).2 := by
  unfold endStatement
  rcases s.takeHead with ⟨_ | head,rest⟩ <;> rfl

theorem Sound.endStatement (sound : s.Sound) (inline : s.Inline) :
    s.endStatement.Sound ∧ s.endStatement.Inline ∧ s.Completes s.line s.endStatement := by
  rw [endStatement_eq]
  cases ended : s.takeHead.1 with
  | none =>
    refine ⟨sound.rest,inline.rest,?_,?_⟩
    · simp [ended,takeHead_rest]
    · rw [takeHead_line,among_self]
  | some head =>
    have placed := sound.rest.place head false
    refine ⟨placed.sound sound.rest inline.rest,?_,.some ended rfl placed.entries placed.reading⟩
    intro waits
    rw [placed.opener] at waits
    rw [placed.inline]
    exact inline.rest waits

-- At the end of a line an opener still waits only when nothing stands in its block.
theorem Sound.endLine (sound : s.Sound) (inline : s.Inline) : s.endLine.Sound ∧ s.Completes s.line s.endLine := by
  obtain ⟨sound,_,completes⟩ := sound.endStatement inline
  have waiting : ∀ o ∈ s.endLine.opener,o ∈ s.endStatement.opener ∧ s.endStatement.filled = false := by
    cases filled : s.endStatement.filled <;> simp_all [Scanner.endLine]
  refine ⟨⟨sound.blocks,?_,?_,?_⟩,completes.heads,?_⟩
  · exact fun o waits => sound.deep o (waiting o waits).1
  · exact fun o waits => sound.room o (waiting o waits).1
  · exact fun o waits _ => sound.empty o (waiting o waits).1 (waiting o waits).2
  · exact congrArg (fun t => { t with opener := s.endLine.opener, filled := false, inline := false }) completes.cleared

-- Opening a block

theorem openFor_sound {e line}
    (blocks : Blocks s.entries s.level s.outer) (entries : s.entries = e :: before)
    (fits : e.Fits (nesting before)) (opens : e.opens = true) (deep : s.level.depth ≤ e.depth) :
    (s.openFor line e.depth).Sound := by
  have length := fits.enter_length
  have below := fits.enter_below
  rw [opens] at length below
  refine ⟨blocks,?_,?_,?_⟩
  · rintro o ⟨⟩
    exact deep
  · rintro o ⟨⟩
    change _ < (nesting s.entries).length
    rw [entries,nesting,length]
    exact Nat.lt_succ_self _
  · rintro o ⟨⟩ _
    change (nesting s.entries)[_]? = _
    rw [entries,nesting,below]
    rfl

theorem Sound.openTier (sound : s.Sound) {head}
    (spelled : head.keyword = some .elifKw ∨ head.keyword = some .elseKw)
    (opened : (if s.level.tiered then
      let level := { s.level with tiered := head.keyword == some .elifKw }
      let s := { s with level }.emit ⟨head,level.depth,true,true⟩
      Except.ok (s.openFor head.line level.depth)
      else .error dangling) = .ok t) :
    t.Sound ∧ t.Inline ∧ t.entries = ⟨head,s.level.depth,true,true⟩ :: s.entries ∧ t = s.among t := by
  split at opened
  · next tiered =>
    cases opened
    have fits : Fits ⟨head,s.level.depth,true,true⟩ (nesting s.entries) :=
      ⟨sound.blocks.reached,fun _ => by rw [sound.blocks.level,tiered],fun _ => spelled⟩
    have blocks := sound.blocks.emit_here fits rfl
    exact ⟨openFor_sound blocks rfl fits rfl (Nat.le_refl _),fun _ => rfl,rfl,rfl⟩
  · cases opened

theorem Sound.openBlock (sound : s.Sound) (opened : s.openBlock = .ok t) : t.Sound ∧ t.Inline ∧ s.Completes s.line t := by
  have sound := sound.rest
  unfold Scanner.openBlock at opened
  split at opened
  · cases opened
  · next head rest taken =>
    have ended : s.takeHead.1 = some head := by rw [taken]
    obtain rfl : s.takeHead.2 = rest := by rw [taken]
    split at opened
    · next spelled =>
      obtain ⟨sound,inline,entries,cleared⟩ := sound.openTier (.inl spelled) opened
      exact ⟨sound,inline,.some ended rfl entries cleared⟩
    · next spelled =>
      obtain ⟨sound,inline,entries,cleared⟩ := sound.openTier (.inr spelled) opened
      exact ⟨sound,inline,.some ended rfl entries cleared⟩
    · cases opened
      have placed := sound.place head true
      have deep := Nat.le_trans (Nat.le_of_eq placed.level) placed.deep
      refine ⟨openFor_sound placed.blocks placed.entries placed.fits rfl deep,fun _ => rfl,?_⟩
      exact .some ended rfl placed.entries (congrArg (fun u : Scanner => u.openFor head.line _) placed.reading)

theorem Sound.enterLine (sound : s.Sound) (unfilled : s.filled = false)
    (entered : s.enterLine indent = .ok t) :
    t.Sound ∧ t.opener = none ∧ t.entries = s.entries ∧ t = s.among t := by
  unfold Scanner.enterLine at entered
  split at entered
  · next o waits =>
    split at entered
    · cases entered
      refine ⟨⟨?_,by simp,by simp,by simp⟩,rfl,rfl,rfl⟩
      have deeper := Nat.lt_succ_of_le (sound.deep o waits)
      exact sound.blocks.push deeper (sound.empty o waits unfilled)
    · cases entered
  · next free =>
    split at entered
    · next left =>
      split at entered
      · cases entered
        have closed : ∀ o, o ∉ s.opener := by simp [free]
        refine ⟨⟨sound.blocks.dropWhile left,?_,?_,?_⟩,free,rfl,rfl⟩
        all_goals exact fun o waits => absurd waits (closed o)
      · split at entered <;> cases entered
    · cases entered

end Scanner

end EmbedScript
