import EmbedScript.Proofs.Token.Indentation

/-!
Which indentation each statement of a source carries: statements of one block carry one.
-/

namespace EmbedScript

open Entry List

-- A statement with the indentation it carries. Behind an opener on the same line it carries that of
-- the line.
structure Carried where
  entry : Entry
  indent : List Char
  inline : Bool

namespace Carried

def depth (c : Carried) : Nat := c.entry.depth

def Below (opener : Carried) (indent : List Char) (inline : Bool) : Prop :=
  if inline then indent = opener.indent else StrictlyExtends indent opener.indent

def Follows (depth : Nat) (indent : List Char) (inline : Bool) (before : List Carried) : Prop :=
  ∃ between last earlier, before = between ++ last :: earlier ∧ (∀ c ∈ between, depth < c.depth) ∧
    last.depth = depth ∧ last.indent = indent ∧ last.inline = inline

inductive Admits : Nat → List Char → Bool → List Carried → Prop
  | first : Admits 0 [] false []
  | opened {opener : Carried} {indent : List Char} {inline : Bool} {earlier : List Carried}
      (opens : opener.entry.opens = true) (below : opener.Below indent inline) :
      Admits (opener.depth + 1) indent inline (opener :: earlier)
  | sibling {depth : Nat} {indent : List Char} {inline : Bool} {before : List Carried}
      (follows : Follows depth indent inline before) : Admits depth indent inline before

def Aligned : List Carried → Prop
  | [] => True
  | c :: before => Admits c.depth c.indent c.inline before ∧ Aligned before

variable {depth : Nat} {indent : List Char} {inline : Bool}

theorem Follows.here (c : Carried) (before : List Carried) : Follows c.depth c.indent c.inline (c :: before) :=
  ⟨[],c,before,rfl,forall_mem_nil _,rfl,rfl,rfl⟩

theorem Follows.deeper (follows : Follows depth indent inline before) (deeper : depth < c.depth) :
    Follows depth indent inline (c :: before) := by
  obtain ⟨between,last,earlier,rfl,behind,at_⟩ := follows
  exact ⟨c :: between,last,earlier,rfl,forall_mem_cons.mpr ⟨deeper,behind⟩,at_⟩

end Carried

open Carried

namespace Scanner

variable {s : Scanner}

def carry (s t : Scanner) : List Carried := (t.entries.take (t.entries.length - s.entries.length)).map fun e =>
    ⟨e,s.level.indent,e.depth != s.level.depth⟩

theorem carry_none (same : t.entries = s.entries) : s.carry t = [] := by simp [carry,same]

variable {indent : List Char}

theorem carry_one (one : t.entries = e :: s.entries) : s.carry t = [⟨e,s.level.indent,e.depth != s.level.depth⟩] := by
  simp [carry,one]

-- The record agrees with the scanner: each open block has its last statement there, but for the
-- current one, which may still be empty.
structure Recorded (ms : List Carried) (s : Scanner) : Prop where
  entries : ms.map entry = s.entries
  aligned : Aligned ms
  level : Admits s.level.depth s.level.indent false ms
  outer : ∀ l ∈ s.outer, Follows l.depth l.indent false ms

-- An opener waits on the current line. Its block goes on there or, if it is still empty, on the next.
structure Waiting (ms : List Carried) (s : Scanner) (o : Opener) : Prop where
  level : Follows s.level.depth s.level.indent false ms
  block : Admits (o.depth + 1) s.level.indent true ms
  empty : s.filled = false → ∃ opener earlier, ms = opener :: earlier ∧ opener.depth = o.depth ∧
    opener.entry.opens = true ∧ opener.indent = s.level.indent

def Attentive (ms : List Carried) (s : Scanner) : Prop := ∀ o ∈ s.opener, Waiting ms s o

theorem Recorded.emit (recorded : Recorded ms s) (sound : s.Sound)
    (admitted : Admits e.depth s.level.indent (e.depth != s.level.depth) ms)
    (place : e.depth = s.level.depth ∨ s.level.depth < e.depth ∧ Follows s.level.depth s.level.indent false ms)
    (entries : t.entries = e :: s.entries) (indent : t.level.indent = s.level.indent)
    (depth : t.level.depth = s.level.depth) (outer : t.outer = s.outer) :
    Recorded (s.carry t ++ ms) t ∧ Follows t.level.depth t.level.indent false (s.carry t ++ ms) := by
  rw [carry_one entries,singleton_append,depth,indent]
  have last : Follows s.level.depth s.level.indent false (⟨e,s.level.indent,e.depth != s.level.depth⟩ :: ms) := by
    rcases place with here | ⟨deeper,follows⟩
    · have plain : (e.depth != s.level.depth) = false := by simp [here]
      have last := Follows.here ⟨e,s.level.indent,false⟩ ms
      rw [Carried.depth,here] at last
      rwa [plain]
    · exact follows.deeper deeper
  refine ⟨⟨?_,⟨admitted,recorded.aligned⟩,?_,fun l among => ?_⟩,last⟩
  · rw [map_cons,recorded.entries,entries]
  · rw [depth,indent]
    exact .sibling last
  · rw [outer] at among
    refine (recorded.outer l among).deeper ?_
    have inward := sound.blocks.inward l among
    simp only [Carried.depth]
    omega

theorem Recorded.place (recorded : Recorded ms s) (attentive : Attentive ms s) (sound : s.Sound)
    (inline : s.Inline) (head : Head) (opens : Bool) :
    let t := (s.place head opens).2
    Recorded (s.carry t ++ ms) t ∧ Attentive (s.carry t ++ ms) t ∧
      Follows t.level.depth t.level.indent false (s.carry t ++ ms) := by
  unfold Scanner.place
  split
  · next o _ opener =>
    have deep := sound.deep o opener
    have waiting := attentive o opener
    have apart : (o.depth + 1 != s.level.depth) = true := by simp; omega
    obtain ⟨recorded,last⟩ := recorded.emit (t := { s with filled := true }.emit ⟨head,o.depth + 1,false,opens⟩)
      sound (by rw [apart]; exact waiting.block) (.inr ⟨Nat.lt_succ_of_le deep,waiting.level⟩) rfl rfl rfl rfl
    refine ⟨recorded,fun o' waits => ⟨last,?_,Bool.noConfusion⟩,last⟩
    obtain rfl : o = o' := Option.some.inj (opener.symm.trans waits)
    have here := Follows.here ⟨⟨head,o.depth + 1,false,opens⟩,s.level.indent,o.depth + 1 != s.level.depth⟩ ms
    rw [apart] at here
    rw [carry_one rfl,apart]
    exact .sibling here
  · next plain =>
    have admitted := recorded.level
    obtain ⟨recorded,last⟩ := recorded.emit
      (t := { s with level := { s.level with tiered := head.keyword == some Keyword.ifKw } }.emit
        ⟨head,s.level.depth,false,opens⟩) sound (by simpa using admitted) (.inl rfl) rfl rfl rfl rfl
    refine ⟨recorded,fun o waits => ?_,last⟩
    exact absurd waits (plain o (inline (Option.isSome_of_mem waits)))

theorem Recorded.rest (recorded : Recorded ms s) : Recorded ms s.takeHead.2 := by
  rw [takeHead_rest]
  exact ⟨recorded.entries,recorded.aligned,recorded.level,recorded.outer⟩

theorem Attentive.rest (attentive : Attentive ms s) : Attentive ms s.takeHead.2 := by
  rw [takeHead_rest]
  exact fun o waits => ⟨(attentive o waits).level,(attentive o waits).block,(attentive o waits).empty⟩

theorem carry_rest (u : Scanner) : s.takeHead.2.carry u = s.carry u := by
  rw [takeHead_rest]
  rfl

theorem Recorded.endStatement (recorded : Recorded ms s) (attentive : Attentive ms s) (sound : s.Sound) (inline : s.Inline) :
    Recorded (s.carry s.endStatement ++ ms) s.endStatement ∧ Attentive (s.carry s.endStatement ++ ms) s.endStatement := by
  rw [endStatement_eq]
  cases ended : s.takeHead.1 with
  | none =>
    rw [carry_none (by rw [takeHead_rest])]
    exact ⟨recorded.rest,attentive.rest⟩
  | some head =>
    obtain ⟨recorded,attentive,_⟩ := recorded.rest.place attentive.rest sound.rest inline.rest head false
    rw [carry_rest] at recorded attentive
    exact ⟨recorded,attentive⟩

theorem Recorded.endLine (recorded : Recorded ms s) (attentive : Attentive ms s) (sound : s.Sound) (inline : s.Inline) :
    Recorded (s.carry s.endLine ++ ms) s.endLine ∧ Attentive (s.carry s.endLine ++ ms) s.endLine := by
  obtain ⟨recorded,attentive⟩ := recorded.endStatement attentive sound inline
  refine ⟨⟨recorded.entries,recorded.aligned,recorded.level,recorded.outer⟩,fun o waits => ?_⟩
  have waiting : o ∈ s.endStatement.opener ∧ s.endStatement.filled = false := by
    cases filled : s.endStatement.filled <;> simp_all [Scanner.endLine]
  obtain ⟨level,block,empty⟩ := attentive o waiting.1
  exact ⟨level,block,fun _ => empty waiting.2⟩

theorem Attentive.openFor {line} (entries : t.entries = e :: s.entries)
    (opens : e.opens = true) (indent : t.level.indent = s.level.indent)
    (last : Follows t.level.depth t.level.indent false (s.carry t ++ ms)) :
    Attentive (s.carry t ++ ms) (t.openFor line e.depth) := by
  rintro o ⟨⟩
  have shape : s.carry t ++ ms = ⟨e,s.level.indent,e.depth != s.level.depth⟩ :: ms := by rw [carry_one entries,singleton_append]
  refine ⟨last,?_,fun _ => ⟨_,ms,shape,rfl,opens,indent.symm⟩⟩
  have opener : Carried.Below ⟨e,s.level.indent,e.depth != s.level.depth⟩ t.level.indent true := indent
  rw [shape]
  exact .opened opens opener

theorem Recorded.openTier (recorded : Recorded ms s) (sound : s.Sound) {head}
    (opened : (if s.level.tiered then
      let level := { s.level with tiered := head.keyword == some .elifKw }
      let s := { s with level }.emit ⟨head,level.depth,true,true⟩
      Except.ok (s.openFor head.line level.depth)
      else .error dangling) = .ok t) :
    Recorded (s.carry t ++ ms) t ∧ Attentive (s.carry t ++ ms) t := by
  split at opened
  · cases opened
    have admitted := recorded.level
    obtain ⟨recorded,last⟩ := recorded.emit
      (t := { s with level := { s.level with tiered := head.keyword == some Keyword.elifKw } }.emit
        ⟨head,s.level.depth,true,true⟩) sound (by simpa using admitted) (.inl rfl) rfl rfl rfl rfl
    refine ⟨⟨recorded.entries,recorded.aligned,recorded.level,recorded.outer⟩,?_⟩
    exact Attentive.openFor (e := ⟨head,s.level.depth,true,true⟩) rfl rfl rfl last
  · cases opened

theorem Recorded.openBlock (recorded : Recorded ms s) (attentive : Attentive ms s) (sound : s.Sound)
    (inline : s.Inline) (opened : s.openBlock = .ok t) :
    Recorded (s.carry t ++ ms) t ∧ Attentive (s.carry t ++ ms) t := by
  unfold Scanner.openBlock at opened
  split at opened
  · cases opened
  · next head rest taken =>
    obtain rfl : s.takeHead.2 = rest := by rw [taken]
    rw [← carry_rest]
    split at opened
    · exact recorded.rest.openTier sound.rest opened
    · exact recorded.rest.openTier sound.rest opened
    · cases opened
      have placed := sound.rest.place head true
      obtain ⟨recorded,_,last⟩ := recorded.rest.place attentive.rest sound.rest inline.rest head true
      refine ⟨⟨recorded.entries,recorded.aligned,recorded.level,recorded.outer⟩,?_⟩
      exact Attentive.openFor placed.entries rfl (List.cons.inj (place_indents head true)).1 last

-- Lines and lexemes

theorem Recorded.enterLine (recorded : Recorded ms s) (attentive : Attentive ms s) (sound : s.Sound)
    (chained : s.Chained) (unfilled : s.filled = false)
    (entered : s.enterLine indent = .ok t) : Recorded ms t := by
  cases waits : s.opener with
  | none =>
    obtain ⟨_,_,entries,_⟩ := sound.enterLine unfilled entered
    obtain ⟨among,_,left⟩ := enterLine_free waits chained entered
    have kept : (t.level :: t.outer).Sublist (s.level :: s.outer) := left ▸ filter_sublist
    have within : t.outer.Sublist s.outer := kept.tail
    refine ⟨recorded.entries.trans entries.symm,recorded.aligned,?_,fun l outer => ?_⟩
    · rcases mem_cons.mp among with here | outer
      · rw [here]
        exact recorded.level
      · exact .sibling (recorded.outer _ outer)
    · exact recorded.outer l (within.subset outer)
  | some o =>
    obtain ⟨extends',rfl⟩ := (enterLine_opener waits).mp entered
    obtain ⟨level,_,empty⟩ := attentive o waits
    obtain ⟨opener,earlier,rfl,depth,opens,same⟩ := empty unfilled
    refine ⟨recorded.entries,recorded.aligned,?_,forall_mem_cons.mpr ⟨level,recorded.outer⟩⟩
    rw [← same] at extends'
    exact depth ▸ .opened opens extends'

structure Follow (ms : List Carried) (s : Scanner) (lineStart : Bool) : Prop where
  sound : s.Sound
  chained : s.Chained
  recorded : Recorded ms s
  attentive : Attentive ms s
  inline : lineStart = false → s.Inline
  fresh : lineStart = true → s.filled = false ∧ s.takeHead.1 = none

theorem Follow.enterLine (follow : Follow ms s lineStart) (unfilled : s.filled = false) (entered : s.enterLine indent = .ok t) : Follow ms t false := by
  obtain ⟨sound,free,_,_⟩ := follow.sound.enterLine unfilled entered
  refine ⟨sound,follow.chained.enterLine entered,?_,?_,fun _ waits => ?_,Bool.noConfusion⟩
  · exact follow.recorded.enterLine follow.attentive follow.sound follow.chained unfilled entered
  · rw [Attentive,free]
    exact nofun
  · rw [free] at waits
    cases waits

theorem Follow.move (follow : Follow ms s lineStart) (line : Nat) : Follow ms { s with line } lineStart := by
  obtain ⟨entries,aligned,level,outer⟩ := follow.recorded
  refine ⟨follow.sound.move line,⟨follow.chained.strict,follow.chained.outermost⟩,
    ⟨entries,aligned,level,outer⟩,fun o waits => ?_,follow.inline,fun start => ⟨(follow.fresh start).1,?_⟩⟩
  · obtain ⟨level,block,empty⟩ := follow.attentive o waits
    exact ⟨level,block,empty⟩
  · rw [takeHead_head]
    exact (takeHead_head s).symm.trans (follow.fresh start).2

section

variable (follow : Follow ms s false)

include follow

theorem Follow.take_within (within : s.ends lexeme = false) (taken : s.take lines lexeme = .ok t) :
    Follow (s.carry t ++ ms) t false := by
  have same := Scanner.take_within within taken
  have entries : t.entries = s.entries := by rw [same]; rfl
  rw [carry_none entries]
  obtain ⟨sound,inline⟩ := follow.sound.take_within (follow.inline rfl) within taken
  obtain ⟨kept,aligned,level,outer⟩ := follow.recorded
  refine ⟨sound,follow.chained.congr (take_indents taken),?_,?_,fun _ => inline,Bool.noConfusion⟩
  · rw [same]
    exact ⟨kept,aligned,level,outer⟩
  · rw [same]
    intro o waits
    obtain ⟨level,block,empty⟩ := follow.attentive o waits
    exact ⟨level,block,empty⟩

theorem Follow.take_end (ends : s.ends lexeme = true) (within : lexeme.isNewline = false)
    (taken : s.take lines lexeme = .ok t) : Follow (s.carry t ++ ms) t false := by
  have inline := follow.inline rfl
  obtain ⟨sound,inline',_⟩ := follow.sound.take_end inline ends within taken
  have kept : Recorded (s.carry t ++ ms) t ∧ Attentive (s.carry t ++ ms) t := by
    obtain ⟨-,⟨rfl,-⟩ | ⟨-,rfl⟩ | ⟨-,opened⟩⟩ := take_ends ends taken
    · cases within
    · exact follow.recorded.endStatement follow.attentive follow.sound inline
    · exact follow.recorded.openBlock follow.attentive follow.sound inline opened
  exact ⟨sound,follow.chained.congr (take_indents taken),kept.1,kept.2,fun _ => inline',Bool.noConfusion⟩

theorem Follow.take_newline (outside : s.groups.isEmpty = true)
    (taken : s.take lines .newline = .ok t) : Follow (s.carry t ++ ms) t true := by
  have inline := follow.inline rfl
  obtain ⟨sound,unfilled,completes⟩ := follow.sound.take_newline inline outside taken
  have chained := follow.chained.congr (take_indents taken)
  have moved := follow.move (s.line + 1)
  obtain ⟨recorded,attentive⟩ := moved.recorded.endLine moved.attentive moved.sound inline
  simp only [take,outside] at taken
  cases taken
  exact ⟨sound,chained,recorded,attentive,Bool.noConfusion,fun _ => ⟨unfilled,completes.idle⟩⟩

theorem Follow.take (taken : s.take lines lexeme = .ok t) :
    Follow (s.carry t ++ ms) t (lexeme.isNewline && t.groups.isEmpty) := by
  cases ends : s.ends lexeme with
  | false =>
    rw [take_inside ends taken]
    exact follow.take_within ends taken
  | true =>
    cases newline : lexeme.isNewline with
    | false => exact follow.take_end ends newline taken
    | true =>
      obtain rfl : lexeme = .newline := by cases lexeme <;> first | rfl | cases newline
      have outside : s.groups.isEmpty = true := by simpa [Scanner.ends,Lexeme.isEnd] using ends
      obtain ⟨_,_,completes⟩ := follow.sound.take_newline (follow.inline rfl) outside taken
      rw [completes.groups,outside]
      exact follow.take_newline outside taken

end

end Scanner

end EmbedScript
