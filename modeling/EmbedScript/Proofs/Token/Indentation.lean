import EmbedScript.Proofs.Token.Nesting

/-!
Every open block is indented further than the one around it, so a line selects its block by length.
-/

namespace EmbedScript

open List

def StrictlyExtends (inner outer : List Char) : Prop := outer <+: inner ∧ outer.length < inner.length

-- Selecting a block

namespace Level

variable {levels : List Level}

-- Blocks indented further than a line come first, so leaving them is leaving a segment.
theorem dropWhile_eq_filter (strict : (levels.map Level.indent).Pairwise StrictlyExtends) (n : Nat) :
    levels.dropWhile (n < ·.indent.length) = levels.filter (·.indent.length ≤ n) := by
  induction levels with
  | nil => rfl
  | cons level levels ih =>
    obtain ⟨around,strict⟩ := pairwise_cons.mp strict
    rw [dropWhile_cons,filter_cons]
    by_cases further : n < level.indent.length
    · rw [if_pos (decide_eq_true further),if_neg (by simpa using further),ih strict]
    · have kept : levels.filter (·.indent.length ≤ n) = levels := by
        refine filter_eq_self.mpr fun outer among => decide_eq_true ?_
        have shorter := (around outer.indent (mem_map_of_mem among)).2
        omega
      rw [if_neg (by simpa using further),if_pos (decide_eq_true (Nat.not_lt.mp further)),kept]

theorem dropWhile_select (strict : (levels.map Level.indent).Pairwise StrictlyExtends) {indent}
    (known : indent ∈ levels.map Level.indent) :
    ∃ level outer, levels.dropWhile (indent.length < ·.indent.length) = level :: outer ∧ level.indent = indent := by
  induction levels with
  | nil => cases known
  | cons level levels ih =>
    obtain ⟨around,strict⟩ := pairwise_cons.mp strict
    rw [dropWhile_cons]
    rcases mem_cons.mp known with here | outer
    · rw [if_neg (by simp [here])]
      exact ⟨level,levels,rfl,here.symm⟩
    · have shorter := (around indent outer).2
      rw [if_pos (decide_eq_true shorter)]
      exact ih strict outer

end Level

namespace Scanner

def indents (s : Scanner) : List (List Char) := (s.level :: s.outer).map Level.indent

structure Chained (s : Scanner) : Prop where
  strict : s.indents.Pairwise StrictlyExtends
  outermost : [] ∈ s.indents

variable {s t : Scanner}

theorem Chained.longest (chained : s.Chained) : ∀ i ∈ s.indents, i.length ≤ s.level.indent.length := by
  obtain ⟨around,_⟩ := pairwise_cons.mp chained.strict
  refine forall_mem_cons.mpr ⟨Nat.le_refl _,fun i outer => ?_⟩
  exact Nat.le_of_lt (around i outer).2

theorem enterLine_free (free : s.opener = none) (chained : s.Chained) (entered : s.enterLine indent = .ok t) :
    t.level ∈ s.level :: s.outer ∧ t.level.indent = indent ∧
      t.level :: t.outer = (s.level :: s.outer).filter (·.indent.length ≤ indent.length) := by
  unfold enterLine at entered
  rw [free] at entered
  simp only at entered
  split at entered
  · next level outer left =>
    split at entered
    · next same =>
      cases entered
      have filtered := Level.dropWhile_eq_filter chained.strict indent.length
      rw [left] at filtered
      refine ⟨?_,eq_of_beq same,filtered⟩
      exact (dropWhile_sublist _).subset (left ▸ mem_cons_self)
    · split at entered <;> cases entered
  · cases entered

theorem enterLine_free_iff (free : s.opener = none) (chained : s.Chained) :
    (∃ t, s.enterLine indent = .ok t) ↔ indent ∈ s.indents := by
  constructor
  · rintro ⟨t,entered⟩
    obtain ⟨among,same,_⟩ := enterLine_free free chained entered
    exact same ▸ mem_map_of_mem among
  · intro known
    obtain ⟨level,outer,left,same⟩ := Level.dropWhile_select chained.strict known
    refine ⟨{ s with level, outer },?_⟩
    unfold enterLine
    simp only [free,left,same,beq_self_eq_true,if_true]

theorem enterLine_opener (waits : s.opener = some o) :
    s.enterLine indent = .ok t ↔ StrictlyExtends indent s.level.indent ∧
      t = { s with opener := none, outer := s.level :: s.outer, level := ⟨indent,o.depth + 1,false⟩ } := by
  unfold enterLine
  rw [waits]
  simp only
  by_cases extends' : s.level.indent.length < indent.length && s.level.indent.isPrefixOf indent
  · obtain ⟨longer,starts⟩ := (Bool.and_eq_true _ _).mp extends'
    rw [if_pos extends',Except.ok.injEq,eq_comm]
    exact ⟨fun same => ⟨⟨ isPrefixOf_iff_prefix.mp starts,of_decide_eq_true longer⟩,same⟩,And.right⟩
  · rw [if_neg extends']
    refine ⟨nofun,fun ⟨⟨starts,longer⟩,_⟩ => absurd ?_ extends'⟩
    exact (Bool.and_eq_true _ _).mpr ⟨decide_eq_true longer, isPrefixOf_iff_prefix.mpr starts⟩

theorem Chained.enterLine (chained : s.Chained) (entered : s.enterLine indent = .ok t) : t.Chained := by
  cases waits : s.opener with
  | none =>
    obtain ⟨_,_,left⟩ := enterLine_free waits chained entered
    have sublist : (t.level :: t.outer).Sublist (s.level :: s.outer) := left ▸ filter_sublist
    refine ⟨chained.strict.sublist (sublist.map _),?_⟩
    obtain ⟨level,among,none⟩ := mem_map.mp chained.outermost
    rw [indents,left]
    exact mem_map.mpr ⟨level,mem_filter.mpr ⟨among,by simp [none]⟩,none⟩
  | some o =>
    obtain ⟨extends',rfl⟩ := (enterLine_opener waits).mp entered
    obtain ⟨around,_⟩ := pairwise_cons.mp chained.strict
    refine ⟨pairwise_cons.mpr ⟨?_,chained.strict⟩,.tail _ chained.outermost⟩
    refine forall_mem_cons.mpr ⟨extends',fun i outer => ?_⟩
    obtain ⟨starts,longer⟩ := around i outer
    exact ⟨starts.trans extends'.1,Nat.lt_trans longer extends'.2⟩

theorem place_indents (head : Head) (opens : Bool) : (s.place head opens).2.indents = s.indents := by
  unfold place
  split <;> rfl

theorem takeHead_indents : s.takeHead.2.indents = s.indents := by
  rw [takeHead_rest]
  rfl

theorem endStatement_indents : s.endStatement.indents = s.indents := by
  rw [endStatement_eq]
  split
  · exact takeHead_indents
  · exact (place_indents _ _).trans takeHead_indents

theorem openBlock_indents (opened : s.openBlock = .ok t) : t.indents = s.indents := by
  unfold openBlock at opened
  split at opened
  · cases opened
  · next head rest taken =>
    obtain rfl : s.takeHead.2 = rest := by rw [taken]
    have blocks : s.takeHead.2.indents = s.indents := takeHead_indents
    split at opened
    iterate 2
      split at opened
      · cases opened
        exact blocks
      · cases opened
    cases opened
    exact (place_indents head true).trans blocks

theorem take_indents (taken : s.take lines lexeme = .ok t) : t.indents = s.indents := by
  cases ends : s.ends lexeme with
  | false =>
    rw [take_within ends taken]
    rfl
  | true =>
    obtain ⟨-,⟨-,rfl⟩ | ⟨-,rfl⟩ | ⟨-,opened⟩⟩ := take_ends ends taken
    · exact endStatement_indents
    · exact endStatement_indents
    · exact openBlock_indents opened

theorem Chained.congr (chained : s.Chained) (same : t.indents = s.indents) : t.Chained :=
  ⟨same ▸ chained.strict,same ▸ chained.outermost⟩

end Scanner

end EmbedScript
