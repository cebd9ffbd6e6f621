import EmbedScript.Token.Forest
import Mathlib.Data.List.GetD
import Mathlib.Tactic.ByContra

/-!
Nesting keeps every statement in its place: the lines of the forest in preorder are the entries in
order, if these fit their nesting.
-/

namespace EmbedScript

open List

namespace Line

mutual

def preorder : Line → List Line
  | .mk head body tiers => .mk head body tiers :: (blockPreorder body ++ preorderAll tiers)

def blockPreorder : Option (List Line) → List Line
  | none => []
  | some lines => preorderAll lines

def preorderAll : List Line → List Line
  | [] => []
  | line :: rest => line.preorder ++ preorderAll rest

end

def Choices (tiers : List Line) : Prop := ∃ (elifs : List Line) (last : Option Line), tiers = elifs ++ last.toList ∧
    (∀ line ∈ elifs, line.head.keyword = some .elifKw) ∧
    ∀ line ∈ last, line.head.keyword = some .elseKw

structure Tiered (line : Line) : Prop where
  chooses : line.tiers ≠ [] → line.head.keyword = some .ifKw
  choices : Choices line.tiers

theorem choices_nil : Choices [] := ⟨[],none,by simp⟩

theorem Choices.elif {tiers} (spelled : line.head.keyword = some .elifKw)
    (choices : Choices tiers) : Choices (line :: tiers) := by
  obtain ⟨elifs,last,rfl,former,latter⟩ := choices
  refine ⟨line :: elifs,last,rfl,?_,latter⟩
  simpa using ⟨spelled,former⟩

end Line

-- What fits

namespace Entry

-- An entry can be followed by a tier when it is an `if`, or an `elif` that is a tier itself.
def tierable (e : Entry) : Bool := e.head.keyword == some (if e.tier then .elifKw else .ifKw)

-- For each depth at which a statement can stand: whether the last line there can take a tier.
def enter (e : Entry) (nesting : List Bool) : List Bool := nesting.take e.depth ++ e.tierable :: if e.opens then [false] else []

structure Fits (e : Entry) (nesting : List Bool) : Prop where
  reached : e.depth < nesting.length
  tiered : e.tier → nesting[e.depth]? = some true
  spelled : e.tier → e.head.keyword = some .elifKw ∨ e.head.keyword = some .elseKw

def nesting : List Entry → List Bool
  | [] => [false]
  | e :: before => e.enter (nesting before)

def Nested : List Entry → Prop
  | [] => True
  | e :: before => e.Fits (nesting before) ∧ Nested before

variable {e : Entry}

theorem Fits.enter_before (fits : e.Fits n) (outer : k < e.depth) : (e.enter n)[k]? = n[k]? := by
  have reached := fits.reached
  rw [enter,getElem?_append_left (by simp; omega),getElem?_take_of_lt outer]

theorem Fits.enter_here (fits : e.Fits n) : (e.enter n)[e.depth]? = some e.tierable := by
  have reached := fits.reached
  have length : (n.take e.depth).length = e.depth := by simp; omega
  rw [enter,getElem?_append_right (by omega),length]
  simp

theorem Fits.enter_below (fits : e.Fits n) : (e.enter n)[e.depth + 1]? = if e.opens then some false else none := by
  have reached := fits.reached
  have length : (n.take e.depth).length = e.depth := by simp; omega
  rw [enter,getElem?_append_right (by omega),length]
  cases e.opens <;> simp

theorem Fits.enter_length (fits : e.Fits n) : (e.enter n).length = e.depth + 1 + if e.opens then 1 else 0 := by
  have reached := fits.reached
  cases opens : e.opens <;> simp [enter,opens] <;> omega

end Entry

-- What waits

namespace Pending

def preorder (p : Pending) : List Line := Line.preorderAll p.tiers ++ Line.preorderAll p.lines

def preorderAll : List Pending → List Line
  | [] => []
  | p :: deeper => preorderAll deeper ++ p.preorder

theorem preorder_empty : preorder {} = [] := by simp [preorder,Line.preorderAll]

theorem preorderAll_append (ps qs : List Pending) : preorderAll (ps ++ qs) = preorderAll qs ++ preorderAll ps := by
  induction ps with
  | nil => simp [preorderAll]
  | cons p ps ih => simp [preorderAll,ih]

theorem preorderAll_replicate (n : Nat) : preorderAll (replicate n {}) = [] := by
  induction n with
  | zero => rfl
  | succ n ih => simp [replicate_succ,preorderAll,ih,preorder_empty]

def waiting (levels : List Pending) (depth : Nat) : Pending := levels.getD depth {}

theorem waiting_drop (levels : List Pending) (depth k : Nat) : waiting (levels.drop depth) k = waiting levels (depth + k) := by
  simp [waiting]

theorem waiting_of_le (beyond : levels.length ≤ k) : waiting levels k = {} := getD_eq_default _ _ beyond

theorem preorderAll_two (few : levels.length ≤ 2) :
    preorderAll levels = (waiting levels 1).preorder ++ (waiting levels 0).preorder := by
  match levels, few with
  | [], _ => simp [preorderAll,waiting,preorder_empty]
  | [p], _ => simp [preorderAll,waiting,preorder_empty]
  | [p,q], _ => simp [preorderAll,waiting]

end Pending

namespace Entry

open Pending

variable {e : Entry}

def line (e : Entry) (levels : List Pending) : Line :=
  .mk e.head (if e.opens then some (waiting levels (e.depth + 1)).lines else none)
    (if e.tier then [] else (waiting levels e.depth).tiers)

def level (e : Entry) (levels : List Pending) : Pending :=
  let here := waiting levels e.depth
  if e.tier then { here with tiers := e.line levels :: here.tiers }
  else { lines := e.line levels :: here.lines }

def above (e : Entry) (levels : List Pending) : List Pending :=
  levels.take e.depth ++ replicate (e.depth - (levels.take e.depth).length) ({} : Pending)

theorem place_eq : e.place levels = e.above levels ++ [e.level levels] := rfl

theorem above_length : (e.above levels).length = e.depth := by
  rw [above,length_append,length_replicate,length_take]
  omega

theorem waiting_above (outer : k < e.depth) : waiting (e.above levels) k = waiting levels k := by
  unfold waiting above
  by_cases there : k < levels.length
  · rw [getD_append _ _ _ _ (by simp; omega)]
    simp [outer]
  · rw [getD_append_right _ _ _ _ (by simp; omega),getD_eq_default levels _ (by omega),getD_replicate _ (by simp; omega)]

theorem place_length : (e.place levels).length = e.depth + 1 := by simp [place_eq,above_length]

theorem waiting_place (k : Nat) : waiting (e.place levels) k =
    if k < e.depth then waiting levels k else if k = e.depth then e.level levels else {} := by
  split
  · next outer =>
    rw [waiting,place_eq,getD_append _ _ _ _ (by rwa [above_length])]
    exact waiting_above outer
  · split
    · next here =>
      rw [waiting,place_eq]
      simp [above_length,here]
    · next beyond => exact waiting_of_le (by rw [place_length]; omega)

-- Nothing is dropped when the block of the entry takes all that waits below it.
theorem preorderAll_place (few : levels.length ≤ e.depth + 2) (free : (waiting levels (e.depth + 1)).tiers = [])
    (closed : e.opens = false → (waiting levels (e.depth + 1)).lines = []) :
    preorderAll (e.place levels) = e.line levels :: preorderAll levels := by
  have outer : preorderAll (e.above levels) = preorderAll (levels.take e.depth) := by
    rw [above,preorderAll_append,preorderAll_replicate,nil_append]
  have inner : preorderAll (levels.drop e.depth) = Line.preorderAll (waiting levels (e.depth + 1)).lines ++
        (waiting levels e.depth).preorder := by
    rw [preorderAll_two (by simp; omega),waiting_drop,waiting_drop]
    simp [preorder,free,Line.preorderAll]
  have block : Line.blockPreorder (if e.opens then some (waiting levels (e.depth + 1)).lines else none) =
      Line.preorderAll (waiting levels (e.depth + 1)).lines := by
    cases opens : e.opens with
    | true => rfl
    | false => simp [Line.blockPreorder,closed opens,Line.preorderAll]
  have here : (e.level levels).preorder = e.line levels :: (Line.preorderAll (waiting levels (e.depth + 1)).lines ++
        (waiting levels e.depth).preorder) := by
    cases tier : e.tier <;> simp [level,tier,preorder,Line.preorderAll,line,Line.preorder,block]
  have whole : preorderAll levels = preorderAll (levels.drop e.depth) ++ preorderAll (levels.take e.depth) := by
    rw [← preorderAll_append,take_append_drop]
  rw [place_eq,preorderAll_append,whole,inner,outer]
  simp [preorderAll,here]

structure Keeps (n : List Bool) (following : List Entry) (levels : List Pending) : Prop where
  within : levels.length ≤ n.length
  waits : ∀ k, (waiting levels k).tiers ≠ [] → n[k]? = some true
  choices : ∀ k, Line.Choices (waiting levels k).tiers
  heads : (preorderAll levels).map Line.head = following.map Entry.head
  tiered : ∀ line ∈ preorderAll levels, line.Tiered

theorem keeps_nil (n : List Bool) : Keeps n [] [] where
  within := Nat.zero_le _
  waits k taken := absurd rfl taken
  choices k := Line.choices_nil
  heads := rfl
  tiered := by simp [preorderAll]

theorem Keeps.tierable (fits : e.Fits n) (keeps : Keeps (e.enter n) following levels)
    (taken : (waiting levels e.depth).tiers ≠ []) : e.tierable = true := by
  have last := keeps.waits e.depth taken
  rw [fits.enter_here] at last
  exact Option.some.inj last

theorem Keeps.line_tiered (fits : e.Fits n) (keeps : Keeps (e.enter n) following levels) : (e.line levels).Tiered := by
  cases tier : e.tier with
  | true =>
    have alone : (e.line levels).tiers = [] := by simp [line,tier,Line.tiers]
    exact ⟨fun taken => absurd alone taken,by rw [alone]; exact Line.choices_nil⟩
  | false =>
    have taken : (e.line levels).tiers = (waiting levels e.depth).tiers := by simp [line,tier,Line.tiers]
    refine ⟨fun any => ?_,by rw [taken]; exact keeps.choices e.depth⟩
    have last := keeps.tierable fits (by rwa [taken] at any)
    simpa [Entry.tierable,tier,line,Line.head] using last

theorem Keeps.level_choices (fits : e.Fits n) (keeps : Keeps (e.enter n) following levels) :
    Line.Choices (e.level levels).tiers := by
  cases tier : e.tier with
  | false => simpa [level,tier] using Line.choices_nil
  | true =>
    have former : (e.level levels).tiers = e.line levels :: (waiting levels e.depth).tiers := by simp [level,tier]
    rw [former]
    rcases fits.spelled tier with elif | else_
    · exact (keeps.choices e.depth).elif elif
    · -- An `else` takes no further tier, so none waits behind it.
      have last : (waiting levels e.depth).tiers = [] := by
        by_contra taken
        simpa [Entry.tierable,tier,else_] using keeps.tierable fits taken
      rw [last]
      exact ⟨[],some (e.line levels),rfl,nofun,fun _ same => Option.some.inj same ▸ else_⟩

theorem Keeps.preorderAll_place (fits : e.Fits n) (keeps : Keeps (e.enter n) following levels) :
    preorderAll (e.place levels) = e.line levels :: preorderAll levels := by
  have within := keeps.within
  rw [fits.enter_length] at within
  refine Entry.preorderAll_place (by split at within <;> omega) ?_ fun opens => ?_
  · by_contra taken
    have last := keeps.waits _ taken
    rw [fits.enter_below] at last
    cases opens : e.opens <;> simp at last
  · rw [waiting_of_le (by simpa [opens] using within)]

theorem Keeps.place (fits : e.Fits n) (keeps : Keeps (e.enter n) following levels) :
    Keeps n (e :: following) (e.place levels) where
  within := by
    rw [place_length]
    exact fits.reached
  waits k taken := by
    rw [waiting_place] at taken
    split at taken
    · next outer => rw [← fits.enter_before outer,keeps.waits k taken]
    · split at taken
      · next here =>
        have tier : e.tier = true := by
          by_contra plain
          simp [level,plain] at taken
        rw [here,fits.tiered tier]
      · exact absurd rfl taken
  choices k := by
    rw [waiting_place]
    split
    · exact keeps.choices k
    · split
      · exact keeps.level_choices fits
      · exact Line.choices_nil
  heads := by
    rw [keeps.preorderAll_place fits,map_cons,keeps.heads]
    rfl
  tiered := by
    rw [keeps.preorderAll_place fits]
    simpa using ⟨keeps.line_tiered fits,keeps.tiered⟩

theorem Keeps.foldl (nested : Nested before) (keeps : Keeps (nesting before) following levels) :
    Keeps [false] (before.reverse ++ following) (before.foldl (fun ls e => e.place ls) levels) := by
  induction before generalizing following levels with
  | nil => exact keeps
  | cons e before ih =>
    obtain ⟨fits,nested⟩ := nested
    simpa using ih nested (keeps.place fits)

end Entry

theorem Entry.Keeps.preorderAll_forest (keeps : Keeps [false] es (es.foldr Entry.place [])) :
    Pending.preorderAll (es.foldr Entry.place []) = Line.preorderAll (Line.forest es) := by
  have within : (es.foldr Entry.place []).length ≤ 1 := keeps.within
  have free : (Pending.waiting (es.foldr Entry.place []) 0).tiers = [] := by
    by_contra taken
    simpa using keeps.waits 0 taken
  rw [Pending.preorderAll_two (Nat.le_succ_of_le within),Pending.waiting_of_le within,
    Pending.preorder_empty,Pending.preorder,free]
  rfl

-- The forest of entries that fit: their statements in order, and tiers where they belong.
theorem Line.forest_nested (nested : Entry.Nested es.reverse) :
    (preorderAll (forest es)).map head = es.map Entry.head ∧ ∀ line ∈ preorderAll (forest es), line.Tiered := by
  have keeps := (Entry.keeps_nil (Entry.nesting es.reverse)).foldl nested
  rw [foldl_reverse,reverse_reverse,append_nil] at keeps
  rw [← keeps.preorderAll_forest]
  exact ⟨keeps.heads,keeps.tiered⟩

end EmbedScript
