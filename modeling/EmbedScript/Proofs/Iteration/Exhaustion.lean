import EmbedScript.Proofs.Iteration.Generator

/-!
The end of a walk. A list is walked by index, and every advance counts, so that a list which grows
behind the end of a walk may open it again.
-/

namespace EmbedScript

open Exec

-- What runs in between

def Outcome.Leaves {α : Type} (o : Outcome α) (left : World) : Prop := (∃ a, o = .done a left) ∨ ∃ e, o = .fault e left

/-- States that statements and advances lead to, whichever they are and however they end. -/
inductive World.Leads (w : World) : World → Prop where
  | refl : Leads w w
  | statement {middle left : World} {n : Nat} {f : Frame} {instr : Instr} (before : w.Leads middle)
      (ends : (instr.exec (engine n) f middle).Leaves left) : Leads w left
  | advance {middle left : World} {n : Nat} {c : Ref .cursor} (before : w.Leads middle)
      (ends : ((engine n).advance c middle).Leaves left) : Leads w left

theorem Exec.Lasting.leaves {x : Exec α} (lasting : x.Lasting)
    (ends : (x w).Leaves left) : w.Grows left := by
  have follows := lasting w
  obtain ⟨_,ran⟩ | ⟨_,ran⟩ := ends
  · rw [ran] at follows
    exact follows
  · rw [ran] at follows
    exact follows

theorem advanceFrom_lasting (n fuel : Nat) (c : Ref .cursor) : ((engine n).advanceFrom fuel c).Lasting := by
  have advances : growing.Quiet true ((engine n).advanceFrom fuel c) := Accord.rel_advanceFrom fuel c
  exact advances

theorem World.Leads.grows {w left : World} (leads : w.Leads left) : w.Grows left := by
  induction leads with
  | refl => exact .refl w
  | @statement _ _ n f instr _ ends before =>
    have runs : growing.Quiet true (instr.exec (engine n) f) := Accord.rel_exec f instr
    exact before.trans (Exec.Lasting.leaves runs ends)
  | advance _ ends before => exact before.trans ((advanceFrom_lasting _ _ _).leaves ends)

-- Walks and their ends

/-- The container whose items a value gives, or makes its elements of. -/
inductive Heap.Source (h : Heap) : Value → Value → Prop where
  | list (r : Ref .list) : Source h (.list r) (.list r)
  | tuple (tag : Nat) (items : List Value) : Source h (.tuple tag items) (.tuple tag items)
  | str (text : String) : Source h (.str text) (.str text)
  | dict (r : Ref .dict) : Source h (.dict r) (.dict r)
  | set (r : Ref .set) : Source h (.set r) (.set r)
  | range (r : Range) : Source h (.range r) (.range r)
  | generator {g : Ref .generator} {container : Value} (rest : h.Source (h.generator g).source container) :
      Source h (.generator g) container

-- Of a container that is no list, and no range either, the items are taken when the walk begins.
def Cursor.Through (container : Value) : Cursor → Prop
  | .list r _ => container = .list r
  | .items _ | .range .. => ∀ r, container ≠ .list r
  | _ => False

-- The cursor below all generators walks through the container itself.
inductive Heap.Lowest (h : Heap) (container : Value) : Nat → Ref .cursor → Cursor → Prop where
  | here {c : Ref .cursor} {low : Cursor} (there : c.id < h.cursors.size)
      (held : (h.cursor c).cursor = low) (walks : low.Through container) : Lowest h container 0 c low
  | under {depth : Nat} {c inner : Ref .cursor} {g : Ref .generator} {low : Cursor}
      (there : c.id < h.cursors.size) (held : (h.cursor c).cursor = .mapped inner g)
      (rest : h.Lowest container depth inner low) : Lowest h container (depth + 1) c low

def Cursor.AtEnd (h : Heap) (c : Cursor) : Prop := ∃ next, c.step h = some (none,next)

variable {h : Heap} {container : Value} {c : Ref .cursor} {low later : Cursor}

theorem Cursor.Onward.through (onward : later.Onward low) (walks : low.Through container) :
    later.Through container := by
  cases low with
  | list | items | range =>
    obtain ⟨_,rfl,-⟩ := onward
    exact walks
  | mapped | object | shared => exact walks.elim

theorem Cursor.Onward.mapped {inner}
    (onward : later.Onward low) (held : low = .mapped inner g) : later = .mapped inner g := by
  subst held
  exact onward

theorem Heap.Lowest.grows (lowest : h.Lowest container depth c low) (grows : h.Grows grown) :
    ∃ later, grown.Lowest container depth c later ∧ later.Onward low := by
  induction lowest with
  | here there held walks =>
    have onward := held ▸ grows.onward _ there
    exact ⟨_,.here (Nat.lt_of_lt_of_le there grows.cursors) rfl (onward.through walks),onward⟩
  | under there held _ ih =>
    obtain ⟨later,rest,onward⟩ := ih
    have still := (grows.onward _ there).mapped held
    exact ⟨later,.under (Nat.lt_of_lt_of_le there grows.cursors) still rest,onward⟩

theorem Heap.Lowest.through (lowest : h.Lowest container depth c low) : low.Through container := by
  induction lowest with
  | here _ _ walks => exact walks
  | under _ _ _ ih => exact ih

theorem Cursor.Through.step (walks : low.Through container) (h : Heap) : ∃ item next, low.step h = some (item,next) := by
  cases low with
  | list | items | range => exact ⟨_,_,rfl⟩
  | mapped | object | shared => exact walks.elim

theorem Cursor.AtEnd.onward (ended : low.AtEnd h) (walks : low.Through container) (onward : later.Onward low)
    (list : ∀ r, container = .list r → (grown.list r).size ≤ (h.list r).size) : later.AtEnd grown := by
  obtain ⟨_,steps⟩ := ended
  cases low with
  | list r index =>
    obtain ⟨next,rfl,further⟩ := onward
    have short := Array.getElem?_eq_none_iff.mp (congrArg Prod.fst (Option.some.inj steps))
    have past := Nat.le_trans (list r walks) (Nat.le_trans short further)
    exact ⟨.list r (next + 1),by rw [step,Array.getElem?_eq_none past]⟩
  | items all =>
    obtain ⟨rest,rfl,suffix⟩ := onward
    cases List.head?_eq_none_iff.mp (congrArg Prod.fst (Option.some.inj steps))
    cases List.suffix_nil.mp suffix
    exact ⟨.items [],rfl⟩
  | range r index =>
    obtain ⟨next,rfl,further⟩ := onward
    have short := Option.map_eq_none_iff.mp (congrArg Prod.fst (Option.some.inj steps))
    have past := Nat.le_trans (Range.get?_eq_none_iff.mp short) further
    exact ⟨.range r (next + 1),by rw [step,Range.get?_eq_none_iff.mpr past,Option.map_none]⟩
  | mapped | object | shared => exact walks.elim

namespace Engine

variable {k : Engine} {n fuel : Nat} {w left : World}

theorem advanceFrom_atEnd (lowest : w.heap.Lowest container depth c low) (ended : low.AtEnd w.heap)
    (enough : depth < fuel) : ∃ left, k.advanceFrom fuel c w = .done none left := by
  induction lowest generalizing fuel with
  | here there held _ =>
    obtain ⟨fuel,rfl⟩ := Nat.exists_eq_succ_of_ne_zero (Nat.ne_zero_of_lt enough)
    obtain ⟨next,steps⟩ := ended
    obtain ⟨cursors,ran,-⟩ := advanceFrom_step there (held ▸ steps)
    exact ⟨_,ran fuel⟩
  | under there held _ ih =>
    obtain ⟨fuel,rfl⟩ := Nat.exists_eq_succ_of_ne_zero (Nat.ne_zero_of_lt enough)
    obtain ⟨left,ran⟩ := ih ended (Nat.lt_of_succ_lt_succ enough)
    rw [advanceFrom_mapped held,bind_done ran]
    exact ⟨left,rfl⟩

-- By induction on the fuel, because an item of which nothing is made sends a generator on to the next.
theorem atEnd_of_advanceFrom (lowest : w.heap.Lowest container depth c low)
    (ran : (engine n).advanceFrom fuel c w = .done none left) :
    depth < fuel ∧ ∃ later, left.heap.Lowest container depth c later ∧ later.AtEnd left.heap := by
  induction fuel generalizing w c depth low with
  | zero => cases ran
  | succ fuel ih =>
    have grows := (advanceFrom_lasting n (fuel + 1) c).done ran
    cases lowest with
    | here there held walks =>
      obtain ⟨item,next,steps⟩ := walks.step w.heap
      obtain ⟨cursors,moves,-⟩ := advanceFrom_step there (held ▸ steps)
      obtain ⟨later,lowest,onward⟩ := (Heap.Lowest.here there held walks).grows grows.heap
      cases (moves fuel).symm.trans ran
      have ended : low.AtEnd w.heap := ⟨next,steps⟩
      exact ⟨Nat.zero_lt_succ fuel,later,lowest,ended.onward walks onward fun _ _ => Nat.le_refl _⟩
    | @under depth _ inner g _ there held rest =>
      rw [advanceFrom_mapped held] at ran
      obtain ⟨item,middle,taken,ran⟩ := bind_eq_done ran
      cases item with
      | none =>
        cases ran
        obtain ⟨enough,later,lowest,ended⟩ := ih rest taken
        have still := (grows.heap.onward c there).mapped held
        exact ⟨Nat.succ_lt_succ enough,later,.under (Nat.lt_of_lt_of_le there grows.heap.cursors) still lowest,ended⟩
      | some item =>
        obtain ⟨element,next,made,ran⟩ := bind_eq_done ran
        cases element with
        | some element => cases ran
        | none =>
          have stepping : growing.Quiet true ((engine n).step g item) := Accord.Engines.step nofun
          have reached := ((advanceFrom_lasting _ _ _).done taken).trans (Exec.Lasting.done stepping made)
          obtain ⟨later,lowest,-⟩ := (Heap.Lowest.under there held rest).grows reached.heap
          obtain ⟨enough,found⟩ := ih lowest ran
          exact ⟨Nat.lt_succ_of_lt enough,found⟩

theorem lowest_new (cursor : Cursor) (walks : cursor.Through container)
    (ran : newCursor cursor w = .done c left) : left.heap.Lowest container 0 c cursor := by
  cases ran
  exact .here (by simp) (held_new w cursor) walks

theorem lowest_of_iterFrom (source : w.heap.Source v container) (ran : (engine n).iterFrom fuel v w = .done c left) :
    ∃ depth low, left.heap.Lowest container depth c low := by
  induction source generalizing fuel c left with
  | list r =>
    cases fuel with
    | zero => cases ran
    | succ fuel => exact ⟨0,_,lowest_new (.list r 0) rfl ran⟩
  | tuple | str | dict | set =>
    cases fuel with
    | zero => cases ran
    | succ fuel => exact ⟨0,_,lowest_new (.items _) nofun ran⟩
  | range r =>
    cases fuel with
    | zero => cases ran
    | succ fuel => exact ⟨0,_,lowest_new (.range r 0) nofun ran⟩
  | @generator g container _ ih =>
    cases fuel with
    | zero => cases ran
    | succ fuel =>
      have opens : ((engine n).iterFrom fuel (w.heap.generator g).source >>= fun inner =>
          newCursor (.mapped inner g)) w = .done c left := ran
      obtain ⟨inner,middle,opened,ran⟩ := bind_eq_done opens
      obtain ⟨depth,low,lowest⟩ := ih opened
      obtain ⟨later,lowest,-⟩ := lowest.grows (.push_cursor ⟨.mapped inner g,false⟩)
      cases ran
      exact ⟨depth + 1,later,.under (by simp) (held_new middle _) lowest⟩

-- Walks through lists

/-- Advances of a cursor, each with the state it starts in. In between anything may happen that leaves
the cursor where it is. -/
inductive Takes (k : Engine) (c : Ref .cursor) : World → List (World × Option Value) → Prop where
  | nil (w : World) : Takes k c w []
  | cons {w now left : World} {item : Option Value} {taken : List (World × Option Value)}
      (kept : now.heap.cursors[c.id]? = w.heap.cursors[c.id]?)
      (next : k.advance c now = .done item left) (rest : k.Takes c left taken) :
      Takes k c w ((now,item) :: taken)

theorem takes_list (takes : k.Takes c w taken) (there : c.id < w.heap.cursors.size)
    (held : (w.heap.cursor c).cursor = .list r index)
    (found : taken[i]? = some (now,item)) : item = (now.heap.list r)[index + i]? := by
  induction takes generalizing index i with
  | nil => cases found
  | @cons w now' left item' taken kept next rest ih =>
    have present : c.id < now'.heap.cursors.size :=
      (Array.getElem?_eq_some_iff.mp (kept.trans (Array.getElem?_eq_getElem there))).1
    have still : (now'.heap.cursor c).cursor = .list r index := by
      rw [← held,Heap.cursor,kept]
      rfl
    rw [advance] at next
    cases fuel : k.fuel with
    | zero =>
      rw [fuel] at next
      cases next
    | succ fuel' =>
      have steps : (now'.heap.cursor c).cursor.step now'.heap =
          some ((now'.heap.list r)[index]?,.list r (index + 1)) := by rw [still]; rfl
      obtain ⟨cursors,ran,size,moved,-⟩ := advanceFrom_step present steps
      rw [fuel,ran] at next
      cases next
      cases i with
      | zero =>
        cases found
        rfl
      | succ i =>
        rw [Nat.add_succ,← Nat.succ_add]
        exact ih (size ▸ present) moved found

end Engine

theorem engine_fuel (n : Nat) : (engine n).fuel = n - 1 := by cases n <;> rfl

/-- Once a walk has reported the end it does so for good, whatever runs in between, as long as a
list below it is not longer than it was then. -/
theorem exhaustion_lasts {n : Nat} {v container : Value} {w start : World} {c : Ref .cursor}
    (source : w.heap.Source v container) (made : (engine n).iter v w = .done c start) :
    (∀ reached left later, start.Leads reached → (engine n).advance c reached = .done none left →
      left.Leads later →
      (∀ r, container = .list r → (later.heap.list r).size ≤ (left.heap.list r).size) →
      ∀ m, n ≤ m → ∃ last, (engine m).advance c later = .done none last) ∧
    ∀ r, v = .list r → ∀ taken, (engine n).Takes c start taken →
      ∀ (i : Nat) now item, taken[i]? = some (now, item) → item = (now.heap.list r)[i]? := by
  constructor
  · intro reached left later before ended after list m more
    obtain ⟨depth, low, lowest⟩ := Engine.lowest_of_iterFrom source made
    obtain ⟨low, lowest, -⟩ := lowest.grows before.grows.heap
    obtain ⟨enough, low, lowest, atEnd⟩ := Engine.atEnd_of_advanceFrom lowest ended
    obtain ⟨last, still, onward⟩ := lowest.grows after.grows.heap
    refine Engine.advanceFrom_atEnd still (atEnd.onward lowest.through onward list) ?_
    rw [engine_fuel] at enough ⊢
    omega
  · intro r same taken takes i now item found
    subst same
    rw [Engine.iter] at made
    cases fuel : (engine n).fuel with
    | zero =>
      rw [fuel] at made
      cases made
    | succ fuel' =>
      rw [fuel] at made
      cases made
      have given := Engine.takes_list takes (by simp) (Engine.held_new w (.list r 0)) found
      rw [given, Nat.zero_add]

-- The local variables are `x`, the list `[7]`, and `y`, the list `[8, 9]`.
def trailWorld : World :=
  { heap := { lists := #[#[.int 7],#[.int 8,.int 9]], cells := #[some (.list ⟨0⟩),some (.list ⟨1⟩)] }
    types := ⟨[]⟩, maxDepth := 8 }

-- `x[0] = 5`
def overwrites : Instr := .mk 1 (.assign (.literal (.int 5)) [.index (.slot 0 "x" false) (.literal (.int 0))])

-- `x += y`
def lengthens : Instr := .mk 1 (.augment (.slot 0 "x" false) .add (.slot 1 "y" false) (.cell (.slot 0) "x" .dynamic))

theorem exhaustion_lasts_trail : ∃ c start first left later,
    (engine 2).iter (.list ⟨0⟩) trailWorld = .done c start ∧
    (engine 2).advance c start = .done (some (.int 7)) first ∧
    (engine 2).advance c first = .done none left ∧
    overwrites.exec (engine 2) ⟨0, #[], ⟨0⟩⟩ left = .done .next later ∧
    ∃ last, (engine 2).advance c later = .done none last := by
  obtain ⟨c, start, first, left, later, made, seven, ended, ran, short⟩ :
      ∃ c start first left later, (engine 2).iter (.list ⟨0⟩) trailWorld = .done c start ∧
        (engine 2).advance c start = .done (some (.int 7)) first ∧
        (engine 2).advance c first = .done none left ∧
        overwrites.exec (engine 2) ⟨0, #[], ⟨0⟩⟩ left = .done .next later ∧
        (later.heap.list ⟨0⟩).size ≤ (left.heap.list ⟨0⟩).size :=
    ⟨_, _, _, _, _, rfl, rfl, rfl, rfl, Nat.le_refl 1⟩
  refine ⟨c, start, first, left, later, made, seven, ended, ran, ?_⟩
  have before : start.Leads first := .advance .refl (.inl ⟨_, seven⟩)
  have after : left.Leads later := .statement .refl (.inl ⟨_, ran⟩)
  refine (exhaustion_lasts (.list ⟨0⟩) made).1 first left later before ended after (fun r same => ?_) 2
    (Nat.le_refl 2)
  cases same
  exact short

-- Behind the end the walk has counted two items, so it gives the third of the list that has grown.
theorem exhausted_walk_opens : ∃ c start first left later last,
    (engine 2).iter (.list ⟨0⟩) trailWorld = .done c start ∧
    (engine 2).advance c start = .done (some (.int 7)) first ∧
    (engine 2).advance c first = .done none left ∧
    lengthens.exec (engine 2) ⟨0, #[], ⟨0⟩⟩ left = .done .next later ∧
    (engine 2).advance c later = .done (some (.int 9)) last :=
  ⟨⟨0⟩, trailWorld.withCursors #[⟨.list ⟨0⟩ 0, false⟩], trailWorld.withCursors #[⟨.list ⟨0⟩ 1, false⟩],
    trailWorld.withCursors #[⟨.list ⟨0⟩ 2, false⟩], _, _, rfl, rfl, rfl, rfl, rfl⟩

end EmbedScript
