import EmbedScript.Proofs.Typing.Operators

/-!
Keys that never change, and their equality. A dict tells keys apart by their hash keys, a script by
`==`; the two agree, but for ranges, all of which have one hash key.
-/

namespace EmbedScript

open Exec

variable {v a : Value}

namespace Value

-- Values that stand for themselves all the way down.
inductive IsKey : Value → Prop
  | none : IsKey .none
  | bool (b : Bool) : IsKey (.bool b)
  | int (n : Int64) : IsKey (.int n)
  | str (text : String) : IsKey (.str text)
  | tuple (tag : Nat) {items : List Value} (keys : ∀ item ∈ items, IsKey item) :
      IsKey (.tuple tag items)

inductive IsFixed : Value → Prop
  | none : IsFixed .none
  | bool (b : Bool) : IsFixed (.bool b)
  | int (n : Int64) : IsFixed (.int n)
  | str (text : String) : IsFixed (.str text)
  | range (r : Range) : IsFixed (.range r)
  | tuple (tag : Nat) {items : List Value} (fixed : ∀ item ∈ items, IsFixed item) :
      IsFixed (.tuple tag items)

theorem IsKey.fixed (key : v.IsKey) : v.IsFixed := by
  induction key with
  | none => exact .none
  | bool b => exact .bool b
  | int n => exact .int n
  | str text => exact .str text
  | tuple tag _ ih => exact .tuple tag ih

mutual

def alike : Value → Value → Bool
  | .none, .none => true
  | .str a, .str b => a == b
  | .tuple _ as, .tuple _ bs => allAlike as bs
  | a, b => a.asInt?.isSome && a.asInt? == b.asInt?

def allAlike : List Value → List Value → Bool
  | [], [] => true
  | a :: as, b :: bs => alike a b && allAlike as bs
  | _, _ => false

end

mutual

def matched : Value → Value → Bool
  | .none, .none => true
  | .str a, .str b => a == b
  | .range r, .range s => r == s
  | .tuple _ as, .tuple _ bs => allMatched as bs
  | a, b => a.asInt?.isSome && a.asInt? == b.asInt?

def allMatched : List Value → List Value → Bool
  | [], [] => true
  | a :: as, b :: bs => matched a b && allMatched as bs
  | _, _ => false

end

mutual

-- No two ranges that stand at the same place are different.
def sameRanges : Value → Value → Bool
  | .range r, .range s => r == s
  | .tuple _ as, .tuple _ bs => allSameRanges as bs
  | _, _ => true

def allSameRanges : List Value → List Value → Bool
  | a :: as, b :: bs => sameRanges a b && allSameRanges as bs
  | _, _ => true

end

mutual

-- The container that keeps a value from being a key: itself, or the first one in a tuple.
def mutable? : Value → Option String
  | .list _ => some "list"
  | .dict _ => some "dict"
  | .set _ => some "set"
  | .tuple _ items => anyMutable? items
  | _ => Option.none

def anyMutable? : List Value → Option String
  | [] => Option.none
  | v :: vs => (mutable? v).or (anyMutable? vs)

end

mutual

def height : Value → Nat
  | .tuple _ items => heights items + 1
  | _ => 0

def heights : List Value → Nat
  | [] => 0
  | v :: vs => max (height v) (heights vs)

end

theorem height_le_heights (mem : v ∈ vs) : v.height ≤ heights vs := by
  induction vs with
  | nil => contradiction
  | cons u us ih =>
    rcases List.mem_cons.mp mem with rfl | mem
    · exact Nat.le_max_left ..
    · exact Nat.le_trans (ih mem) (Nat.le_max_right ..)

theorem anyMutable?_eq_none (fixed : ∀ v ∈ vs, v.mutable? = Option.none) : anyMutable? vs = Option.none := by
  induction vs with
  | nil => rfl
  | cons v vs ih =>
    rw [anyMutable?,fixed v (.head _)]
    exact ih fun v mem => fixed v (.tail _ mem)

theorem IsFixed.mutable?_eq_none (fixed : v.IsFixed) : v.mutable? = Option.none := by
  induction fixed with
  | none | bool | int | str | range => rfl
  | tuple _ _ ih => exact anyMutable?_eq_none ih

theorem IsKey.mutable?_eq_none (key : v.IsKey) : v.mutable? = Option.none := key.fixed.mutable?_eq_none

theorem IsKey.isObject_eq_false (key : v.IsKey) : v.isObject = false := by cases key <;> rfl

theorem allMatched_of_length_ne (different : as.length ≠ bs.length) : allMatched as bs = false := by
  induction as generalizing bs with
  | nil =>
    cases bs with
    | nil => contradiction
    | cons => rfl
  | cons a as ih =>
    cases bs with
    | nil => rfl
    | cons b bs => rw [allMatched,ih fun same => different (congrArg Nat.succ same),Bool.and_false]

theorem allAlike_eq_allMatched (each : ∀ a ∈ as, ∀ b ∈ bs, a.alike b = a.matched b) : allAlike as bs = allMatched as bs := by
  induction as generalizing bs with
  | nil => cases bs <;> rfl
  | cons a as ih =>
    cases bs with
    | nil => rfl
    | cons b bs => rw [allAlike,allMatched,each a (.head _) b (.head _),
        ih fun a here b there => each a (.tail _ here) b (.tail _ there)]

theorem IsKey.alike_eq_matched (left : a.IsKey) (right : b.IsKey) : a.alike b = a.matched b := by
  induction left generalizing b with
  | @tuple tag items keys ih =>
    cases right with
    | none | bool | int | str => rfl
    | @tuple tag others right =>
      exact allAlike_eq_allMatched fun a here b there => ih a here (right b there)
  | none | bool | int | str => cases right <;> rfl

theorem allSameRanges_of_forall (each : ∀ a ∈ as, ∀ b ∈ bs, a.sameRanges b = true) : allSameRanges as bs = true := by
  induction as generalizing bs with
  | nil => cases bs <;> rfl
  | cons a as ih =>
    cases bs with
    | nil => rfl
    | cons b bs =>
      rw [allSameRanges,each a (.head _) b (.head _)]
      exact ih fun a here b there => each a (.tail _ here) b (.tail _ there)

theorem IsKey.sameRanges (left : a.IsKey) (right : b.IsKey) : a.sameRanges b = true := by
  induction left generalizing b with
  | @tuple tag items keys ih =>
    cases right with
    | none | bool | int | str => rfl
    | @tuple tag others right => exact allSameRanges_of_forall fun a here b there => ih a here (right b there)
  | none | bool | int | str => cases right <;> rfl

end Value

namespace HashKey

open Value (mutable? anyMutable? alike matched allMatched sameRanges allSameRanges)

mutual

theorem ofValue_eq_error : (v : Value) → v.mutable? = some kind → ofValue v = .error (.unhashable kind)
  | .list _, found | .dict _, found | .set _, found => by
    cases found
    rfl
  | .tuple _ items, found => by
    rw [ofValue,ofValues_eq_error items found]
    rfl

theorem ofValues_eq_error : (vs : List Value) → anyMutable? vs = some kind →
    ofValues vs = .error (.unhashable kind)
  | v :: vs, found => by
    rw [ofValues]
    cases first : v.mutable? with
    | some other =>
      rw [anyMutable?,first] at found
      cases found
      rw [ofValue_eq_error v first]
      rfl
    | none =>
      rw [anyMutable?,first] at found
      obtain ⟨h,hashed⟩ := exists_ofValue v first
      rw [hashed,ofValues_eq_error vs found]
      rfl

theorem exists_ofValue : (v : Value) → v.mutable? = none → ∃ h, ofValue v = .ok h
  | .tuple _ items, found => by
    obtain ⟨hs,hashed⟩ := exists_ofValues items found
    exact ⟨.tuple hs,by rw [ofValue,hashed]; rfl⟩
  | .float x, _ => by
    rw [ofValue]
    split <;> exact ⟨_,rfl⟩
  | .list _, found | .dict _, found | .set _, found => nomatch found
  | .none, _ | .bool _, _ | .int _, _ | .str _, _ | .type _, _ | .range _, _ | .keyword .., _
  | .function _, _ | .method .., _ | .cls _, _ | .object .., _ | .super .., _ | .module _, _
  | .generator _, _ | .iterator _, _ | .native .., _ | .nil .., _ => ⟨_,rfl⟩

theorem exists_ofValues : (vs : List Value) → anyMutable? vs = none → ∃ hs, ofValues vs = .ok hs
  | [], _ => ⟨[],rfl⟩
  | v :: vs, found => by
    rw [anyMutable?,Option.or_eq_none_iff] at found
    obtain ⟨h,hashed⟩ := exists_ofValue v found.1
    obtain ⟨hs,rest⟩ := exists_ofValues vs found.2
    exact ⟨h :: hs,by rw [ofValues,hashed,rest]; rfl⟩

end

theorem ofValues_cons_eq_ok (hashed : ofValues (v :: vs) = .ok hs) :
    ∃ h rest, ofValue v = .ok h ∧ ofValues vs = .ok rest ∧ hs = h :: rest := by
  rw [ofValues] at hashed
  cases first : ofValue v with
  | error e => rw [first] at hashed; contradiction
  | ok h =>
    cases others : ofValues vs with
    | error e => rw [first,others] at hashed; contradiction
    | ok rest =>
      rw [first,others] at hashed
      cases hashed
      exact ⟨h,rest,rfl,rfl,rfl⟩

theorem ofValue_tuple_eq_ok (hashed : ofValue (.tuple tag items) = .ok h) :
    ∃ hs, ofValues items = .ok hs ∧ h = .tuple hs := by
  rw [ofValue] at hashed
  cases each : ofValues items with
  | error e => rw [each] at hashed; contradiction
  | ok hs =>
    rw [each] at hashed
    cases hashed
    exact ⟨hs,rfl,rfl⟩

theorem allMatched_iff (left : ofValues as = .ok hs) (right : ofValues bs = .ok gs)
    (each : ∀ a ∈ as, ∀ b ∈ bs, ∀ {h g}, ofValue a = .ok h → ofValue b = .ok g →
      (a.matched b = true ↔ h = g ∧ a.sameRanges b = true)) :
    allMatched as bs = true ↔ hs = gs ∧ allSameRanges as bs = true := by
  induction as generalizing bs hs gs with
  | nil =>
    cases left
    cases bs with
    | nil =>
      cases right
      simp [allMatched,allSameRanges]
    | cons b bs =>
      obtain ⟨g,gs,_,_,rfl⟩ := ofValues_cons_eq_ok right
      simp [allMatched]
  | cons a as ih =>
    obtain ⟨h,hs,first,others,rfl⟩ := ofValues_cons_eq_ok left
    cases bs with
    | nil =>
      cases right
      simp [allMatched]
    | cons b bs =>
      obtain ⟨g,gs,second,rest,rfl⟩ := ofValues_cons_eq_ok right
      have heads := each a (.head _) b (.head _) first second
      have tails := ih others rest fun a here b there => each a (.tail _ here) b (.tail _ there)
      rw [allMatched,allSameRanges,Bool.and_eq_true,Bool.and_eq_true,heads,tails,List.cons.injEq]
      exact and_and_and_comm

theorem matched_iff (left : a.IsFixed) (right : b.IsFixed)
    (first : ofValue a = .ok h) (second : ofValue b = .ok g) :
    a.matched b = true ↔ h = g ∧ a.sameRanges b = true := by
  induction left generalizing b h g with
  | @tuple tag items fixed ih =>
    obtain ⟨hs,each,rfl⟩ := ofValue_tuple_eq_ok first
    cases right with
    | @tuple tag others right =>
      obtain ⟨gs,other,rfl⟩ := ofValue_tuple_eq_ok second
      rw [HashKey.tuple.injEq]
      exact allMatched_iff each other fun a here b there => ih a here (right b there)
    | none | bool | int | str | range =>
      cases second
      simp [matched,Value.asInt?]
  | none | bool | int | str | range =>
    cases first
    cases right with
    | tuple tag right =>
      obtain ⟨gs,other,rfl⟩ := ofValue_tuple_eq_ok second
      simp [matched,Value.asInt?]
    | none | bool | int | str | range =>
      cases second
      simp [matched,sameRanges,Value.asInt?]

theorem alike_iff (left : a.IsKey) (right : b.IsKey)
    (first : ofValue a = .ok h) (second : ofValue b = .ok g) : a.alike b = true ↔ h = g := by
  rw [left.alike_eq_matched right,matched_iff left.fixed right.fixed first second]
  exact and_iff_left (left.sameRanges right)

end HashKey

namespace Engine

variable {k : Engine}

theorem allEqual_fixed (balanced : as.length = bs.length)
    (each : ∀ a ∈ as, ∀ b ∈ bs, equal a b w = .done (a.matched b) w) :
    allEqual equal as bs w = .done (Value.allMatched as bs) w := by
  induction as generalizing bs with
  | nil =>
    cases bs with
    | nil => rfl
    | cons => contradiction
  | cons a as ih =>
    cases bs with
    | nil => contradiction
    | cons b bs =>
      rw [allEqual,bind_done (each a (.head _) b (.head _)),Value.allMatched]
      cases a.matched b with
      | false => rfl
      | true => exact ih (Nat.succ.inj balanced) fun a here b there => each a (.tail _ here) b (.tail _ there)

theorem equalsFrom_fixed (left : a.IsFixed) (right : b.IsFixed) {fuel}
    (enough : a.height ≤ fuel) : k.equalsFrom (fuel + 1) a b w = .done (a.matched b) w := by
  induction left generalizing b fuel with
  | none | bool | int | str | range => cases right <;> rfl
  | @tuple tag items fixed ih =>
    cases right with
    | none | bool | int | str | range => rfl
    | @tuple tag others right =>
      rw [equalsFrom,Value.matched]
      dsimp only
      split
      case isTrue balanced =>
        cases fuel with
        | zero => contradiction
        | succ fuel =>
          have shallow : Value.heights items ≤ fuel := Nat.le_of_succ_le_succ enough
          exact allEqual_fixed balanced fun a here b there =>
            ih a here (right b there) (Nat.le_trans (Value.height_le_heights here) shallow)
      case isFalse different =>
        rw [Value.allMatched_of_length_ne different]
        rfl

theorem equals_fixed (left : a.IsFixed) (right : b.IsFixed)
    (enough : a.height ≤ k.fuel) : k.equals a b w = .done (a.matched b) w :=
  equalsFrom_fixed left right enough

theorem equals_keys (left : a.IsKey) (right : b.IsKey) (enough : a.height ≤ k.fuel) : k.equals a b w = .done (a.alike b) w := by
  rw [left.alike_eq_matched right]
  exact equals_fixed left.fixed right.fixed enough

theorem binary_eq_keys (left : a.IsKey) (right : b.IsKey) (enough : a.height ≤ k.fuel)
    (plain : w.extensions.get? a.typeKey "__eq__" = none) :
    k.binary .eq a b w = .done (.bool (a.alike b)) w := by
  rw [binary_silent .eq left.isObject_eq_false right.isObject_eq_false plain]
  exact settled_eq (equals_keys left right enough)

end Engine

end EmbedScript
