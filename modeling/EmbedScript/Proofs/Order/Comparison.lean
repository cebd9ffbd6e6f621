import EmbedScript.Proofs.Equality.Equivalence
import EmbedScript.Proofs.Order.Lexicographic
import EmbedScript.Proofs.Sequence.Sorting

/-!
The order of values is that of their data. It agrees with equality and, where values can be compared
at all, it is a weak order.
-/

namespace EmbedScript

open Exec BinaryOp List Sequence

inductive Exec.Orders (x : Exec (Option Ordering)) (w : World) (p : Ordering → Prop) : Prop where
  | found (o : Ordering) (ran : x w = .done (some o) w) (only : ∀ other, p other ↔ o = other)
  | refused (ran : x w = .done none w ∨ ∃ message left, x w = .fault (.type message) left)
      (never : ∀ o, ¬ p o)

namespace Exec.Orders

variable {x y : Exec (Option Ordering)} {w : World}

theorem congr (orders : x.Orders w p) (same : ∀ o, q o ↔ p o) : x.Orders w q := by
  cases orders with
  | found o ran only => exact .found o ran fun other => (same other).trans (only other)
  | refused ran never => exact .refused ran fun o => mt (same o).mp (never o)

theorem of_eq (orders : y.Orders w p) (same : x w = y w) : x.Orders w p := by
  cases orders with
  | found o ran only => exact .found o (same.trans ran) only
  | refused ran never => exact .refused (same ▸ ran) never

theorem done_iff (orders : x.Orders w p) : x w = .done (some o) w ↔ p o := by
  cases orders with
  | found found ran only => simp [ran,only]
  | refused ran never =>
    refine iff_of_false (fun done => ?_) (never o)
    rcases ran with ran | ⟨_,_,ran⟩
    · cases done.symm.trans ran
    · cases done.symm.trans ran

end Exec.Orders

namespace Engine

variable {k : Engine} {w : World}

section Operators

variable (comparing : op ∈ [lt,.le,.gt,.ge])
include comparing

theorem settled_unordered (unordered : k.order a b w = .done none w) : k.settled op a b w = fail (.type
      s!"'{op.symbol}' not supported between instances of '{w.heap.typeName a}' and '{w.heap.typeName b}'")
        w := by
  have compared : k.compares op a b w = .done none w := bind_done unordered _
  simp only [mem_cons,not_mem_nil,or_false] at comparing
  rcases comparing with rfl | rfl | rfl | rfl <;> exact bind_done compared _

theorem settled_refused (refused : k.order a b w = .fault e left) :
    k.settled op a b w = .fault e left := by
  have compared : k.compares op a b w = .fault e left := by rw [compares,bind_apply,refused]
  simp only [mem_cons,not_mem_nil,or_false] at comparing
  rcases comparing with rfl | rfl | rfl | rfl <;> rw [settled,bind_apply,compared]

end Operators

section Items

variable {order : Value → Value → Exec (Option Ordering)}
  (shown : Shows w.heap a d) (seen : Shows w.heap b e) (shallow : d.depth ≤ k.fuel)
  (shallow' : e.depth ≤ k.fuel)
include shown seen shallow shallow'

theorem orderItems_same (same : d.content = e.content) :
    k.orderItems order (a :: as) (b :: bs) w = k.orderItems order as bs w := by
  have equal := (equal_iff ⟨d,shown,shallow,rfl⟩ ⟨e,seen,shallow',rfl⟩).mpr same
  exact bind_done equal _

theorem orderItems_differ (differ : d.content ≠ e.content)
    (orders : (order a b).Orders w p) : (k.orderItems order (a :: as) (b :: bs)).Orders w p := by
  obtain ⟨answer,ran,told⟩ := equals_tells ⟨d,shown,shallow,rfl⟩ ⟨e,seen,shallow',rfl⟩
  have unequal : answer = false := Bool.eq_false_iff.mpr fun same => differ (told.mp same)
  subst unequal
  cases orders with
  | found o compared only =>
    refine .found o ?_ only
    rw [orderItems,bind_done ran]
    exact bind_done compared _
  | refused compared never =>
    refine .refused (.inr ?_) never
    rw [orderItems,bind_done ran]
    rcases compared with compared | ⟨message,left,compared⟩
    · exact ⟨_,_,bind_done compared _⟩
    · refine ⟨message,left,?_⟩
      change (order a b >>= _) w = _
      rw [bind_apply,compared]

end Items

theorem orderItems_orders {order} (shown : ShowsAll w.heap as ds)
    (seen : ShowsAll w.heap bs es) (able : Datum.Each Datum.Orderable ds)
    (able' : Datum.Each Datum.Orderable es) (shallow : Datum.depths ds < deep)
    (enough : deep ≤ k.fuel) (shallow' : Datum.depths es ≤ k.fuel)
    (each : ∀ {a b d e}, Shows w.heap a d → Shows w.heap b e → d.All Datum.Orderable →
      e.All Datum.Orderable → d.depth < deep → e.depth ≤ k.fuel →
      (order a b).Orders w (d.Compares e)) :
    (k.orderItems order as bs).Orders w (Datum.ComparesAll ds es) := by
  induction as generalizing bs ds es with
  | nil =>
    cases shown
    cases seen with
    | nil => exact .found .eq rfl fun o => ⟨fun | .nil => rfl,fun | rfl => .nil⟩
    | cons => exact .found .lt rfl fun o => ⟨fun | .shorter .. => rfl,fun | rfl => .shorter ..⟩
  | cons a as ih =>
    cases shown with
    | @cons _ _ d ds shown others =>
      cases seen with
      | nil => exact .found .gt rfl fun o => ⟨fun | .longer .. => rfl,fun | rfl => .longer ..⟩
      | @cons b bs e es seen others' =>
        obtain ⟨first,rest⟩ := Nat.max_lt.mp shallow
        obtain ⟨first',rest'⟩ := Nat.max_le.mp shallow'
        have reach : d.depth ≤ k.fuel := Nat.le_trans (Nat.le_of_lt first) enough
        by_cases same : d.content = e.content
        · exact ((ih others others' able.2 able'.2 rest rest').of_eq
            (orderItems_same shown seen reach first' same)).congr fun o => Datum.comparesAll_same able.1 same
        · exact (orderItems_differ shown seen reach first' same (each shown seen able.1 able'.1 first first')).congr
              fun o => Datum.comparesAll_differ same

theorem orderFrom_orders {fuel} (shown : Shows w.heap a d)
    (seen : Shows w.heap b e) (able : d.All Datum.Orderable) (able' : e.All Datum.Orderable)
    (shallow : d.depth < fuel) (enough : fuel ≤ k.fuel + 1) (shallow' : e.depth ≤ k.fuel) :
    (k.orderFrom fuel a b).Orders w (d.Compares e) := by
  induction fuel generalizing a b d e with
  | zero => contradiction
  | succ fuel ih =>
    have within : fuel ≤ k.fuel := Nat.le_of_succ_le_succ enough
    cases shown with
    | none => exact able.elim
    | set | dict => exact able.1.elim
    | bool | int =>
      cases seen with
      | bool | int => exact .found _ rfl fun o => Datum.compares_numbers_iff rfl rfl
      | _ => exact .refused (.inl rfl) fun o compared => by cases compared; contradiction
    | str =>
      cases seen with
      | str => exact .found _ rfl fun o => Datum.compares_texts_iff
      | _ => exact .refused (.inl rfl) fun o compared => by cases compared; contradiction
    | @list r items ds stored shown =>
      cases seen with
      | @list s others es stored' shown' =>
        have items : (k.orderItems (k.orderFrom fuel) items.toList others.toList).Orders w (Datum.ComparesAll ds es) :=
          orderItems_orders shown shown' able.2 able'.2 (Nat.lt_of_succ_lt_succ shallow) within
            (Nat.le_of_succ_le shallow') fun shown seen able able' shallow =>
              ih shown seen able able' shallow (Nat.le_succ_of_le within)
        refine (items.of_eq ?_).congr fun o => Datum.compares_lists_iff
        rw [orderFrom,bind_done (heap_apply _ w),bind_done (heap_apply _ w),Heap.list,Heap.list,stored,stored']
        rfl
      | _ => exact .refused (.inl rfl) fun o compared => by cases compared; contradiction
    | tuple shown =>
      cases seen with
      | tuple shown' =>
        have items := orderItems_orders shown shown' able.2 able'.2 (Nat.lt_of_succ_lt_succ shallow)
          within (Nat.le_of_succ_le shallow') fun shown seen able able' shallow =>
            ih shown seen able able' shallow (Nat.le_succ_of_le within)
        exact (items.of_eq rfl).congr fun o => Datum.compares_tuples_iff
      | _ => exact .refused (.inl rfl) fun o compared => by cases compared; contradiction

theorem order_orders {a} (shown : Shows w.heap a d) (seen : Shows w.heap b e)
    (able : d.All Datum.Orderable) (able' : e.All Datum.Orderable) (shallow : d.depth ≤ k.fuel)
    (shallow' : e.depth ≤ k.fuel) : (k.order a b).Orders w (d.Compares e) :=
  orderFrom_orders shown seen able able' (Nat.lt_succ_of_le shallow) (Nat.le_refl _) shallow'

end Engine

/-- The value is made of booleans, integers and texts in lists and tuples, nested no deeper than a
bound. -/
def Value.IsOrderable (h : Heap) (deep : Nat) (v : Value) : Prop := ∃ d, Shows h v d ∧ d.depth ≤ deep ∧ d.All Datum.Orderable

namespace Engine

def Ordered (k : Engine) (w : World) (a b : Value) (o : Ordering) : Prop := k.order a b w = .done (some o) w

def below (k : Engine) (w : World) (a b : Value) : Bool :=
  match k.less a b w with
  | .done answer _ => answer
  | _ => false

variable {k : Engine} {w : World} {a b : Value}

section Laws

variable (left : a.IsOrderable w.heap k.fuel) (middle : b.IsOrderable w.heap k.fuel)
include left middle

theorem Ordered.swap (ordered : k.Ordered w a b o) : k.Ordered w b a o.swap := by
  obtain ⟨d,shown,shallow,able⟩ := left
  obtain ⟨e,seen,shallow',able'⟩ := middle
  have compared := (order_orders shown seen able able' shallow shallow').done_iff.mp ordered
  exact (order_orders seen shown able' able shallow' shallow).done_iff.mpr compared.swap

theorem Ordered.tie_iff (ordered : k.Ordered w a b o) : o = .eq ↔ k.Equal w a b := by
  obtain ⟨d,shown,shallow,able⟩ := left
  obtain ⟨e,seen,shallow',able'⟩ := middle
  have compared := (order_orders shown seen able able' shallow shallow').done_iff.mp ordered
  rw [equal_iff ⟨d,shown,shallow,rfl⟩ ⟨e,seen,shallow',rfl⟩]
  exact compared.tie_iff

theorem Ordered.trans (right : c.IsOrderable w.heap k.fuel) (ordered : k.Ordered w a b o)
    (ordered' : k.Ordered w b c p) (first : o ≠ .gt) (second : p ≠ .gt) :
    k.Ordered w a c (o.then p) := by
  obtain ⟨d,shown,shallow,able⟩ := left
  obtain ⟨e,between,shallow',able'⟩ := middle
  obtain ⟨f,seen,shallow'',able''⟩ := right
  have compared := (order_orders shown between able able' shallow shallow').done_iff.mp ordered
  have compared' := (order_orders between seen able' able'' shallow' shallow'').done_iff.mp ordered'
  exact (order_orders shown seen able able'' shallow shallow'').done_iff.mpr (compared.trans compared' first second)

theorem binary_ordered (op : BinaryOp) (comparing : op ∈ [lt,.le,.gt,.ge]) (silent : w.extensions.get? a.typeKey op.hook = none) :
    (∃ o, k.Ordered w a b o ∧ k.binary op a b w = .done (.bool (op.holds o)) w) ∨
      (∀ o, ¬ k.Ordered w a b o) ∧ ∃ message left, k.binary op a b w = .fault (.type message) left := by
  obtain ⟨d,shown,shallow,able⟩ := left
  obtain ⟨e,seen,shallow',able'⟩ := middle
  have object : a.isObject = false := by cases shown <;> rfl
  have object' : b.isObject = false := by cases seen <;> rfl
  rw [binary_silent op object object' silent]
  have orders := order_orders shown seen able able' shallow shallow'
  have decided (o : Ordering) : k.Ordered w a b o ↔ d.Compares e o := orders.done_iff
  cases orders with
  | found o ran only => exact .inl ⟨o,ran,settled_order comparing ran⟩
  | refused ran never =>
    refine .inr ⟨fun o => mt (decided o).mp (never o),?_⟩
    rcases ran with ran | ⟨message,after,ran⟩
    · exact ⟨_,_,settled_unordered comparing ran⟩
    · exact ⟨message,after,settled_refused comparing ran⟩

theorem below_iff (silent : w.extensions.get? a.typeKey lt.hook = none) : k.below w a b = true ↔ k.Ordered w a b .lt := by
  rcases binary_ordered left middle .lt (by simp) silent with
    ⟨o,ordered,ran⟩ | ⟨never,message,after,ran⟩
  · have less : k.less a b w = .done (o == .lt) w := bind_done ran _
    rw [below,less,Ordered,ordered]
    simp
  · have less : k.less a b w = .fault (.type message) after := by rw [less,bind_apply,ran]
    rw [below,less]
    exact iff_of_false Bool.false_ne_true (never .lt)

end Laws

theorem Ordered.unique (ordered : k.Ordered w a b o) (other : k.Ordered w a b p) : o = p := by
  cases ordered.symm.trans other
  rfl

theorem le_iff (left : a.IsOrderable w.heap k.fuel) (middle : b.IsOrderable w.heap k.fuel)
    (silent : w.extensions.get? a.typeKey le.hook = none) :
    k.binary .le a b w = .done (.bool true) w ↔ ∃ o, k.Ordered w a b o ∧ o ≠ .gt := by
  rcases binary_ordered left middle .le (by simp) silent with
    ⟨o,ordered,ran⟩ | ⟨never,message,after,ran⟩
  · rw [ran]
    constructor
    · intro same
      refine ⟨o,ordered,?_⟩
      simpa [holds] using same
    · rintro ⟨p,other,up⟩
      cases ordered.unique other
      simpa [holds] using up
  · rw [ran]
    exact iff_of_false nofun fun ⟨o,ordered,_⟩ => never o ordered

section Collections

variable {items : List Value} (able : ∀ v ∈ items, v.IsOrderable w.heap k.fuel)
  (silent : ∀ v ∈ items, w.extensions.get? v.typeKey lt.hook = none)
  (comparable : ∀ a ∈ items, ∀ b ∈ items, ∃ o, k.Ordered w a b o)
include able silent comparable

theorem ordered_eq_of_not_below (first : a ∈ items) (second : b ∈ items)
    (up : k.below w a b = false) (down : k.below w b a = false) : k.Ordered w a b .eq := by
  obtain ⟨o,ordered⟩ := comparable a first b second
  have back := ordered.swap (able a first) (able b second)
  cases o with
  | lt =>
    rw [(below_iff (able a first) (able b second) (silent a first)).mpr ordered] at up
    contradiction
  | eq => exact ordered
  | gt =>
    rw [(below_iff (able b second) (able a first) (silent b second)).mpr back] at down
    contradiction

theorem below_weakOrder : WeakOrder items (k.below w) where
  irrefl a first := by
    rw [Bool.eq_false_iff,Ne,below_iff (able a first) (able a first) (silent a first)]
    intro less
    cases less.unique (less.swap (able a first) (able a first))
  trans a first b second c third up up' := by
    rw [below_iff (able a first) (able b second) (silent a first)] at up
    rw [below_iff (able b second) (able c third) (silent b second)] at up'
    rw [below_iff (able a first) (able c third) (silent a first)]
    exact up.trans (able a first) (able b second) (able c third) up' (by decide) (by decide)
  tied a first b second c third up down up' down' := by
    have tie := ordered_eq_of_not_below able silent comparable first second up down
    have tie' := ordered_eq_of_not_below able silent comparable second third up' down'
    have tied := tie.trans (able a first) (able b second) (able c third) tie' (by decide) (by decide)
    rw [Bool.eq_false_iff,Ne,below_iff (able a first) (able c third) (silent a first)]
    intro less
    cases less.unique tied

theorem less_decides : Decides (· = w) items k.less (k.below w) := by
  rintro a first b second _ rfl
  obtain ⟨o,ordered⟩ := comparable a first b second
  rcases binary_ordered (able a first) (able b second) .lt (by simp) (silent a first) with
    ⟨_,_,ran⟩ | ⟨never,_⟩
  · have less : k.less a b _ = .done _ _ := bind_done ran _
    refine ⟨_,?_,rfl⟩
    rw [below,less]
  · exact absurd ordered (never o)

end Collections

end Engine

/-- What the order of values obeys that are made of booleans, integers and texts in lists and tuples,
as deep as the fuel reaches. -/
structure OrderLaws (k : Engine) (w : World) : Prop where
  swaps : ∀ {a b : Value} {o : Ordering}, a.IsOrderable w.heap k.fuel →
    b.IsOrderable w.heap k.fuel → k.Ordered w a b o → k.Ordered w b a o.swap
  ties : ∀ {a b : Value} {o : Ordering}, a.IsOrderable w.heap k.fuel →
    b.IsOrderable w.heap k.fuel → k.Ordered w a b o → (o = .eq ↔ k.Equal w a b)
  compared : ∀ {a b : Value} {op : BinaryOp}, a.IsOrderable w.heap k.fuel →
    b.IsOrderable w.heap k.fuel → op ∈ [lt,.le,.gt,.ge] →
    w.extensions.get? a.typeKey op.hook = none →
      (∃ o, k.Ordered w a b o ∧ k.binary op a b w = .done (.bool (op.holds o)) w) ∨
        (∀ o, ¬ k.Ordered w a b o) ∧
          ∃ message left, k.binary op a b w = .fault (.type message) left
  le_trans : ∀ {a b c : Value}, a.IsOrderable w.heap k.fuel → b.IsOrderable w.heap k.fuel →
    c.IsOrderable w.heap k.fuel → w.extensions.get? a.typeKey le.hook = none →
    w.extensions.get? b.typeKey le.hook = none →
    k.binary .le a b w = .done (.bool true) w → k.binary .le b c w = .done (.bool true) w →
      k.binary .le a c w = .done (.bool true) w
  weak : ∀ {items : List Value}, (∀ v ∈ items, v.IsOrderable w.heap k.fuel) →
    (∀ v ∈ items, w.extensions.get? v.typeKey lt.hook = none) →
    (∀ a ∈ items, ∀ b ∈ items, ∃ o, k.Ordered w a b o) →
      WeakOrder items (k.below w) ∧ Decides (· = w) items k.less (k.below w)

theorem order_laws (k : Engine) (w : World) : OrderLaws k w where
  swaps left right ordered := ordered.swap left right
  ties left right ordered := ordered.tie_iff left right
  compared left right comparing silent := Engine.binary_ordered left right _ comparing silent
  le_trans left middle right silent silent' below below' := by
    obtain ⟨o, ordered, up⟩ := (Engine.le_iff left middle silent).mp below
    obtain ⟨p, ordered', up'⟩ := (Engine.le_iff middle right silent').mp below'
    refine (Engine.le_iff left right silent).mpr
      ⟨_, ordered.trans left middle right ordered' up up', ?_⟩
    cases o <;> trivial
  weak able silent comparable :=
    ⟨Engine.below_weakOrder able silent comparable, Engine.less_decides able silent comparable⟩

-- The lists [1, ("a", 2)], [True, ("a", 3)] and [1, ("b",), 0].
def threeLists : World := { World.blank with
    heap := { lists := #[#[.int 1,.tuple 0 [.str "a",.int 2]],#[.bool true,.tuple 1 [.str "a",.int 3]],
          #[.int 1,.tuple 2 [.str "b"],.int 0]] } }

theorem threeLists_first : Value.IsOrderable threeLists.heap 2 (.list ⟨0⟩) :=
  ⟨_,.list rfl (.cons (.int 1) (.cons (.tuple (.cons (.str "a") (.cons (.int 2) .nil))) .nil)),
    by decide,by simp [Datum.All,Datum.Each,Datum.Orderable]⟩

theorem threeLists_second : Value.IsOrderable threeLists.heap 2 (.list ⟨1⟩) :=
  ⟨_,.list rfl (.cons (.bool true) (.cons (.tuple (.cons (.str "a") (.cons (.int 3) .nil))) .nil)),
    by decide,by simp [Datum.All,Datum.Each,Datum.Orderable]⟩

theorem threeLists_third : Value.IsOrderable threeLists.heap 2 (.list ⟨2⟩) :=
  ⟨_,.list rfl (.cons (.int 1) (.cons (.tuple (.cons (.str "b") .nil)) (.cons (.int 0) .nil))),
    by decide,by simp [Datum.All,Datum.Each,Datum.Orderable]⟩

theorem threeLists_orderable : ∀ v ∈ [Value.list ⟨0⟩,.list ⟨1⟩,.list ⟨2⟩], v.IsOrderable threeLists.heap 2 := by
  simp [threeLists_first,threeLists_second,threeLists_third]

theorem threeLists_comparable : ∀ a ∈ [Value.list ⟨0⟩,.list ⟨1⟩,.list ⟨2⟩],
    ∀ b ∈ [Value.list ⟨0⟩,.list ⟨1⟩,.list ⟨2⟩], ∃ o, (engine 3).Ordered threeLists a b o := by
  simp only [mem_cons,not_mem_nil,or_false]
  rintro a (rfl | rfl | rfl) b (rfl | rfl | rfl) <;> exact ⟨_,rfl⟩

theorem order_laws_threeLists :
    (∀ v ∈ [Value.list ⟨0⟩, .list ⟨1⟩, .list ⟨2⟩], v.IsOrderable threeLists.heap 2) ∧
      (engine 3).Ordered threeLists (.list ⟨0⟩) (.list ⟨1⟩) .lt ∧
      (engine 3).Ordered threeLists (.list ⟨1⟩) (.list ⟨0⟩) .gt ∧
      (engine 3).binary .le (.list ⟨0⟩) (.list ⟨2⟩) threeLists = .done (.bool true) threeLists ∧
      Sequence.WeakOrder [Value.list ⟨0⟩, .list ⟨1⟩, .list ⟨2⟩] ((engine 3).below threeLists) := by
  have laws := order_laws (engine 3) threeLists
  have less : (engine 3).Ordered threeLists (.list ⟨0⟩) (.list ⟨1⟩) .lt := rfl
  have up : (engine 3).binary .le (.list ⟨0⟩) (.list ⟨1⟩) threeLists = .done (.bool true) threeLists :=
    rfl
  have up' : (engine 3).binary .le (.list ⟨1⟩) (.list ⟨2⟩) threeLists = .done (.bool true) threeLists :=
    rfl
  exact ⟨threeLists_orderable, less, laws.swaps threeLists_first threeLists_second less,
    laws.le_trans threeLists_first threeLists_second threeLists_third rfl rfl up up',
    (laws.weak threeLists_orderable (fun _ _ => rfl) threeLists_comparable).1⟩

end EmbedScript
