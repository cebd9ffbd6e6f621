import EmbedScript.Proofs.Except
import EmbedScript.Syntax.Run
import Mathlib.Data.List.TakeDrop

namespace EmbedScript

open List Token

namespace Token

theorem depths_append (as bs : List Token) : depths (as ++ bs) = max (depths as) (depths bs) := by
  induction as with
  | nil => simp [depths]
  | cons a as ih => simp [depths,ih]

theorem splitCommas_append (plain : ∀ t ∈ before, t.comma = false)
    (last : Token) (marked : last.comma = true) (rest : List Token) :
    splitCommas (before ++ last :: rest) = (before ++ [last]) :: splitCommas rest := by
  induction before with
  | nil => simp [splitCommas,marked]
  | cons t before ih =>
    have first := plain t (.head _)
    have remaining := ih fun u mem => plain u (.tail _ mem)
    simp [splitCommas,first,remaining]

theorem splitCommas_plain (written : ts ≠ []) (plain : ∀ t ∈ ts, t.comma = false) : splitCommas ts = [ts] := by
  induction ts with
  | nil => contradiction
  | cons t ts ih =>
    have first := plain t (.head _)
    cases ts with
    | nil => simp [splitCommas]
    | cons u ts =>
      have remaining := ih (by simp) fun v mem => plain v (.tail _ mem)
      simp only [splitCommas] at remaining ⊢
      simp [first,remaining]

theorem endsInComma_plain (plain : ∀ t ∈ ts, t.comma = false) : endsInComma ts = false := by
  unfold endsInComma
  cases last : ts.getLast? with
  | none => rfl
  | some t => exact plain t (mem_of_getLast? last)

theorem hasOp_append (o : Op) (as bs : List Token) : hasOp o (as ++ bs) = (hasOp o as || hasOp o bs) := any_append

theorem cutAt?_append (absent : hasOp o before = false) (here : t.isOp o) (after : List Token) :
    cutAt? o (before ++ t :: after) = some (before,after) := by
  have outside : ∀ u ∈ before, (!u.isOp o) = true := by simpa [hasOp] using absent
  simp [cutAt?,takeWhile_append_of_pos outside,dropWhile_append_of_pos outside,here]

theorem cutAt?_none (absent : hasOp o ts = false) : cutAt? o ts = none := by
  have outside : ∀ u ∈ ts, (!u.isOp o) = true := by simpa [hasOp] using absent
  have dropped : (ts ++ []).dropWhile (fun u => !isOp o u) = [] := dropWhile_append_of_pos outside
  rw [append_nil] at dropped
  simp [cutAt?,dropped]

end Token

namespace Run

variable {inner : Reader} {line : Nat}

theorem segment_span {span ts} (plain : ∀ t ∈ ts, t.isOperator = false) (rest : List Token) :
    segment inner line items span (ts ++ rest) = segment inner line items (ts.reverse ++ span) rest := by
  induction ts generalizing span with
  | nil => rfl
  | cons t ts ih =>
    have first := plain t (.head _)
    have remaining := @ih (t :: span) fun u mem => plain u (.tail _ mem)
    cases t with
    | op o augmented spot => contradiction
    | _ => simpa [segment] using remaining

theorem fold_operand (e : Expr) : Item.fold [.operand (.expr e)] line = .ok e := by
  rw [Item.fold]
  rfl

variable {read : Reader}

theorem expressions_plain (written : ts ≠ []) (plain : ∀ t ∈ ts, t.comma = false) : expressions read ts line = read ts line := by
  unfold expressions
  rw [splitCommas_plain written plain,endsInComma_plain plain]

theorem expressions_tuple (several : (splitCommas ts).length = 1 → endsInComma ts = true)
    (written : splitCommas ts ≠ [])
    (items : (splitCommas ts).mapM (read · line) = .ok es) :
    expressions read ts line = .ok (.tuple es) := by
  unfold expressions
  split
  case h_1 none' => exact absurd none' written
  case h_2 single open' =>
    rw [several (by rw [single]; rfl)] at open'
    contradiction
  case h_3 =>
    rw [items]
    rfl

theorem level_span (written : ts ≠ []) (plain : ∀ t ∈ ts, t.isOperator = false) :
    level inner ts line = operand inner ts (firstLine ts line) := by
  have gathered := @segment_span inner (firstLine ts line) [] [] ts plain []
  rw [append_nil,append_nil] at gathered
  unfold level
  simp only
  rw [gathered,segment]
  simp only [closeSpan,reverse_reverse]
  rw [if_neg (by simpa using written)]
  cases operand inner ts (firstLine ts line) with
  | error e => rfl
  | ok e => exact fold_operand e

theorem fold_unary (o : Op) (e : Expr) : Item.fold [.op o true,.operand (.expr e)] line = .ok (o.applyUnary e) := by
  rw [Item.fold]
  exact fold_operand (o.applyUnary e)

theorem level_minus (plain : t.isOperator = false) {e spot} (read : operand inner [t] spot.line = .ok e) :
    level inner [.op .sub false spot,t] line = .ok (Op.sub.applyUnary e) := by
  have items : segment inner spot.line [] [] [.op .sub false spot,t] = .ok [.op .sub true,.operand (.expr e)] := by
    have gathered := @segment_span inner spot.line [.op .sub true] [] [t] (by simpa using plain) []
    have closed : segment inner spot.line [.op .sub true] [t] [] = .ok [.op .sub true,.operand (.expr e)] := by
      simp only [segment,closeSpan,reverse_singleton,read]
      rfl
    exact gathered.trans closed
  have folded := @fold_unary spot.line .sub e
  change (do Item.fold (← segment inner spot.line [] [] [.op .sub false spot,t]) spot.line) = _
  rw [items]
  exact folded

theorem number_repr {n : Nat} (fits : Word.ofInt? n = some value) : number n.repr line = .ok (.int value) := by
  have digits : ∀ c ∈ Nat.toDigits 10 n, (c == '.' || c == 'e' || c == 'E') = false := by
    intro c mem
    have digit := Nat.isDigit_of_mem_toDigits (by decide) (by decide) mem
    cases point : (c == '.' || c == 'e' || c == 'E') with
    | false => rfl
    | true =>
      simp only [Bool.or_eq_true,beq_iff_eq] at point
      rcases point with (rfl | rfl) | rfl <;> contradiction
  have whole : (Nat.toDigits 10 n).any (fun c => c == '.' || c == 'e' || c == 'E') = false :=
    any_eq_false.mpr fun c mem => by simp [digits c mem]
  have value' : Decimal.natOfDigits (Nat.toDigits 10 n) = n := Nat.ofDigitChars_ten_toDigits
  simp only [number,Nat.toList_repr,whole,value',fits]
  rfl

end Run

end EmbedScript
