import EmbedScript.Syntax
import EmbedScript.Syntax.Error
import EmbedScript.Token

/-!
Folding operators. A run becomes one expression by folding, again and again, the tightest operator
whose operands are ready. Between equally tight ones the last wins if the leader groups from the
right, else the first.
-/

namespace EmbedScript

inductive Operand where
  | expr (value : Expr)
  | arms (condition no : Expr)

inductive Item where
  | operand (value : Operand)
  | op (op : Op) (unary : Bool)

namespace Op

def unaryPrecedence? : Op → Option Precedence
  | sub | add | invert => some .unary
  | not => some .logicalNot
  | mul | pow | lambda _ => some .key
  | _ => none

def binary? : Op → Option BinaryOp
  | add => some .add
  | sub => some .sub
  | mul => some .mul
  | div => some .div
  | floorDiv => some .floorDiv
  | mod => some .mod
  | pow => some .pow
  | lshift => some .lshift
  | rshift => some .rshift
  | bitAnd => some .bitAnd
  | bitXor => some .bitXor
  | bitOr => some .bitOr
  | lt => some .lt
  | le => some .le
  | gt => some .gt
  | ge => some .ge
  | eq => some .eq
  | ne => some .ne
  | _ => none

def applyUnary (o : Op) (operand : Expr) : Expr :=
  match o with
  | sub =>
    match operand with
    | .int value => .int (-value)
    | .float value => .float (-value)
    | operand => .unary .neg operand
  | add => .unary .pos operand
  | invert => .unary .invert operand
  | not => .not operand
  | mul => .star operand
  | pow => .doubleStar operand
  | lambda params => .lambda params operand
  | _ => operand

end Op

namespace Operand

def expr? (line : Nat) : Operand → Parse Expr
  | expr value => .ok value
  | arms .. => ParseCause.elseWithoutIf.at line

def combine (o : Op) (left right : Operand) (line : Nat) : Parse Operand :=
  match o with
  | .otherwise => do return arms (← left.expr? line) (← right.expr? line)
  | .when =>
    match right with
    | arms condition no => do return expr (.ternary condition (← left.expr? line) no)
    | expr _ => ParseCause.ifWithoutElse.at line
  | _ => do
    let l ← left.expr? line
    let r ← right.expr? line
    match o with
    | .same => return expr (.identity false l r)
    | .notSame => return expr (.identity true l r)
    | .within => return expr (.membership false l r)
    | .notWithin => return expr (.membership true l r)
    | .and => return expr (.and l r)
    | .or => return expr (.or l r)
    | .convert => return expr (.convert l r)
    | .cast => return expr (.cast l r)
    | _ =>
      match o.binary? with
      | some b => return expr (.binary b l r)
      | none => (ParseCause.near o.symbol).at line

end Operand

namespace Item

def isOperand : Item → Bool
  | operand _ => true
  | op .. => false

structure Candidate where
  index : Nat
  precedence : Precedence
  rightAssoc : Bool

def Candidate.better (best : Option Candidate) (next : Candidate) : Candidate :=
  match best with
  | none => next
  | some b =>
    if next.precedence.rank < b.precedence.rank || (b.rightAssoc && next.precedence == b.precedence)
    then next else b

def candidate? (index : Nat) (left : Option Item) : List Item → Option Candidate
  | op o unary :: next :: _ =>
    if next.isOperand then
      if unary then some ⟨index,o.unaryPrecedence?.getD .unary,true⟩
      else if left.any isOperand then some ⟨index,o.precedence,o.rightAssoc⟩
      else none
    else none
  | _ => none

def selectFrom (index : Nat) (left : Option Item) (best : Option Candidate) : List Item → Option Candidate
  | [] => best
  | item :: rest =>
    let best := match candidate? index left (item :: rest) with
      | some next => some (Candidate.better best next)
      | none => best
    selectFrom (index + 1) (some item) best rest

def select (items : List Item) : Option Nat := (selectFrom 0 none none items).map (·.index)

def reduce (items : List Item) (index line : Nat) :
    Parse { shorter : List Item // shorter.length < items.length } :=
  match _found : items.drop index with
  | op o true :: operand right :: rest =>
    match right.expr? line with
    | .ok value => .ok ⟨items.take index ++ operand (.expr (o.applyUnary value)) :: rest,by
        have parts := congrArg List.length (List.take_append_drop index items)
        rw [_found] at parts
        simp at parts ⊢
        omega⟩
    | .error e => .error e
  | op o false :: operand right :: rest =>
    match _before : (items.take index).getLast? with
    | some (operand left) =>
      match left.combine o right line with
      | .ok value => .ok ⟨(items.take index).dropLast ++ operand value :: rest,by
          have parts := congrArg List.length (List.take_append_drop index items)
          rw [_found] at parts
          simp at parts ⊢
          omega⟩
      | .error e => .error e
    | _ => ParseCause.invalid.at line
  | _ => ParseCause.invalid.at line

def fold (items : List Item) (line : Nat) : Parse Expr :=
  match items with
  | [operand value] => value.expr? line
  | [] | [op ..] => ParseCause.noExpression.at line
  | first :: second :: rest =>
    match select (first :: second :: rest) with
    | none => ParseCause.invalid.at line
    | some index =>
      match reduce (first :: second :: rest) index line with
      | .ok ⟨shorter,_less⟩ => fold shorter line
      | .error e => .error e
termination_by items.length
decreasing_by exact _less

end Item

end EmbedScript
