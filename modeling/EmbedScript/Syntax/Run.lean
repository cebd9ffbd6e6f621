import EmbedScript.Syntax.Fold
import EmbedScript.Number.Decimal
import EmbedScript.Number.Word

/-!
Expressions from runs of tokens. A run is cut at its operators into spans, each an operand. What
stands inside a group is a run one level deeper, read by `inner`; `Run.expression` closes the
recursion over the depth of the groups.
-/

namespace EmbedScript

namespace Token

def splitCommas : List Token → List (List Token)
  | [] => []
  | t :: rest =>
    if t.comma then [t] :: splitCommas rest
    else match splitCommas rest with
      | [] => [[t]]
      | first :: more => (t :: first) :: more

def endsInComma (ts : List Token) : Bool := ts.getLast?.any Token.comma

def hasOp (o : Op) (ts : List Token) : Bool := ts.any (·.isOp o)

def cutAt? (o : Op) (ts : List Token) : Option (List Token × List Token) :=
  match ts.span (!·.isOp o) with
  | (before,_ :: after) => some (before,after)
  | (_,[]) => none

def splitAt (o : Op) : List Token → List (List Token)
  | [] => [[]]
  | t :: rest =>
    if t.isOp o then [] :: splitAt o rest
    else match splitAt o rest with
      | [] => [[t]]
      | first :: more => (t :: first) :: more

def firstLine (ts : List Token) (line : Nat) : Nat := (ts.head?.map Token.line).getD line

def near {α : Type} (t : Token) : Parse α := (ParseCause.near t.text).at t.line

mutual

def depth : Token → Nat
  | .group _ inner _ => depths inner + 1
  | _ => 0

def depths : List Token → Nat
  | [] => 0
  | t :: rest => max t.depth (depths rest)

end

end Token

mutual

def Expr.target? (line : Nat) : Expr → Parse Target
  | .name n => .ok (.name n)
  | .attribute object n => .ok (.attribute object n)
  | .index object i => .ok (.index object i)
  | .tuple items => do return .tuple (← Expr.targets? line items)
  | .list items => do return .tuple (← Expr.targets? line items)
  | _ => ParseCause.notAssignable.at line

def Expr.targets? (line : Nat) : List Expr → Parse (List Target)
  | [] => .ok []
  | e :: rest => do return (← e.target? line) :: (← Expr.targets? line rest)

end

namespace Run

abbrev Reader := List Token → Nat → Parse Expr

def expressions (read : Reader) (ts : List Token) (line : Nat) : Parse Expr :=
  match Token.splitCommas ts, Token.endsInComma ts with
  | [], _ => ParseCause.noExpression.at line
  | [single], false => read single line
  | segments, _ => do return .tuple (← segments.mapM (read · line))

def target (read : Reader) (ts : List Token) (line : Nat) : Parse Target := do
  let line := Token.firstLine ts line
  (← expressions read ts line).target? line

-- Displays and comprehensions

def number (text : String) (line : Nat) : Parse Expr :=
  let cs := text.toList
  if cs.any fun c => c == '.' || c == 'e' || c == 'E' then
    match Decimal.readWritten? cs with
    | some written => .ok (.float written.value)
    | none => (ParseCause.badNumber text).at line
  else match Word.ofInt? (Decimal.natOfDigits cs) with
    | some value => .ok (.int value)
    | none => (ParseCause.badNumber text).at line

def comprehension (inner : Reader) (ts : List Token) (kind : Collection) (line : Nat) :
    Parse Expr :=
  match Token.cutAt? .each ts with
  | none => ParseCause.invalid.at line
  | some (element,rest) =>
    match Token.cutAt? .within rest with
    | none => ParseCause.comprehensionWithoutIn.at line
    | some (binding,tail) => do
      let binding ← target inner binding line
      let (iterable,condition) := match Token.cutAt? .when tail with
        | some (iterable,condition) => (iterable,some condition)
        | none => (tail,none)
      if Token.hasOp .each tail then ParseCause.nestedClauses.at line
      else
        let element ← if kind = .dict then
            match Token.cutAt? .colon element with
            | none => ParseCause.pairWithoutColon.at line
            | some (key,value) => do
              let key ← inner key line
              let value ← inner value line
              pure (.dict [.pair key value])
          else inner element line
        let iterable ← expressions inner iterable line
        let condition ← condition.mapM (inner · line)
        return .comprehension kind element binding iterable condition

def paren (inner : Reader) (ts : List Token) (line : Nat) : Parse Expr :=
  if ts.isEmpty then .ok (.tuple [])
  else if Token.hasOp .each ts then comprehension inner ts .generator line
  else expressions inner ts line

def bracket (inner : Reader) (ts : List Token) (line : Nat) : Parse Expr :=
  if Token.hasOp .each ts then comprehension inner ts .list line
  else do return .list (← (Token.splitCommas ts).mapM (inner · line))

def unpacks (ts : List Token) : Bool := ts.head?.any (·.isOp .pow)

def dictEntry (inner : Reader) (line : Nat) (ts : List Token) : Parse DictEntry := do
  let line := Token.firstLine ts line
  if unpacks ts then return .unpack (← inner ts.tail line)
  else match Token.cutAt? .colon ts with
    | none => ParseCause.entryWithoutColon.at line
    | some (key,value) => return .pair (← inner key line) (← inner value line)

def brace (inner : Reader) (ts : List Token) (line : Nat) : Parse Expr :=
  if ts.isEmpty then .ok (.dict [])
  else match Token.cutAt? .each ts with
    | some (element,_) => comprehension inner ts (if Token.hasOp .colon element then .dict else .set) line
    | none => do
      let segments := Token.splitCommas ts
      if segments.head?.any fun first => unpacks first || Token.hasOp .colon first then
        return .dict (← segments.mapM (dictEntry inner line))
      else return .set (← segments.mapM (inner · line))

-- Calls and subscripts

def argument (inner : Reader) (line : Nat) (ts : List Token) : Parse Argument := do
  match ts with
  | .name name _ :: equals :: value =>
    if equals.isOp .assign then return .keyword name (← inner value line)
  | _ => pure ()
  match ← inner ts line with
  | .star value => return .star value
  | .doubleStar value => return .doubleStar value
  | value => return .positional value

def argumentsFrom (inner : Reader) (line : Nat) (keyword : Bool) : List (List Token) → Parse (List Argument)
  | [] => .ok []
  | ts :: rest => do
    let here := Token.firstLine ts line
    let a ← argument inner here ts
    match a, keyword with
    | .positional _, true | .star _, true => ParseCause.positionalAfterKeyword.at here
    | .positional _, false | .star _, false =>
      return a :: (← argumentsFrom inner line false rest)
    | .keyword .., _ | .doubleStar _, _ => return a :: (← argumentsFrom inner line true rest)

def arguments (inner : Reader) (ts : List Token) (line : Nat) : Parse (List Argument) :=
  if Token.hasOp .each ts then do return [.positional (← comprehension inner ts .generator line)]
  else argumentsFrom inner line false (Token.splitCommas ts)

def call : Expr → List Argument → Expr
  | .name "super", [] => .super
  | .name "eval", [.positional value] => .typed value
  | callee, arguments => .call callee arguments

def subscript (inner : Reader) (object : Expr) (ts : List Token) (line : Nat) : Parse Expr :=
  if Token.hasOp .colon ts then
    let part (ts : List Token) : Parse (Option Expr) :=
      if ts.isEmpty then .ok none else do return some (← inner ts line)
    match Token.splitAt .colon ts with
    | [start,stop] => do return .slice object (← part start) (← part stop) none
    | [start,stop,step] => do return .slice object (← part start) (← part stop) (← part step)
    | _ => ParseCause.invalid.at line
  else do return .index object (← expressions inner ts line)

-- Operands

def word : String → Expr
  | "None" => .none
  | "True" => .bool true
  | "False" => .bool false
  | "nil" => .nil
  | name => .name name

/-- Strings that follow one another are one string. -/
def adjacent (text : String) : List Token → String × List Token
  | .str more _ :: rest => adjacent (text ++ more) rest
  | rest => (text,rest)

def primary (inner : Reader) (first : Token) (rest : List Token) : Parse (Expr × List Token) :=
  match first with
  | .name name _ => .ok (word name,rest)
  | .number text _ => do return (← number text first.line,rest)
  | .str text _ =>
    let (text,rest) := adjacent text rest
    .ok (.str text,rest)
  | .group .paren ts _ => do return (← paren inner ts first.line,rest)
  | .group .bracket ts _ => do return (← bracket inner ts first.line,rest)
  | .group .brace ts _ => do return (← brace inner ts first.line,rest)
  | .group .splice ts _ => do return (.format (← expressions inner ts first.line),rest)
  | .member .. | .op .. => first.near

def trailer (inner : Reader) (object : Expr) (t : Token) : Parse Expr :=
  match t with
  | .member name _ => .ok (.attribute object name)
  | .group .paren ts _ => do return call object (← arguments inner ts t.line)
  | .group .bracket ts _ => subscript inner object ts t.line
  | _ => t.near

def operand (inner : Reader) (span : List Token) (line : Nat) : Parse Expr :=
  match span with
  | [] => ParseCause.noExpression.at line
  | first :: rest => do
    let (object,trailers) ← primary inner first rest
    trailers.foldlM (trailer inner) object

-- Runs

def isForeign (o : Op) (augmented : Bool) : Bool :=
  augmented || o matches .assign | .colon | .arrow | .each | .bring

def closeSpan (inner : Reader) (line : Nat) (items : List Item) (span : List Token) : Parse (List Item) :=
  if span.isEmpty then .ok items
  else do return .operand (.expr (← operand inner span.reverse line)) :: items

def segment (inner : Reader) (line : Nat) (items : List Item) (span : List Token) :
    List Token → Parse (List Item)
  | [] => do
    match ← closeSpan inner line items span with
    | .op o _ :: _ => (ParseCause.noExpressionAfter o.symbol).at line
    | items => return items.reverse
  | t :: rest =>
    match t with
    | .op o augmented _ => do
      let items ← closeSpan inner line items span
      let unary := !items.head?.any Item.isOperand
      if isForeign o augmented || (unary && o.unaryPrecedence?.isNone) then t.near
      else segment inner line (.op o unary :: items) [] rest
    | t => segment inner line items (t :: span) rest

def level (inner : Reader) : Reader := fun ts line => do
  let line := Token.firstLine ts line
  Item.fold (← segment inner line [] [] ts) line

def within : (depth : Nat) → Reader
  | 0 => fun _ line => ParseCause.invalid.at line
  | depth + 1 => level (within depth)

def expression : Reader := fun ts line => within (Token.depths ts + 1) ts line

end Run

end EmbedScript
