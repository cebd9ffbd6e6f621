import EmbedScript.Text.Quoted

/-!
Tokens and logical lines. A bracketed group is one token. A logical line has the block below it and
the `elif` and `else` tiers that belong to it.
-/

namespace EmbedScript

inductive Precedence where
  | cast
  | exponentiation
  | unary
  | multiplicative
  | additive
  | shift
  | bitwiseAnd
  | bitwiseXor
  | bitwiseOr
  | relational
  | logicalNot
  | logicalAnd
  | logicalOr
  | key
  | iteration
  | colon
  | assignment
  deriving DecidableEq, Repr

def Precedence.rank (p : Precedence) : Nat := p.ctorIdx

inductive Op where
  | add
  | sub
  | mul
  | div
  | floorDiv
  | mod
  | pow
  | lshift
  | rshift
  | bitAnd
  | bitXor
  | bitOr
  | invert
  | lt
  | le
  | gt
  | ge
  | eq
  | ne
  | same
  | notSame
  | within
  | notWithin
  | not
  | and
  | or
  | when
  | otherwise
  | each
  | convert
  | bring
  | lambda (params : List String)
  | colon
  | arrow
  | assign
  | cast
  deriving DecidableEq, Repr

namespace Op

def precedence : Op → Precedence
  | cast => .cast
  | pow => .exponentiation
  | invert => .unary
  | mul | div | floorDiv | mod => .multiplicative
  | add | sub => .additive
  | lshift | rshift => .shift
  | bitAnd => .bitwiseAnd
  | bitXor => .bitwiseXor
  | bitOr => .bitwiseOr
  | lt | le | gt | ge | eq | ne | same | notSame | within | notWithin => .relational
  | not => .logicalNot
  | and => .logicalAnd
  | or => .logicalOr
  | when | otherwise | convert | bring | lambda _ => .key
  | each => .iteration
  | colon | arrow => .colon
  | assign => .assignment

def rightAssoc : Op → Bool
  | pow | invert | not | when | otherwise | each | convert | bring | lambda _ | assign
  | cast => true
  | _ => false

def strength (o : Op) (augmented : Bool) : Precedence := if augmented then .assignment else o.precedence

def fromRight (o : Op) (augmented : Bool) : Bool := augmented || o.rightAssoc

def symbol : Op → String
  | add => "+"
  | sub => "-"
  | mul => "*"
  | div => "/"
  | floorDiv => "//"
  | mod => "%"
  | pow => "**"
  | lshift => "<<"
  | rshift => ">>"
  | bitAnd => "&"
  | bitXor => "^"
  | bitOr => "|"
  | invert => "~"
  | lt => "<"
  | le => "<="
  | gt => ">"
  | ge => ">="
  | eq => "=="
  | ne => "!="
  | same => "is"
  | notSame => "is not"
  | within => "in"
  | notWithin => "not in"
  | not => "not"
  | and => "and"
  | or => "or"
  | when => "if"
  | otherwise => "else"
  | each => "for"
  | convert => "as"
  | bring => "import"
  | lambda _ => "lambda"
  | colon => ":"
  | arrow => "->"
  | assign => "="
  | cast => "@"

end Op

inductive Shape where
  | paren
  | bracket
  | brace
  | splice
  deriving DecidableEq, Repr

namespace Shape

def opening : Shape → Char
  | paren => '('
  | bracket => '['
  | _ => '\x7b'

def closing : Shape → Char
  | paren => ')'
  | bracket => ']'
  | _ => '\x7d'

end Shape

structure Spot where
  line : Nat
  comma : Bool := false
  deriving DecidableEq, Repr

inductive Token where
  | name (text : String) (spot : Spot)
  | member (text : String) (spot : Spot)
  | number (text : String) (spot : Spot)
  | str (text : String) (spot : Spot)
  | op (op : Op) (augmented : Bool) (spot : Spot)
  | group (shape : Shape) (inner : List Token) (spot : Spot)
  deriving Repr

namespace Token

def spot : Token → Spot
  | name _ s | member _ s | number _ s | str _ s | op _ _ s | group _ _ s => s

def line (t : Token) : Nat := t.spot.line

def comma (t : Token) : Bool := t.spot.comma

def withSpot (t : Token) (s : Spot) : Token :=
  match t with
  | name text _ => name text s
  | member text _ => member text s
  | number text _ => number text s
  | str text _ => str text s
  | op o augmented _ => op o augmented s
  | group shape inner _ => group shape inner s

def isOp (o : Op) : Token → Bool
  | op p false _ => p == o
  | _ => false

def isOperator : Token → Bool
  | op .. => true
  | _ => false

def isAssignment : Token → Bool
  | op o augmented _ => augmented || o == .assign
  | _ => false

def identifier? : Token → Option String
  | name text _ => some text
  | _ => none

def text : Token → String
  | name text _ => text
  | member text _ => "." ++ text
  | number text _ => text
  | str text _ => Text.escaped text
  | op o augmented _ => if augmented then o.symbol ++ "=" else o.symbol
  | group .paren _ _ => "(...)"
  | group .bracket _ _ => "[...]"
  | group .brace _ _ => "\x7b...\x7d"
  | group .splice _ _ => "\x7bformat\x7d"

end Token

inductive Keyword where
  | ifKw
  | elifKw
  | elseKw
  | forKw
  | whileKw
  | defKw
  | classKw
  | returnKw
  | passKw
  | breakKw
  | continueKw
  | importKw
  | fromKw
  | globalKw
  | nonlocalKw
  | delKw
  | raiseKw
  | assertKw
  | tryKw
  | exceptKw
  | finallyKw
  | yieldKw
  | withKw
  deriving DecidableEq, Repr

namespace Keyword

def text : Keyword → String
  | ifKw => "if"
  | elifKw => "elif"
  | elseKw => "else"
  | forKw => "for"
  | whileKw => "while"
  | defKw => "def"
  | classKw => "class"
  | returnKw => "return"
  | passKw => "pass"
  | breakKw => "break"
  | continueKw => "continue"
  | importKw => "import"
  | fromKw => "from"
  | globalKw => "global"
  | nonlocalKw => "nonlocal"
  | delKw => "del"
  | raiseKw => "raise"
  | assertKw => "assert"
  | tryKw => "try"
  | exceptKw => "except"
  | finallyKw => "finally"
  | yieldKw => "yield"
  | withKw => "with"

def all : List Keyword := [ifKw,elifKw,elseKw,forKw,whileKw,defKw,classKw,returnKw,passKw,breakKw,continueKw,
    importKw,fromKw,globalKw,nonlocalKw,delKw,raiseKw,assertKw,tryKw,exceptKw,finallyKw,
    yieldKw,withKw]

def ofWord? (word : String) : Option Keyword := all.find? (·.text == word)

def inline? : Keyword → Option Op
  | ifKw => some .when
  | elseKw => some .otherwise
  | forKw => some .each
  | importKw => some .bring
  | _ => none

end Keyword

structure Head where
  line : Nat
  keyword : Option Keyword
  tokens : List Token
  deriving Repr

inductive Line where
  | mk (head : Head) (body : Option (List Line)) (tiers : List Line)
  deriving Repr

namespace Line

def head : Line → Head
  | mk h _ _ => h

def body : Line → Option (List Line)
  | mk _ b _ => b

def tiers : Line → List Line
  | mk _ _ t => t

end Line

end EmbedScript
