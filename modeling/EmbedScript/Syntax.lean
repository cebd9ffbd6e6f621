/-!
Expressions and statements. Statements carry the line they start on; expressions carry none.
-/

namespace EmbedScript

inductive BinaryOp where
  | add
  | sub
  | mul
  | div
  | floorDiv
  | mod
  | pow
  | lshift
  | rshift
  | bitAnd
  | bitXor
  | bitOr
  | lt
  | le
  | gt
  | ge
  | eq
  | ne
  deriving DecidableEq, Repr

namespace BinaryOp

def hook : BinaryOp → String
  | add => "__add__"
  | sub => "__sub__"
  | mul => "__mul__"
  | div => "__div__"
  | floorDiv => "__floordiv__"
  | mod => "__mod__"
  | pow => "__pow__"
  | lshift => "__lshift__"
  | rshift => "__rshift__"
  | bitAnd => "__and__"
  | bitXor => "__xor__"
  | bitOr => "__or__"
  | lt => "__lt__"
  | le => "__le__"
  | gt => "__gt__"
  | ge => "__ge__"
  | eq => "__eq__"
  | ne => "__ne__"

def symbol : BinaryOp → String
  | add => "+"
  | sub => "-"
  | mul => "*"
  | div => "/"
  | floorDiv => "//"
  | mod => "%"
  | pow => "**"
  | lshift => "<<"
  | rshift => ">>"
  | bitAnd => "&"
  | bitXor => "^"
  | bitOr => "|"
  | lt => "<"
  | le => "<="
  | gt => ">"
  | ge => ">="
  | eq => "=="
  | ne => "!="

def isComparison : BinaryOp → Bool
  | lt | le | gt | ge | eq | ne => true
  | _ => false

end BinaryOp

inductive UnaryOp where
  | neg
  | pos
  | invert
  deriving DecidableEq, Repr

def UnaryOp.hook : UnaryOp → String
  | neg => "__neg__"
  | pos => "__pos__"
  | invert => "__invert__"

inductive Collection where
  | generator
  | list
  | set
  | dict
  deriving DecidableEq, Repr

mutual

inductive Expr where
  | none
  | nil
  | bool (value : Bool)
  | int (value : Int64)
  | float (value : Float)
  | str (text : String)
  | name (name : String)
  | format (value : Expr)
  | tuple (items : List Expr)
  | list (items : List Expr)
  | set (items : List Expr)
  | dict (entries : List DictEntry)
  | star (value : Expr)
  | doubleStar (value : Expr)
  | binary (op : BinaryOp) (left right : Expr)
  | unary (op : UnaryOp) (operand : Expr)
  | not (operand : Expr)
  | and (left right : Expr)
  | or (left right : Expr)
  | identity (negated : Bool) (left right : Expr)
  | membership (negated : Bool) (item container : Expr)
  | ternary (condition yes no : Expr)
  | attribute (object : Expr) (name : String)
  | index (object index : Expr)
  | slice (object : Expr) (start stop step : Option Expr)
  | call (callee : Expr) (arguments : List Argument)
  | lambda (params : List String) (body : Expr)
  | comprehension (kind : Collection) (element : Expr) (target : Target) (iterable : Expr)
      (condition : Option Expr)
  | convert (value kind : Expr)
  | cast (value kind : Expr)
  | typed (value : Expr)
  | super

inductive DictEntry where
  | pair (key value : Expr)
  | unpack (value : Expr)

inductive Argument where
  | positional (value : Expr)
  | keyword (name : String) (value : Expr)
  | star (value : Expr)
  | doubleStar (value : Expr)

inductive Target where
  | name (name : String)
  | attribute (object : Expr) (name : String)
  | index (object index : Expr)
  | tuple (items : List Target)

end

instance : Inhabited Expr := ⟨.none⟩

inductive ParamKind where
  | normal
  | rest
  | keywords
  deriving DecidableEq, Repr

structure Param where
  name : String
  kind : ParamKind := .normal
  typeName : Option String := none
  default : Option Expr := none

structure FunctionHead where
  name : String
  params : List Param
  returns : Option String
  decorators : List Expr

def FunctionHead.isTyped (f : FunctionHead) : Bool := f.returns.isSome || f.params.any (·.typeName.isSome)

structure ClassHead where
  name : String
  bases : List Expr
  decorators : List Expr

mutual

inductive Stmt where
  | mk (line : Nat) (kind : StmtKind)

inductive StmtKind where
  | expr (value : Expr)
  | assign (targets : List Target) (value : Expr)
  | augAssign (target : Target) (op : BinaryOp) (value : Expr)
  | cond (branches : List Branch) (otherwise : List Stmt)
  | whileLoop (condition : Expr) (body : List Stmt)
  | forLoop (target : Target) (iterable : Expr) (body : List Stmt)
  | function (head : FunctionHead) (body : List Stmt)
  | classDef (head : ClassHead) (body : List Stmt)
  | returns (value : Option Expr)
  | breaks
  | continues
  | pass
  | globals (names : List String)
  | nonlocals (names : List String)
  | deletes (targets : List Target)
  | raises (value : Option Expr)
  | asserts (test : Expr) (message : Option Expr)
  | importModule (path : String)
  | importNames (path : String) (names : List String)

inductive Branch where
  | mk (condition : Expr) (body : List Stmt)

end

end EmbedScript
