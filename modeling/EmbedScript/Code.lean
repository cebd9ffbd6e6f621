import EmbedScript.Host.Member
import EmbedScript.Syntax

/-!
Code: programs whose names are resolved to slots, captured cells or names of the module. Bodies of
routines and comprehensions are kept as plans in a table of their own.
-/

namespace EmbedScript

inductive Literal where
  | none
  | bool (value : Bool)
  | int (value : Int64)
  | float (value : Float)
  | str (text : String)

inductive CellAt where
  | slot (index : Nat)
  | capture (index : Nat)
  deriving DecidableEq, Repr

mutual

inductive Code where
  | literal (value : Literal)
  | slot (index : Nat) (name : String) (inClass : Bool)
  | captured (index : Nat) (name : String)
  | global (name : String)
  | format (value : Code)
  | tuple (items : List ItemCode)
  | list (items : List ItemCode)
  | set (items : List ItemCode)
  | dict (entries : List EntryCode)
  | binary (op : BinaryOp) (left right : Code)
  | unary (op : UnaryOp) (operand : Code)
  | not (operand : Code)
  | and (left right : Code)
  | or (left right : Code)
  | identity (negated : Bool) (left right : Code)
  | membership (negated : Bool) (item container : Code)
  | ternary (condition yes no : Code)
  | attribute (object : Code) (name : String)
  | index (object index : Code)
  | slice (object start stop step : Code)
  | call (callee : Code) (arguments : List ArgCode)
  | routine (plan : Nat)
  | comprehension (kind : Collection) (source : Code) (plan : Nat)
  | convert (value target : Code)
  | cast (value target : Code)
  | super (cls : CellAt) (receiver : Nat)
  | decorated (decorators : List Code) (definition : Code)
  | expect (kind : Kind) (value : Code)
  | coerce (kind : Kind) (what : String) (value : Code)
  | scalar (kind : Kind) (op : BinaryOp) (left right : Code)
  | scalarUnary (kind : Kind) (op : UnaryOp) (operand : Code)
  | property (access : Access) (object : Code)
  | invoke (action : Action) (receiver : Code) (arguments : List Code) (widened : List Bool)
  | construct (action : Action) (key : String) (argument : Code)
  | type (key : String)

inductive ItemCode where
  | one (value : Code)
  | spread (value : Code)

inductive EntryCode where
  | pair (key value : Code)
  | unpack (value : Code)

inductive ArgCode where
  | positional (value : Code)
  | keyword (name : String) (value : Code)
  | star (value : Code)
  | doubleStar (value : Code)

end

inductive Store where
  | cell (place : CellAt) (name : String) (declared : Kind)
  | global (name : String)
  | attribute (object : Code) (name : String)
  | index (object index : Code)
  | tuple (items : List Store)

inductive Deletion where
  | cell (place : CellAt) (name : String)
  | global (name : String)
  | attribute (object : Code) (name : String)
  | index (object index : Code)
  | tuple (items : List Deletion)

structure ClassPlan where
  name : String
  slots : Nat
  captures : List CellAt
  members : List (String × Nat)
  classSlot : Nat

mutual

inductive Instr where
  | mk (line : Nat) (kind : InstrKind)

inductive InstrKind where
  | eval (value : Code)
  | assign (value : Code) (stores : List Store)
  | augment (current : Code) (op : BinaryOp) (value : Code) (store : Store)
  | augmentAttribute (object : Code) (name : String) (op : BinaryOp) (value : Code)
  | augmentIndex (object index : Code) (op : BinaryOp) (value : Code)
  | cond (branches : List BranchCode) (otherwise : List Instr)
  | whileLoop (condition : Code) (body : List Instr)
  | forLoop (source : Code) (store : Store) (body : List Instr)
  | classDef (decorators bases : List Code) (plan : ClassPlan) (body : List Instr) (store : Store)
  | returns (value : Code)
  | breaks
  | continues
  | skip
  | deletes (targets : List Deletion)
  | raises (value : Option Code)
  | asserts (test : Code) (message : Option Code)
  | importModule (path : String) (store : Store)
  | importAll (path : String)
  | importNames (path : String) (names : List String) (stores : List Store)

inductive BranchCode where
  | mk (condition : Code) (body : List Instr)

end

inductive Body where
  | block (body : List Instr)
  | value (value : Code)

structure ParamCode where
  name : String
  kind : ParamKind
  slot : Nat
  default : Option Code
  declared : Option Kind

structure RoutinePlan where
  name : String
  qualname : String
  params : List ParamCode
  slots : Nat
  captures : List CellAt
  body : Body

/-- How a comprehension makes its elements. For a dict each of them is a pair. -/
structure ElementPlan where
  slots : Nat
  captures : List CellAt
  store : Store
  condition : Option Code
  element : Code

structure Plans where
  routines : Array RoutinePlan := #[]
  elements : Array ElementPlan := #[]

end EmbedScript
