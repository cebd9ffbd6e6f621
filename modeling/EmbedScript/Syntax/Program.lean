import EmbedScript.Syntax.Run
import EmbedScript.Token.Lexer

/-!
Statements from logical lines. Decorators wait for the function or class that follows them in the
same block. `read` is the reader of one expression.
-/

namespace EmbedScript

namespace Program

def value (read : Run.Reader) (ts : List Token) (line : Nat) : Parse Expr := Run.expressions read ts line

def value? (read : Run.Reader) (ts : List Token) (line : Nat) : Parse (Option Expr) :=
  if ts.isEmpty then .ok none else do return some (← value read ts line)

def target (read : Run.Reader) (ts : List Token) (line : Nat) : Parse Target := Run.target read ts line

-- Simple statements

def assignments : List Token → List (List Token × Op × Bool) × List Token
  | [] => ([],[])
  | t :: rest =>
    match t, t.isAssignment with
    | .op o augmented _, true =>
      let (more,last) := assignments rest
      (([],o,augmented) :: more,last)
    | _, _ =>
      match assignments rest with
      | ([],last) => ([],t :: last)
      | ((first,o,augmented) :: more,last) => ((t :: first,o,augmented) :: more,last)

def simple (read : Run.Reader) (ts : List Token) (line : Nat) : Parse StmtKind :=
  match assignments ts with
  | ([],last) => do return .expr (← value read last line)
  | (parts,last) => do
    let assigned ← value read last line
    if parts.any fun (_,_,augmented) => augmented then
      match parts with
      | [(left,o,_)] =>
        match ← target read left line with
        | .tuple _ => ParseCause.badAugmented.at line
        | left =>
          match o.binary? with
          | some op => return .augAssign left op assigned
          | none => ParseCause.invalid.at line
      | _ => ParseCause.invalid.at line
    else return .assign (← parts.mapM fun (left,_,_) => target read left line) assigned

def listedName (line : Nat) : List Token → Parse String
  | [t] =>
    match t.identifier? with
    | some name => .ok name
    | none => (ParseCause.notName t.text).at line
  | _ => ParseCause.invalid.at line

def names (ts : List Token) (line : Nat) : Parse (List String) :=
  match Token.splitCommas ts with
  | [] => ParseCause.invalid.at line
  | segments => segments.mapM (listedName line)

def pathFrom (line : Nat) (path : String) : List Token → Parse String
  | [] => .ok path
  | .member name _ :: rest => pathFrom line (path ++ "." ++ name) rest
  | t :: _ => (ParseCause.strayInPath t.text).at line

def path (ts : List Token) (line : Nat) : Parse String :=
  match ts with
  | [] => ParseCause.noPath.at line
  | first :: rest =>
    match first.identifier? with
    | some name => pathFrom line name rest
    | none => (ParseCause.notName first.text).at line

def importedNames (ts : List Token) (line : Nat) : Parse (List String) :=
  match ts with
  | [star] => if star.isOp .mul then .ok [] else names ts line
  | _ => names ts line

def assertion (read : Run.Reader) (ts : List Token) (line : Nat) : Parse StmtKind :=
  match Token.splitCommas ts with
  | [test] => do return .asserts (← read test line) none
  | [test,message] => do
    let message ← read message line
    return .asserts (← read test line) (some message)
  | _ => ParseCause.invalid.at line

def deletion (read : Run.Reader) (ts : List Token) (line : Nat) : Parse StmtKind :=
  match Token.splitCommas ts with
  | [] => ParseCause.invalid.at line
  | segments => do
    return .deletes (← segments.mapM fun ts => do (← read ts line).target? line)

-- Functions and classes

def parameterName (t : Token) (line : Nat) : Parse String :=
  match t.identifier? with
  | some name => .ok name
  | none => (ParseCause.badParameter t.text).at line

def typeName? (ts : List Token) (line : Nat) : Parse (Option String) :=
  match ts with
  | [] => .ok none
  | colon :: rest =>
    if colon.isOp .colon then do return some (← path rest line) else ParseCause.invalid.at line

def plainParameter (read : Run.Reader) (name : Token) (rest : List Token) (line : Nat) :
    Parse Param := do
  let (annotated,default) := match Token.cutAt? .assign rest with
    | some (annotated,default) => (annotated,some default)
    | none => (rest,none)
  let typeName ← typeName? annotated line
  let name ← parameterName name line
  let default ← default.mapM (read · line)
  return { name, typeName, default }

def parameter (read : Run.Reader) (ts : List Token) (line : Nat) : Parse Param :=
  match ts with
  | [] => ParseCause.invalid.at line
  | [first,second] =>
    if first.isOp .mul then do return { name := ← parameterName second line, kind := .rest }
    else if first.isOp .pow then do
      return { name := ← parameterName second line, kind := .keywords }
    else plainParameter read first [second] line
  | first :: rest => plainParameter read first rest line

def parametersFrom (read : Run.Reader) (line : Nat) (before : List Param) :
    List (List Token) → Parse (List Param)
  | [] => .ok before.reverse
  | ts :: rest => do
    let p ← parameter read ts line
    if before.any (·.name == p.name) then (ParseCause.duplicateParameter p.name).at line
    else if p.kind == .normal && p.default.isNone
        && before.any (fun q => q.default.isSome && q.kind == .normal) then
      ParseCause.requiredAfterDefault.at line
    else parametersFrom read line (p :: before) rest

def parameters (read : Run.Reader) (ts : List Token) (line : Nat) : Parse (List Param) :=
  parametersFrom read line [] (Token.splitCommas ts)

def functionHead (read : Run.Reader) (ts : List Token) (decorators : List Expr) (line : Nat) :
    Parse FunctionHead :=
  match ts with
  | .name name _ :: .group .paren inner _ :: rest => do
    let returns ← match rest with
      | [] => pure none
      | arrow :: result =>
        if arrow.isOp .arrow then some <$> path result line else ParseCause.invalid.at line
    return { name, params := ← parameters read inner line, returns, decorators }
  | _ => ParseCause.badFunction.at line

def classHead (read : Run.Reader) (ts : List Token) (decorators : List Expr) (line : Nat) :
    Parse ClassHead :=
  match ts with
  | [.name name _] => .ok { name, bases := [], decorators }
  | [.name name _,.group .paren inner _] => do
    let bases ← (Token.splitCommas inner).mapM (read · line)
    return { name, bases, decorators }
  | _ => ParseCause.badClass.at line

-- Lines

def takesBlock : Option Keyword → Bool
  | some .ifKw | some .whileKw | some .forKw | some .defKw | some .classKw | some .elifKw
  | some .elseKw | some .tryKw | some .exceptKw | some .finallyKw | some .withKw => true
  | _ => false

def decorator? (head : Head) : Option (List Token) :=
  match head.keyword, head.tokens with
  | none, first :: rest => if first.isOp .cast then some rest else none
  | _, _ => none

def defines (head : Head) : Bool := head.keyword == some .defKw || head.keyword == some .classKw

def leaf (read : Run.Reader) (keyword : Option Keyword) (ts : List Token) (line : Nat) :
    Parse StmtKind :=
  match keyword with
  | none => simple read ts line
  | some .returnKw => do return .returns (← value? read ts line)
  | some .raiseKw => do return .raises (← value? read ts line)
  | some .passKw => if ts.isEmpty then .ok .pass else ParseCause.invalid.at line
  | some .breakKw => if ts.isEmpty then .ok .breaks else ParseCause.invalid.at line
  | some .continueKw => if ts.isEmpty then .ok .continues else ParseCause.invalid.at line
  | some .globalKw => do return .globals (← names ts line)
  | some .nonlocalKw => do return .nonlocals (← names ts line)
  | some .delKw => deletion read ts line
  | some .assertKw => assertion read ts line
  | some .importKw => do return .importModule (← path ts line)
  | some .fromKw =>
    match Token.cutAt? .bring ts with
    | none => ParseCause.fromWithoutImport.at line
    | some (from',imported) => do
      let imported ← importedNames imported line
      return .importNames (← path from' line) imported
  | some .elifKw => (ParseCause.looseTier "elif").at line
  | some .elseKw => (ParseCause.looseTier "else").at line
  | some keyword => (ParseCause.unsupported keyword.text).at line

mutual

def body (read : Run.Reader) (line : Nat) : Option (List Line) → Parse (List Stmt)
  | some (first :: rest) => block read [] (first :: rest)
  | _ => ParseCause.noBlock.at line

def block (read : Run.Reader) (decorators : List Expr) : List Line → Parse (List Stmt)
  | [] => .ok []
  | l :: rest => do
    match decorator? l.head with
    | some ts =>
      if l.body.isSome then ParseCause.invalid.at l.head.line
      else
        let decorator ← read ts l.head.line
        if rest.isEmpty then ParseCause.looseDecorator.at l.head.line
        else block read (decorators ++ [decorator]) rest
    | none =>
      if !decorators.isEmpty && !defines l.head then ParseCause.looseDecorator.at l.head.line
      else
        let first ← statement read decorators l
        return first :: (← block read [] rest)

def statement (read : Run.Reader) (decorators : List Expr) : Line → Parse Stmt
  | .mk head below tiers => do
    let line := head.line
    if below.isSome && !takesBlock head.keyword then ParseCause.invalid.at line
    else
      let kind : StmtKind ← match head.keyword with
        | some .ifKw => do
          let condition ← value read head.tokens line
          let yes ← body read line below
          let (branches,no) ← alternatives read tiers
          pure (.cond (.mk condition yes :: branches) no)
        | some .whileKw => do
          let condition ← value read head.tokens line
          pure (.whileLoop condition (← body read line below))
        | some .forKw =>
          match Token.cutAt? .within head.tokens with
          | none => ParseCause.forWithoutIn.at line
          | some (binding,iterable) => do
            let binding ← target read binding line
            let iterable ← value read iterable line
            pure (.forLoop binding iterable (← body read line below))
        | some .defKw => do
          let f ← functionHead read head.tokens decorators line
          pure (.function f (← body read line below))
        | some .classKw => do
          let c ← classHead read head.tokens decorators line
          pure (.classDef c (← body read line below))
        | keyword => leaf read keyword head.tokens line
      return .mk line kind

def alternatives (read : Run.Reader) : List Line → Parse (List Branch × List Stmt)
  | [] => .ok ([],[])
  | .mk head below _ :: rest =>
    match head.keyword, head.tokens with
    | some .elifKw, ts => do
      let condition ← value read ts head.line
      let yes ← body read head.line below
      let (branches,no) ← alternatives read rest
      return (.mk condition yes :: branches,no)
    | some .elseKw, [] => do
      let no ← body read head.line below
      let (branches,later) ← alternatives read rest
      return (branches,if later.isEmpty then no else later)
    | _, _ => ParseCause.invalid.at head.line

end

end Program

def parseLines (lines : List Line) : Parse (List Stmt) := Program.block Run.expression [] lines

inductive ScriptError where
  | lex (error : LexError)
  | parse (error : ParseError)
  deriving Repr

def parse (source : String) : Except ScriptError (List Stmt) :=
  match tokenize source with
  | .error e => .error (.lex e)
  | .ok lines =>
    match parseLines lines with
    | .error e => .error (.parse e)
    | .ok program => .ok program

end EmbedScript
