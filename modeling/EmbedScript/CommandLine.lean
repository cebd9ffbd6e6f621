import EmbedScript.Interpreter

/-!
The command line: its options, and a run of it.

`[file] [-c command] [-I directory]... [--prelude file] [--max-depth n]`; without a file or a
command the program is read from standard input.
-/

namespace EmbedScript

namespace CommandLine

structure Options where
  file : Option String := none
  command : Option String := none
  directories : List String := []
  prelude : Option String := none
  maxDepth : Option Nat := none
  verbose : Nat := 0

inductive Flag where
  | command
  | directory
  | prelude
  | maxDepth

def longFlag? : String → Option Flag
  | "command" => some .command
  | "include" => some .directory
  | "prelude" => some .prelude
  | "max-depth" => some .maxDepth
  | _ => none

def shortFlag? : Char → Option Flag
  | 'c' => some .command
  | 'I' => some .directory
  | _ => none

def count? (text : String) : Option Nat :=
  let digits := match text.toList with
    | '+' :: digits => digits
    | digits => digits
  if digits.isEmpty || !digits.all Char.isDigit then none
  else
    let n := Decimal.natOfDigits digits
    if n < 0x10000000000000000 then some n else none

def Options.set (o : Options) (flag : Flag) (value : String) : Option Options :=
  match flag with
  | .command => if o.command.isSome then none else some { o with command := some value }
  | .directory => some { o with directories := o.directories ++ [value] }
  | .prelude => if o.prelude.isSome then none else some { o with prelude := some value }
  | .maxDepth =>
    match count? value with
    | some n => if o.maxDepth.isSome then none else some { o with maxDepth := some n }
    | none => none

def Options.setFile (o : Options) (value : String) : Option Options :=
  if o.file.isSome then none else some { o with file := some value }

def looksLikeFlag (text : String) : Bool :=
  match text.toList with
  | '-' :: _ :: _ => true
  | _ => false

def afterEquals : List Char → List Char
  | '=' :: cs => cs
  | cs => cs

/-- Letters of short options, where the last may want a value. -/
inductive Short where
  | bad
  | done (options : Options)
  | wants (options : Options) (flag : Flag)

def shorts (o : Options) : List Char → Short
  | [] => .done o
  | 'v' :: rest => shorts { o with verbose := o.verbose + 1 } rest
  | c :: rest =>
    match shortFlag? c with
    | none => .bad
    | some flag =>
      if rest.isEmpty then .wants o flag
      else
        match o.set flag (String.ofList (afterEquals rest)) with
        | some o => .done o
        | none => .bad

/-- `wanted` is an option whose value comes next, and `plain` says that only files follow. -/
def readFrom (o : Options) (wanted : Option Flag) (plain : Bool) : List String → Option Options
  | [] => if wanted.isSome then none else some o
  | arg :: args =>
    match wanted with
    | some flag =>
      if looksLikeFlag arg then none
      else (o.set flag arg).bind fun o => readFrom o none plain args
    | none =>
      if plain then (o.setFile arg).bind fun o => readFrom o none plain args
      else
        match arg.toList with
        | ['-','-'] => readFrom o none true args
        | '-' :: '-' :: name =>
          let key := String.ofList (name.takeWhile (· != '='))
          match name.dropWhile (· != '='), longFlag? key with
          | '=' :: value, some flag =>
            (o.set flag (String.ofList value)).bind fun o => readFrom o none plain args
          | [], some flag => readFrom o (some flag) plain args
          | [], none =>
            if key == "verbose" then readFrom { o with verbose := o.verbose + 1 } none plain args
            else none
          | _, _ => none
        | '-' :: c :: letters =>
          match shorts o (c :: letters) with
          | .bad => none
          | .done o => readFrom o none plain args
          | .wants o flag => readFrom o (some flag) plain args
        | _ => (o.setFile arg).bind fun o => readFrom o none plain args

def read? (args : List String) : Option Options :=
  (readFrom {} none false args).filter fun o => o.file.isNone || o.command.isNone

def Options.config (o : Options) (disk : Disk) : Config :=
  let beside := (o.file.bind Path.parent?).toList
  { maxDepth := o.maxDepth.getD 200
    prelude := o.prelude
    search := beside ++ ["."] ++ o.directories
    disk }

def Options.wantsInput (o : Options) : Bool := o.file.isNone && o.command.isNone

structure Ending where
  code : Nat
  output : String
  errors : String
  deriving DecidableEq, Repr

def fatal (f : Failure) : String :=
  match f with
  | .unreadable _ e => s!"Error: {f.message}\n\nCaused by:\n    {e.message}\n"
  | _ => s!"Error: {f.report}\n"

def program (o : Options) (input : String) : Exec (Except Failure (Ref .module)) :=
  match o.command, o.file with
  | some code, _ => Interpreter.runSource "__main__" code
  | none, some path => Interpreter.runFile path
  | none, none => Interpreter.runSource "__main__" input

def session (o : Options) (input : String) (disk : Disk) : Exec Ending := do
  match ← Interpreter.start (o.config disk) with
  | .error f =>
    return { code := 1, output := ← Interpreter.takeOutput, errors := s!"Error: {f.report}\n" }
  | .ok () =>
    let result ← program o input
    let output ← Interpreter.takeOutput
    match result with
    | .ok _ => return { code := 0, output, errors := "" }
    | .error (.unreadable path e) =>
      return { code := 1, output, errors := fatal (.unreadable path e) }
    | .error f => return { code := 1, output, errors := f.report ++ "\n" }

def misused : Ending := { code := 2, output := "", errors := "error: invalid arguments\n" }

def run (args : List String) (input : String) (disk : Disk) : Except Halt Ending :=
  match read? args with
  | none => .ok misused
  | some o =>
    match session o input disk (Interpreter.initial (o.config disk)) with
    | .done ending _ => .ok ending
    | .fault _ _ => .ok misused
    | .halt h => .error h

end CommandLine

end EmbedScript
