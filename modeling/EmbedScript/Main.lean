import EmbedScript.CommandLine

namespace EmbedScript

def readText (path : String) : IO (Except ReadError String) := do
  try
    return .ok (← IO.FS.readFile path)
  catch e =>
    match e with
    | .noFileOrDirectory .. => return .error .notFound
    | .inappropriateType .. => return .error .isDirectory
    | e => return .error (.other (toString e))

partial def runWith (args : List String) (input : String)
    (known : List (String × Except ReadError String)) : IO UInt32 := do
  match CommandLine.run args input (.answers known) with
  | .ok ending =>
    IO.print ending.output
    IO.eprint ending.errors
    return UInt32.ofNat ending.code
  | .error (.needs path) => runWith args input ((path,← readText path) :: known)
  | .error .outOfFuel => return 101
  | .error .crash =>
    IO.eprintln "Error: interpreter thread panicked"
    return 1

end EmbedScript

def main (args : List String) : IO UInt32 := do
  let wantsInput := (EmbedScript.CommandLine.read? args).any (·.wantsInput)
  let input ← if wantsInput then (← IO.getStdin).readToEnd else pure ""
  EmbedScript.runWith args input []
