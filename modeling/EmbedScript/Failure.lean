import EmbedScript.Code.Error
import EmbedScript.Exec
import EmbedScript.Syntax.Program

namespace EmbedScript

inductive Failure where
  | syntactic (error : ScriptError)
  | compile (error : CompileError)
  | runtime (fault : Fault) (trace : List TraceFrame)
  | unreadable (path : String) (error : ReadError)

namespace Failure

def message : Failure → String
  | syntactic (.lex e) => "SyntaxError: " ++ e.message
  | syntactic (.parse e) => "SyntaxError: " ++ e.message
  | compile e => "SyntaxError: " ++ e.message
  | runtime fault _ => fault.message
  | unreadable path e => s!"cannot read '{path}': {e.message}"

def trace : Failure → List TraceFrame
  | runtime _ trace => trace
  | _ => []

def report (f : Failure) : String := f.trace.foldl (fun text frame => text ++ "\n  " ++ frame.text) f.message

end Failure

end EmbedScript
