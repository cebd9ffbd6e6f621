/-!
Errors of a running script. `Fault.message` is the text a report starts with.
-/

namespace EmbedScript

structure Raised where
  typeName : String
  lineage : List String
  message : String
  deriving DecidableEq, Repr

inductive Fault where
  | type (message : String)
  | attribute (message : String)
  | name (name : String)
  | unboundLocal (name : String)
  | index (message : String)
  | key (message : String)
  | zeroDivision (message : String)
  | overflow (message : String)
  | value (message : String)
  | recursion (limit : Nat)
  | importing (message : String)
  | raised (raised : Raised)
  deriving DecidableEq, Repr

namespace Raised

def named (typeName message : String) : Raised := ⟨typeName,[typeName],message⟩

def isA (r : Raised) (name : String) : Bool := r.lineage.contains name

def text (r : Raised) : String :=
  if r.message.isEmpty then r.typeName else r.typeName ++ ": " ++ r.message

end Raised

namespace Fault

def kind : Fault → String
  | type _ => "TypeError"
  | .attribute _ => "AttributeError"
  | name _ => "NameError"
  | unboundLocal _ => "UnboundLocalError"
  | index _ => "IndexError"
  | key _ => "KeyError"
  | zeroDivision _ => "ZeroDivisionError"
  | overflow _ => "OverflowError"
  | value _ => "ValueError"
  | recursion _ => "RecursionError"
  | importing _ => "ImportError"
  | raised r => r.typeName

def message : Fault → String
  | type m => "TypeError: " ++ m
  | .attribute m => "AttributeError: " ++ m
  | name n => s!"NameError: name '{n}' is not defined"
  | unboundLocal n => s!"UnboundLocalError: local variable '{n}' referenced before assignment"
  | index m => "IndexError: " ++ m
  | key m => "KeyError: " ++ m
  | zeroDivision m => "ZeroDivisionError: " ++ m
  | overflow m => "OverflowError: " ++ m
  | value m => "ValueError: " ++ m
  | recursion limit => s!"RecursionError: maximum recursion depth exceeded ({limit})"
  | importing m => "ImportError: " ++ m
  | raised r => r.text

def stopIteration : Fault := raised (Raised.named "StopIteration" "")

def isStopIteration : Fault → Bool
  | raised r => r.isA "StopIteration"
  | _ => false

def isMissingAttribute : Fault → Bool
  | .attribute _ => true
  | raised r => r.isA "AttributeError"
  | _ => false

def assertion (message : String) : Fault :=
  raised ⟨"AssertionError",["AssertionError","Exception","BaseException"],message⟩

-- Wordings used in more than one place

def integerTooLarge : Fault := overflow "integer result too large"

def integerDivision : Fault := zeroDivision "integer division or modulo by zero"

def zeroToNegativePower : Fault := zeroDivision "0.0 cannot be raised to a negative power"

def negativeShift : Fault := value "negative shift count"

def notSubscriptable (typeName : String) : Fault := type s!"'{typeName}' object is not subscriptable"

def notAssignable (typeName : String) : Fault := type s!"'{typeName}' object does not support item assignment"

def notCallable (typeName : String) : Fault := type s!"'{typeName}' object is not callable"

def notIterable (typeName : String) : Fault := type s!"'{typeName}' object is not iterable"

def noMembership (typeName : String) : Fault := type s!"argument of type '{typeName}' is not iterable"

def noLength (typeName : String) : Fault := type s!"object of type '{typeName}' has no len()"

def noAttribute (typeName name : String) : Fault :=
  .attribute s!"'{typeName}' object has no attribute '{name}'"

def noClassAttribute (className name : String) : Fault :=
  .attribute s!"type object '{className}' has no attribute '{name}'"

def noModuleAttribute (module name : String) : Fault :=
  .attribute s!"module '{module}' has no attribute '{name}'"

def unhashable (typeName : String) : Fault := type s!"unhashable type: '{typeName}'"

def notInteger (typeName : String) : Fault := type s!"'{typeName}' object cannot be interpreted as an integer"

def wrongReceiver (expected found : String) : Fault :=
  type s!"descriptor requires a '{expected}' object but received a '{found}'"

def nameNotText : Fault := type "attribute name must be string"

def iteratorBusy : Fault := value "iterator already executing"

def argumentCount (function : String) (expected found : Nat) : Fault :=
  type s!"{function}() takes {expected} arguments ({found} given)"

def argumentRange (function : String) (least most found : Nat) : Fault :=
  type s!"{function}() takes from {least} to {most} arguments ({found} given)"

def unpackCount (expected found : Nat) : Fault :=
  if found < expected then
    value s!"not enough values to unpack (expected {expected}, got {found})"
  else value s!"too many values to unpack (expected {expected})"

end Fault

end EmbedScript
