import EmbedScript.Value

/-!
Extensions: functions attached to types. They come before the members of the type.
-/

namespace EmbedScript

structure Extensions where
  entries : List ((String × String) × Ref .function) := []

namespace Extensions

def get? (x : Extensions) (key name : String) : Option (Ref .function) := x.entries.lookup (key,name)

def contains (x : Extensions) (key name : String) : Bool := (x.get? key name).isSome

def register (x : Extensions) (key name : String) (function : Ref .function) : Extensions :=
  ⟨((key,name),function) :: x.entries⟩

end Extensions

end EmbedScript
