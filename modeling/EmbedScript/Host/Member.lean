import EmbedScript.Host.Signature
import EmbedScript.Text.Pieces

/-!
Members of host types as data. What a member does is named by an action, which is carried out where
values and the store are known.
-/

namespace EmbedScript

inductive NumberAction where
  | zero
  | ofValue
  | parse
  | bitLength
  | floatZero
  | floatOf
  | isInteger
  | no
  | truth
  deriving DecidableEq, Repr

inductive Ends where
  | left
  | right
  | both
  deriving DecidableEq, Repr

inductive CharClass where
  | digit
  | alpha
  | alnum
  | space
  deriving DecidableEq, Repr

inductive TextAction where
  | empty
  | ofValue
  | upper
  | lower
  | capitalize
  | title
  | strip (ends : Ends)
  | stripChars (ends : Ends)
  | splitWords
  | split
  | splitLimit
  | splitLines
  | join
  | replace
  | replaceLimit
  | startsWith
  | endsWith
  | find
  | count
  | test (chars : CharClass)
  | zfill
  | justify (align : Text.Align)
  | format

inductive ListAction where
  | empty
  | ofValue
  | append
  | extend
  | pop
  | popAt
  | insert
  | remove
  | index
  | count
  | reverse
  | sort
  | clear
  | copy
  deriving DecidableEq, Repr

inductive TupleAction where
  | empty
  | ofValue
  | index
  | count
  deriving DecidableEq, Repr

inductive DictAction where
  | ofEntries
  | update
  | get
  | getOr
  | keys
  | values
  | items
  | pop
  | popOr
  | setDefault
  | clear
  | copy
  deriving DecidableEq, Repr

inductive SetAction where
  | empty
  | ofValue
  | add
  | remove
  | discard
  | pop
  | union
  | intersection
  | difference
  | isSubset
  | clear
  | copy
  deriving DecidableEq, Repr

inductive RangeAction where
  | upTo
  | fromTo
  | stepped
  deriving DecidableEq, Repr

inductive BuilderAction where
  | empty
  | ofText
  | append
  | appendLine
  | insert
  | clear
  | text
  | length
  | drain
  deriving DecidableEq, Repr

inductive TallyAction where
  | start
  | bump
  | bumpBy
  | scale
  | getItem
  | setItem
  | contains
  | call
  | text
  | describe
  deriving DecidableEq, Repr

inductive Action where
  | number (action : NumberAction)
  | text (action : TextAction)
  | list (action : ListAction)
  | tuple (action : TupleAction)
  | dict (action : DictAction)
  | set (action : SetAction)
  | range (action : RangeAction)
  | builder (action : BuilderAction)
  | tally (action : TallyAction)

inductive Access where
  | self
  | zero
  | rangeStart
  | rangeStop
  | rangeStep
  | builderLength
  | builderNewline
  | tallyCount
  | tallyLabel
  deriving DecidableEq, Repr

structure HostMethod where
  signature : Signature
  action : Action
  isStatic : Bool := false

structure HostProperty where
  name : String
  kind : Kind
  access : Access
  writable : Bool := false

structure HostType where
  name : String
  constructors : List HostMethod
  methods : List HostMethod := []
  properties : List HostProperty := []
  fields : List HostProperty := []

namespace HostType

def hasMethod (t : HostType) (name : String) : Bool := t.methods.any (·.signature.name == name)

def methodsNamed (t : HostType) (name : String) (statics : Bool) : List HostMethod :=
  t.methods.filter fun m => m.signature.name == name && m.isStatic == statics

def property? (t : HostType) (name : String) : Option HostProperty :=
  (t.properties.find? (·.name == name)).or (t.fields.find? (·.name == name))

end HostType

structure HostTypes where
  types : List HostType

namespace HostTypes

def get? (r : HostTypes) (name : String) : Option HostType := r.types.find? (·.name == name)

def register (r : HostTypes) (t : HostType) : HostTypes :=
  if r.types.any (·.name == t.name) then
    ⟨r.types.map fun known => if known.name == t.name then t else known⟩
  else ⟨r.types ++ [t]⟩

end HostTypes

end EmbedScript
