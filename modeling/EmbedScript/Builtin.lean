namespace EmbedScript

inductive Builtin where
  | print
  | len
  | repr
  | isInstance
  | isSubclass
  | type
  | iter
  | next
  | hasAttr
  | getAttr
  | setAttr
  | callable
  | id
  | abs
  | round
  | chr
  | ord
  | sorted
  | enumerate
  | zip
  | sum
  | globals
  | super
  | staticMethod
  | slice
  | importModule
  | extend
  | objectNew
  | objectInit
  | objectGetAttribute
  | objectSetAttr
  | objectDelAttr
  | objectRepr
  | objectStr
  | objectEq
  | objectNe
  | objectBool
  | echo (name : String)
  | refuse (name : String)
  deriving DecidableEq, Repr

namespace Builtin

def name : Builtin → String
  | print => "print"
  | len => "len"
  | .repr => "repr"
  | isInstance => "isinstance"
  | isSubclass => "issubclass"
  | type => "type"
  | iter => "iter"
  | next => "next"
  | hasAttr => "hasattr"
  | getAttr => "getattr"
  | setAttr => "setattr"
  | callable => "callable"
  | id => "id"
  | abs => "abs"
  | round => "round"
  | chr => "chr"
  | ord => "ord"
  | sorted => "sorted"
  | enumerate => "enumerate"
  | zip => "zip"
  | sum => "sum"
  | globals => "globals"
  | super => "super"
  | staticMethod => "staticmethod"
  | slice => "slice"
  | importModule => "__import__"
  | extend => "__extend__"
  | objectNew => "__new__"
  | objectInit => "__init__"
  | objectGetAttribute => "__getattribute__"
  | objectSetAttr => "__setattr__"
  | objectDelAttr => "__delattr__"
  | objectRepr => "__repr__"
  | objectStr => "__str__"
  | objectEq => "__eq__"
  | objectNe => "__ne__"
  | objectBool => "__bool__"
  | echo name => name
  | refuse name => name

def everywhere : List Builtin :=
  [print,len,.repr,isInstance,isSubclass,type,iter,next,hasAttr,getAttr,setAttr,callable,
    id,abs,round,chr,ord,sorted,enumerate,zip,sum,globals,super,staticMethod,slice,
    importModule,extend]

def ofObject : List Builtin :=
  [objectNew,objectInit,objectGetAttribute,objectSetAttr,objectDelAttr,objectRepr,objectStr,
    objectEq,objectNe,objectBool]

end Builtin

end EmbedScript
