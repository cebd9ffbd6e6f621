import EmbedScript.Host.Member

/-!
The types every script can use. Constructors are also the conversions, such as `int('12')`.
-/

namespace EmbedScript.Standard

def member (name : String) (params : List Kind) (returns : Kind) (action : Action) : HostMethod :=
  { signature := Signature.plain name params returns, action }

def variadic (name : String) (returns : Kind) (action : Action) : HostMethod :=
  { signature := { name, params := [], returns, variadic := true }, action }

def intType : HostType :=
  let act (name : String) (params : List Kind) (a : NumberAction) := member name params .int (.number a)
  { name := "int"
    constructors := [act "int" [] .zero,act "int" [.dynamic] .ofValue,act "int" [.str,.int] .parse]
    methods := [act "bit_length" [] .bitLength]
    properties := [{ name := "real", kind := .int, access := .self },
      { name := "imag", kind := .int, access := .zero }] }

def floatType : HostType where
  name := "float"
  constructors := [member "float" [] .float (.number .floatZero),
    member "float" [.dynamic] .float (.number .floatOf)]
  methods := [member "is_integer" [] .bool (.number .isInteger)]

def boolType : HostType where
  name := "bool"
  constructors := [member "bool" [] .bool (.number .no),member "bool" [.dynamic] .bool (.number .truth)]

def strType : HostType :=
  let act (name : String) (params : List Kind) (returns : Kind) (a : TextAction) :=
    member name params returns (.text a)
  { name := "str"
    constructors := [act "str" [] .str .empty,act "str" [.dynamic] .str .ofValue]
    methods := [act "upper" [] .str .upper,act "lower" [] .str .lower,act "capitalize" [] .str .capitalize,
      act "title" [] .str .title,
      act "strip" [] .str (.strip .both),
      act "strip" [.str] .str (.stripChars .both),
      act "lstrip" [] .str (.strip .left),
      act "lstrip" [.str] .str (.stripChars .left),
      act "rstrip" [] .str (.strip .right),
      act "rstrip" [.str] .str (.stripChars .right),
      act "split" [] .list .splitWords,
      act "split" [.str] .list .split,
      act "split" [.str,.int] .list .splitLimit,
      act "splitlines" [] .list .splitLines,
      act "join" [.dynamic] .str .join,
      act "replace" [.str,.str] .str .replace,
      act "replace" [.str,.str,.int] .str .replaceLimit,
      act "startswith" [.str] .bool .startsWith,
      act "endswith" [.str] .bool .endsWith,
      act "find" [.str] .int .find,
      act "count" [.str] .int .count,
      act "isdigit" [] .bool (.test .digit),
      act "isalpha" [] .bool (.test .alpha),
      act "isalnum" [] .bool (.test .alnum),
      act "isspace" [] .bool (.test .space),
      act "zfill" [.int] .str .zfill,
      act "ljust" [.int] .str (.justify .left),
      act "rjust" [.int] .str (.justify .right),
      act "center" [.int] .str (.justify .center),
      variadic "format" .str (.text .format)] }

def listType : HostType :=
  let act (name : String) (params : List Kind) (returns : Kind) (a : ListAction) :=
    member name params returns (.list a)
  { name := "list"
    constructors := [act "list" [] .list .empty,act "list" [.dynamic] .list .ofValue]
    methods := [act "append" [.dynamic] .none .append,act "extend" [.dynamic] .none .extend,
      act "pop" [] .dynamic .pop,
      act "pop" [.int] .dynamic .popAt,
      act "insert" [.int,.dynamic] .none .insert,
      act "remove" [.dynamic] .none .remove,
      act "index" [.dynamic] .int .index,
      act "count" [.dynamic] .int .count,
      act "reverse" [] .none .reverse,
      variadic "sort" .none (.list .sort),
      act "clear" [] .none .clear,
      act "copy" [] .list .copy] }

def tupleType : HostType :=
  let act (name : String) (params : List Kind) (returns : Kind) (a : TupleAction) :=
    member name params returns (.tuple a)
  { name := "tuple"
    constructors := [act "tuple" [] .tuple .empty,act "tuple" [.dynamic] .tuple .ofValue]
    methods := [act "index" [.dynamic] .int .index,act "count" [.dynamic] .int .count] }

def dictType : HostType :=
  let act (name : String) (params : List Kind) (returns : Kind) (a : DictAction) :=
    member name params returns (.dict a)
  { name := "dict"
    constructors := [variadic "dict" .dict (.dict .ofEntries)]
    methods := [variadic "update" .none (.dict .update),act "get" [.dynamic] .dynamic .get,
      act "get" [.dynamic,.dynamic] .dynamic .getOr,
      act "keys" [] .list .keys,
      act "values" [] .list .values,
      act "items" [] .list .items,
      act "pop" [.dynamic] .dynamic .pop,
      act "pop" [.dynamic,.dynamic] .dynamic .popOr,
      act "setdefault" [.dynamic,.dynamic] .dynamic .setDefault,
      act "clear" [] .none .clear,
      act "copy" [] .dict .copy] }

def setType : HostType :=
  let act (name : String) (params : List Kind) (returns : Kind) (a : SetAction) :=
    member name params returns (.set a)
  { name := "set"
    constructors := [act "set" [] .set .empty,act "set" [.dynamic] .set .ofValue]
    methods := [act "add" [.dynamic] .none .add,act "remove" [.dynamic] .none .remove,
      act "discard" [.dynamic] .none .discard,
      act "pop" [] .dynamic .pop,
      act "union" [.dynamic] .set .union,
      act "intersection" [.dynamic] .set .intersection,
      act "difference" [.dynamic] .set .difference,
      act "issubset" [.dynamic] .bool .isSubset,
      act "clear" [] .none .clear,
      act "copy" [] .set .copy] }

def rangeType : HostType :=
  let act (params : List Kind) (a : RangeAction) := member "range" params .dynamic (.range a)
  { name := "range"
    constructors := [act [.int] .upTo,act [.int,.int] .fromTo,act [.int,.int,.int] .stepped]
    properties := [{ name := "start", kind := .int, access := .rangeStart },
      { name := "stop", kind := .int, access := .rangeStop },
      { name := "step", kind := .int, access := .rangeStep }] }

def builderType : HostType :=
  let name := "StringBuilder"
  let act (name : String) (params : List Kind) (returns : Kind) (a : BuilderAction) :=
    member name params returns (.builder a)
  let append (kind : Kind) := act "append" [kind] (.host name) .append
  { name
    constructors := [act name [] .dynamic .empty,act name [.str] .dynamic .ofText]
    methods := [append .str,append .int,append .float,append .bool,append .dynamic,
      act "append_line" [.str] .none .appendLine,
      act "insert" [.int,.str] .none .insert,
      act "clear" [] .none .clear,
      act "to_string" [] .str .text,
      act "__str__" [] .str .text,
      act "__len__" [] .int .length,
      { signature := { name := "drain_into", params := [{ kind := .list, byRef := true }], returns := .none }
        action := .builder .drain }]
    properties := [{ name := "length", kind := .int, access := .builderLength }]
    fields := [{ name := "newline", kind := .str, access := .builderNewline, writable := true }] }

def types : HostTypes := ⟨[intType,floatType,boolType,strType,listType,tupleType,dictType,setType,rangeType,
    builderType]⟩

end EmbedScript.Standard
