import EmbedScript.Host.Standard

/-!
A counter with a label: a host type that has every kind of member. It is not a standard type.
-/

namespace EmbedScript

def tallyType : HostType :=
  let act (name : String) (params : List Kind) (returns : Kind) (a : TallyAction) :=
    Standard.member name params returns (.tally a)
  { name := "Tally"
    constructors := [act "Tally" [.int] .dynamic .start]
    methods := [act "bump" [] .none .bump,act "bump" [.int] .none .bumpBy,act "scale" [.float] .float .scale,
      act "__getitem__" [.int] .int .getItem,
      act "__setitem__" [.str,.int] .none .setItem,
      act "__contains__" [.int] .bool .contains,
      act "__call__" [.int] .int .call,
      act "__repr__" [] .str .text,
      { act "describe" [] .str .describe with isStatic := true }]
    properties := [{ name := "count", kind := .int, access := .tallyCount }]
    fields := [{ name := "label", kind := .str, access := .tallyLabel, writable := true }] }

end EmbedScript
