import EmbedScript.Main
import EmbedScript.Proofs.Datum.RoundTrip
import EmbedScript.Proofs.Token.Offside
import EmbedScript.Proofs.Arguments
import EmbedScript.Proofs.Code.ClassBodies
import EmbedScript.Proofs.Engine.AttributeHooks
import EmbedScript.Proofs.Engine.Lines
import EmbedScript.Proofs.Inheritance
import EmbedScript.Proofs.Syntax.Grouping
import EmbedScript.Proofs.Dict.Update
import EmbedScript.Proofs.Modules.Import
import EmbedScript.Proofs.Set.Algebra
import EmbedScript.Proofs.Typing.Conversion
import EmbedScript.Proofs.Typing.Locals
import EmbedScript.Proofs.Syntax.Strict
import EmbedScript.Proofs.Range.Part
import EmbedScript.Proofs.Number.Integers
import EmbedScript.Proofs.Number.Literal
import EmbedScript.Proofs.Iteration.Membership
import EmbedScript.Proofs.Display.Representation
import EmbedScript.Proofs.Token.BlankLines
import EmbedScript.Proofs.Token.StatementLines
import EmbedScript.Proofs.Format.Concatenation
import EmbedScript.Proofs.Code.Comprehension
import EmbedScript.Proofs.Iteration.Exhaustion
import EmbedScript.Proofs.Sequence.Removal
import EmbedScript.Proofs.Number.Floats
import EmbedScript.Proofs.Typing.Returns
import EmbedScript.Proofs.Engine.StaticMembers
import EmbedScript.Proofs.Host.Overload
import EmbedScript.Proofs.Iteration.Enumerate
import EmbedScript.Proofs.Ancestry
import EmbedScript.Proofs.Syntax.Literals
