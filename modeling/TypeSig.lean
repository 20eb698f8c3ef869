import TypeSig.Byte.Class
import TypeSig.Byte.Decimal
import TypeSig.Byte.Terminated
import TypeSig.Text.Clipped
import TypeSig.Text.Bounded
import TypeSig.Diagnostic
import TypeSig.Fault
import TypeSig.Tree.Basic
import TypeSig.Arena.Basic
import TypeSig.Arena.Cursor
import TypeSig.Arena.Equality
import TypeSig.Arena.Build
import TypeSig.Signature.Token
import TypeSig.Signature.Failure
import TypeSig.Signature.Reader
import TypeSig.Signature.Writer
import TypeSig.Target.Identifier
import TypeSig.Target.FieldNames
import TypeSig.Target.Literal
import TypeSig.Overload.Basic
import TypeSig.Overload.List
import TypeSig.Rules.Basic
import TypeSig.Rules.Default
import TypeSig.Rules.Variant
import TypeSig.Generate
import TypeSig.Proofs.Arena.Spans
import TypeSig.Proofs.Arena.Growth
import TypeSig.Proofs.Signature.Grammar
import TypeSig.Proofs.Signature.Steps
import TypeSig.Proofs.Signature.Complete
import TypeSig.Proofs.Signature.Sound
import TypeSig.Proofs.Signature.Language
import TypeSig.Proofs.Signature.Canonical
import TypeSig.Proofs.Signature.RoundTrip
import TypeSig.Proofs.Signature.Lookahead
import TypeSig.Proofs.Signature.Viable
import TypeSig.Proofs.Text.Message
import TypeSig.Proofs.Signature.CorrectPrefix
import TypeSig.Proofs.Signature.Guarded
import TypeSig.Proofs.Signature.Bytewise
import TypeSig.Proofs.Signature.Safety
import TypeSig.Proofs.Arena.Parts
import TypeSig.Proofs.Arena.Links
import TypeSig.Proofs.Arena.Forest
import TypeSig.Proofs.Arena.Equality
import TypeSig.Proofs.Arena.Walk
import TypeSig.Proofs.Overload.Distinct
import TypeSig.Proofs.Overload.Growth
import TypeSig.Proofs.Rules.Default
import TypeSig.Proofs.Rules.Flatten
import TypeSig.Proofs.Target.Names
import TypeSig.Proofs.Target.Children
import TypeSig.Proofs.Rules.Faults
import TypeSig.Proofs.Rules.Safety
import TypeSig.Proofs.Rules.Layout
import TypeSig.Proofs.Rules.Proper
import TypeSig.Proofs.Rules.Repeats
import TypeSig.Proofs.Text.SameUnless
import TypeSig.Proofs.Signature.Capacity
import TypeSig.Proofs.Rules.Lockstep
import TypeSig.Proofs.Rules.Capacity
import TypeSig.Proofs.Rules.Isolation
import TypeSig.Proofs.Rules.Unbounded
import TypeSig.Proofs.Rules.Exact
import TypeSig.Proofs.Rules.ExactOverloads
import TypeSig.Proofs.Target.Legal
import TypeSig.Proofs.Target.FieldNames
import TypeSig.Proofs.Rules.Bundle
import TypeSig.Proofs.Rules.Arity
import TypeSig.Proofs.Target.Decode
import TypeSig.Proofs.Rules.Objects
import TypeSig.Proofs.Arena.Relocation
import TypeSig.Proofs.Arena.Attained
import TypeSig.Proofs.Arena.Build
import TypeSig.Proofs.Arena.Refusal
import TypeSig.Proofs.Target.Words
import TypeSig.Proofs.Overload.Offers
import TypeSig.Proofs.Target.Quoted
import TypeSig.Proofs.Text.Clipping
import TypeSig.Proofs.Text.Bounding
