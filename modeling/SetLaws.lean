import SetLaws.CommandLine
import SetLaws.ElementSet.Membership
import SetLaws.Main
import SetLaws.Proofs.Evaluation.Canonical
import SetLaws.Proofs.Evaluation.Meaning
import SetLaws.Proofs.Expr.References
import SetLaws.Proofs.Session.Step
import SetLaws.Proofs.Session.Meaning
import SetLaws.Proofs.Session.Reachable
import SetLaws.Proofs.Signature.Listing
import SetLaws.Proofs.Signature.RoundTrip
import SetLaws.Proofs.Signature.Tokens
import SetLaws.Proofs.Simplification.Meaning
import SetLaws.Proofs.Text.Ends
import SetLaws.Signature.Parser
import SetLaws.Text.Place
import SetLaws.Proofs.Signature.Need
import SetLaws.Proofs.Simplification.Sequences
import SetLaws.Proofs.Simplification.History
import SetLaws.Proofs.Session.Reports
import SetLaws.Proofs.Evaluation.Normal
import SetLaws.Proofs.Session.Invariant
import SetLaws.Proofs.Session.Undefined
import SetLaws.Proofs.Session.Prune
import SetLaws.Proofs.Program.RoundTrip
import SetLaws.Proofs.Law.Application
import SetLaws.Proofs.Law.Pattern
import SetLaws.Proofs.Evaluation.Trace
import SetLaws.Proofs.CommandLine.Run
import SetLaws.Proofs.Text.Bytes
import SetLaws.Proofs.Element.Order
import SetLaws.Proofs.ElementSet.Same
import SetLaws.Proofs.Environment.Algebra
import SetLaws.Proofs.Signature.Partition
import SetLaws.Proofs.Evaluation.Effect
import SetLaws.Proofs.Evaluation.Faults
import SetLaws.Proofs.Simplification.Towers
import SetLaws.Proofs.Evaluation.Range
import SetLaws.Proofs.ElementSet.Display
import SetLaws.Proofs.Session.Agreement
import SetLaws.Proofs.Law.Turns
import SetLaws.Proofs.Signature.Rename
import SetLaws.Proofs.Simplification.Rename
import SetLaws.Proofs.Simplification.Growth
import SetLaws.Proofs.Evaluation.Applied
import SetLaws.Proofs.Evaluation.Elements
import SetLaws.Proofs.Session.Members
import SetLaws.Proofs.Text.Edit
import SetLaws.Proofs.Environment.Names
import SetLaws.Proofs.Signature.Size
import SetLaws.Proofs.Simplification.Replacement
import SetLaws.Proofs.Text.Place
import SetLaws.Proofs.Evaluation.Flattened
import SetLaws.Proofs.Evaluation.Union
import SetLaws.Proofs.Session.Lists
import SetLaws.Proofs.Evaluation.Literal
import SetLaws.Proofs.Traversal.Recursion
