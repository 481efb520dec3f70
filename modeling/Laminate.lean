import Laminate.Address.IPv4
import Laminate.Address.Pool
import Laminate.Call.Argument
import Laminate.Call.Basic
import Laminate.Call.Token
import Laminate.CommandLine.Arguments
import Laminate.CommandLine.Files
import Laminate.CommandLine.Merge
import Laminate.Context
import Laminate.Cursor.Basic
import Laminate.Cursor.Glob
import Laminate.Cursor.Lookup
import Laminate.Cursor.Reader
import Laminate.Decimal.Binary64
import Laminate.Decimal.Literal
import Laminate.Decimal.Shortest
import Laminate.Evaluate
import Laminate.Fault
import Laminate.Logged
import Laminate.Main
import Laminate.Merge.Directive
import Laminate.Merge.Documents
import Laminate.Merge.List
import Laminate.Merge.Overlay
import Laminate.Node.Basic
import Laminate.Node.Dotted
import Laminate.Node.Entries
import Laminate.Node.Json
import Laminate.Operator.Basic
import Laminate.Operator.Builtin
import Laminate.Operator.References
import Laminate.Operator.StaticAddresses
import Laminate.Operator.Texts
import Laminate.Pipeline
import Laminate.Proofs.Address.Pool
import Laminate.Proofs.Aggregate
import Laminate.Proofs.Agreement
import Laminate.Proofs.Call.BarePath
import Laminate.Proofs.Call.Grammar
import Laminate.Proofs.Call.Pattern
import Laminate.Proofs.Call.Spacing
import Laminate.Proofs.Call.Tokens
import Laminate.Proofs.Call.Words
import Laminate.Proofs.Context.Requests
import Laminate.Proofs.Cursor.Brackets
import Laminate.Proofs.Cursor.Dotted
import Laminate.Proofs.Cursor.Likeness
import Laminate.Proofs.Cursor.Position
import Laminate.Proofs.Cursor.RoundTrip
import Laminate.Proofs.Cursor.Segments
import Laminate.Proofs.Cursor.Spot
import Laminate.Proofs.Cursor.WellFormed
import Laminate.Proofs.Cursor.Wildcards
import Laminate.Proofs.Cursor.Writing
import Laminate.Proofs.Evaluation.AddressOrder
import Laminate.Proofs.Evaluation.Addresses
import Laminate.Proofs.Evaluation.Alike
import Laminate.Proofs.Evaluation.CallRun
import Laminate.Proofs.Evaluation.CallSitesOnly
import Laminate.Proofs.Evaluation.Changes
import Laminate.Proofs.Evaluation.ChangesAgree
import Laminate.Proofs.Evaluation.Commuting
import Laminate.Proofs.Evaluation.Coverage
import Laminate.Proofs.Evaluation.Dereference
import Laminate.Proofs.Evaluation.Filling
import Laminate.Proofs.Evaluation.Grab
import Laminate.Proofs.Evaluation.InjectionOrder
import Laminate.Proofs.Evaluation.InjectionRuns
import Laminate.Proofs.Evaluation.Injections
import Laminate.Proofs.Evaluation.KeyOrder
import Laminate.Proofs.Evaluation.Listing
import Laminate.Proofs.Evaluation.Order
import Laminate.Proofs.Evaluation.Parameters
import Laminate.Proofs.Evaluation.Planning
import Laminate.Proofs.Evaluation.Requests
import Laminate.Proofs.Evaluation.Running
import Laminate.Proofs.Evaluation.SelfReference
import Laminate.Proofs.Evaluation.Settled
import Laminate.Proofs.Evaluation.Steps
import Laminate.Proofs.Evaluation.Undisturbed
import Laminate.Proofs.Merge.Branches
import Laminate.Proofs.Merge.Edits
import Laminate.Proofs.Merge.FailedBranch
import Laminate.Proofs.Merge.Frame
import Laminate.Proofs.Merge.Idempotence
import Laminate.Proofs.Merge.InsertedNames
import Laminate.Proofs.Merge.KeyMerge
import Laminate.Proofs.Merge.KeyOrder
import Laminate.Proofs.Merge.ListAgreement
import Laminate.Proofs.Merge.MergeCalls
import Laminate.Proofs.Merge.NamedPath
import Laminate.Proofs.Merge.PlainData
import Laminate.Proofs.Merge.Precedence
import Laminate.Proofs.Node.Entries
import Laminate.Proofs.Node.Reordered
import Laminate.Proofs.Node.WellFormed
import Laminate.Proofs.Operator.Addresses
import Laminate.Proofs.Operator.Builtin
import Laminate.Proofs.Operator.Claims
import Laminate.Proofs.Operator.Context
import Laminate.Proofs.Operator.Reading
import Laminate.Proofs.Prune.Removal
import Laminate.Proofs.Prune.Repetition
import Laminate.Proofs.Prune.Taking
import Laminate.Proofs.Prune.Without
import Laminate.Proofs.Redaction
import Laminate.Proofs.Schedule.Cycle
import Laminate.Proofs.Schedule.Progress
import Laminate.Proofs.Text.Trim
import Laminate.Proofs.Walk.Budget
import Laminate.Proofs.Walk.CallSites
import Laminate.Proofs.Walk.Discovery
import Laminate.Proofs.Walk.Expansion
import Laminate.Proofs.Walk.Fixpoint
import Laminate.Proofs.Walk.Steps
import Laminate.Proofs.Yaml.Composition
import Laminate.Proofs.Yaml.EventTree
import Laminate.Proofs.Yaml.Presentation
import Laminate.Proofs.Yaml.RoundTrip
import Laminate.Proofs.Yaml.Scalars
import Laminate.Prune
import Laminate.Schedule
import Laminate.Secret
import Laminate.Text.Blank
import Laminate.Text.Indent
import Laminate.Text.Numeral
import Laminate.Text.Printable
import Laminate.Text.Split
import Laminate.Walk.Basic
import Laminate.Walk.Visitors
import Laminate.Yaml.Character
import Laminate.Yaml.Codec
import Laminate.Yaml.Composition
import Laminate.Yaml.Event.Basic
import Laminate.Yaml.Event.Grammar
import Laminate.Yaml.Input
import Laminate.Yaml.Reader
import Laminate.Yaml.Refusal
import Laminate.Yaml.Scalar
import Laminate.Yaml.Standard
import Laminate.Yaml.Token.Basic
import Laminate.Yaml.Token.Block
import Laminate.Yaml.Token.Folding
import Laminate.Yaml.Token.Layout
import Laminate.Yaml.Token.Lexer
import Laminate.Yaml.Token.Plain
import Laminate.Yaml.Token.Property
import Laminate.Yaml.Token.Quoted
import Laminate.Yaml.Writer
