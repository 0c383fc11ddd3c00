import HqlWhere.Calendar.Date
import HqlWhere.Calendar.Fault
import HqlWhere.Calendar.Reading
import HqlWhere.Calendar.Timestamp
import HqlWhere.Calendar.Writing
import HqlWhere.Clause.Basic
import HqlWhere.Clause.Compiler
import HqlWhere.Clause.Conjunction
import HqlWhere.Clause.Fragment
import HqlWhere.Clause.Report
import HqlWhere.Clause.Template
import HqlWhere.Clause.Walk
import HqlWhere.Command.Arguments
import HqlWhere.Command.Failure
import HqlWhere.Command.Help
import HqlWhere.Command.Run
import HqlWhere.Command.Sources
import HqlWhere.Decimal.Binary64
import HqlWhere.Decimal.Notation
import HqlWhere.Decimal.Shortest
import HqlWhere.Distinct
import HqlWhere.Document.Expr
import HqlWhere.Document.Path
import HqlWhere.Document.Predicate
import HqlWhere.Document.Settings
import HqlWhere.Document.Tagged
import HqlWhere.Document.Value
import HqlWhere.Event
import HqlWhere.Expr
import HqlWhere.Expr.Teardown
import HqlWhere.Hashing
import HqlWhere.Json.Basic
import HqlWhere.Json.Brackets
import HqlWhere.Json.Fault
import HqlWhere.Json.Numbers
import HqlWhere.Json.Reader
import HqlWhere.Json.Reading
import HqlWhere.Json.Skip
import HqlWhere.Json.Strings
import HqlWhere.Json.Wanted
import HqlWhere.Json.Writing
import HqlWhere.Main
import HqlWhere.Operator
import HqlWhere.Path
import HqlWhere.Predicate
import HqlWhere.Proofs.Clause.Bindings
import HqlWhere.Proofs.Clause.Collisions
import HqlWhere.Proofs.Clause.Compilation
import HqlWhere.Proofs.Clause.Conjunctions
import HqlWhere.Proofs.Clause.Events
import HqlWhere.Proofs.Clause.Independence
import HqlWhere.Proofs.Clause.Joining
import HqlWhere.Proofs.Clause.Order
import HqlWhere.Proofs.Clause.Parameters
import HqlWhere.Proofs.Clause.Placeholders
import HqlWhere.Proofs.Clause.Places
import HqlWhere.Proofs.Clause.Readability
import HqlWhere.Proofs.Clause.Recursion
import HqlWhere.Proofs.Clause.Refusals
import HqlWhere.Proofs.Clause.Reports
import HqlWhere.Proofs.Clause.SharedNames
import HqlWhere.Proofs.Clause.Skeleton
import HqlWhere.Proofs.Clause.Values
import HqlWhere.Proofs.Command.Help
import HqlWhere.Proofs.Command.Outcomes
import HqlWhere.Proofs.Command.Precedence
import HqlWhere.Proofs.Command.Presentation
import HqlWhere.Proofs.Command.Rewording
import HqlWhere.Proofs.Command.Sources
import HqlWhere.Proofs.Command.Variable
import HqlWhere.Proofs.Command.Wrong
import HqlWhere.Proofs.Decimal.Moderate
import HqlWhere.Proofs.Distinct
import HqlWhere.Proofs.Document.Cutting
import HqlWhere.Proofs.Document.Depth
import HqlWhere.Proofs.Document.Dotted
import HqlWhere.Proofs.Document.Faults
import HqlWhere.Proofs.Document.Integers
import HqlWhere.Proofs.Document.Members
import HqlWhere.Proofs.Document.Operators
import HqlWhere.Proofs.Document.Origins
import HqlWhere.Proofs.Document.Paths
import HqlWhere.Proofs.Document.Raw
import HqlWhere.Proofs.Document.Rewriting
import HqlWhere.Proofs.Document.RoundTrip
import HqlWhere.Proofs.Document.Settings
import HqlWhere.Proofs.Document.Spelled
import HqlWhere.Proofs.Document.Spelling
import HqlWhere.Proofs.Document.Tree
import HqlWhere.Proofs.Document.Value
import HqlWhere.Proofs.Expr.Leafwise
import HqlWhere.Proofs.Expr.Stripping
import HqlWhere.Proofs.Expr.Teardown
import HqlWhere.Proofs.Json.Brackets
import HqlWhere.Proofs.Json.CutNumbers
import HqlWhere.Proofs.Json.Cutting
import HqlWhere.Proofs.Json.Escapes
import HqlWhere.Proofs.Json.Forward
import HqlWhere.Proofs.Json.Grammar
import HqlWhere.Proofs.Json.Integers
import HqlWhere.Proofs.Json.Locality
import HqlWhere.Proofs.Json.Numbers
import HqlWhere.Proofs.Json.Objects
import HqlWhere.Proofs.Json.Readers
import HqlWhere.Proofs.Json.Skipping
import HqlWhere.Proofs.Json.Strings
import HqlWhere.Proofs.Json.Tokens
import HqlWhere.Proofs.Json.Values
import HqlWhere.Proofs.Json.Wanted
import HqlWhere.Proofs.Text.Bytes
import HqlWhere.Proofs.Text.Numerals
import HqlWhere.Proofs.Text.Words
import HqlWhere.Proofs.Uuid
import HqlWhere.Settings
import HqlWhere.Text.Blank
import HqlWhere.Text.Hex
import HqlWhere.Text.Numeral
import HqlWhere.Text.Printable
import HqlWhere.Text.Quoted
import HqlWhere.Text.Terminal
import HqlWhere.Uuid
import HqlWhere.Value
