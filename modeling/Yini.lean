import Yini.Arithmetic
import Yini.Compile.Batch
import Yini.Compile.Compiler
import Yini.Compile.Include
import Yini.Compile.Options
import Yini.Compile.Workers
import Yini.Document.Basic
import Yini.Document.Text
import Yini.Dyna.Context
import Yini.Dyna.Evaluator
import Yini.Dyna.Machine
import Yini.Dyna.Program
import Yini.Dyna.Sharing
import Yini.Dyna.Tree
import Yini.Editor
import Yini.Fault.Basic
import Yini.Fault.Report
import Yini.FileTree.Basic
import Yini.FileTree.Source
import Yini.Grammar.Checked
import Yini.Grammar.Document
import Yini.Grammar.Expression
import Yini.Grammar.Parser
import Yini.Grammar.Rule
import Yini.Json.Basic
import Yini.Json.Export
import Yini.Json.Reader
import Yini.Number.Binary32
import Yini.Number.Decimal
import Yini.Number.Extended
import Yini.Number.Shortest
import Yini.Path
import Yini.Proofs.Arithmetic
import Yini.Proofs.CanonicalPath
import Yini.Proofs.Compile.Compiled
import Yini.Proofs.Compile.Include
import Yini.Proofs.Compile.Labels
import Yini.Proofs.Compile.Opened
import Yini.Proofs.Compile.Reincluded
import Yini.Proofs.Compile.Reprinted
import Yini.Proofs.Compile.Resolved
import Yini.Proofs.Compile.Workers
import Yini.Proofs.Document
import Yini.Proofs.Dyna.Argument
import Yini.Proofs.Dyna.Capacity
import Yini.Proofs.Dyna.Folding
import Yini.Proofs.Dyna.Integers
import Yini.Proofs.Dyna.Lowering
import Yini.Proofs.Dyna.Nameless
import Yini.Proofs.Dyna.Sharing
import Yini.Proofs.Editor
import Yini.Proofs.Grammar.Built
import Yini.Proofs.Grammar.Calls
import Yini.Proofs.Grammar.Contents
import Yini.Proofs.Grammar.DocumentText
import Yini.Proofs.Grammar.Factor
import Yini.Proofs.Grammar.Height
import Yini.Proofs.Grammar.Inside
import Yini.Proofs.Grammar.Joined
import Yini.Proofs.Grammar.Labels
import Yini.Proofs.Grammar.Legible
import Yini.Proofs.Grammar.Marks
import Yini.Proofs.Grammar.Numerals
import Yini.Proofs.Grammar.Origin
import Yini.Proofs.Grammar.Pace
import Yini.Proofs.Grammar.Phrase
import Yini.Proofs.Grammar.Precedence
import Yini.Proofs.Grammar.Printing
import Yini.Proofs.Grammar.Reading
import Yini.Proofs.Grammar.RuleText
import Yini.Proofs.Grammar.Run
import Yini.Proofs.Grammar.Sections
import Yini.Proofs.Grammar.ValueText
import Yini.Proofs.History
import Yini.Proofs.Merge
import Yini.Proofs.Number.Order
import Yini.Proofs.Number.ReadBack
import Yini.Proofs.Number.Rounding
import Yini.Proofs.Outcome
import Yini.Proofs.Patch
import Yini.Proofs.Path
import Yini.Proofs.Place
import Yini.Proofs.Resolve.Again
import Yini.Proofs.Resolve.Cycles
import Yini.Proofs.Resolve.Descent
import Yini.Proofs.Resolve.Equations
import Yini.Proofs.Resolve.Graph
import Yini.Proofs.Resolve.Interrupted
import Yini.Proofs.Resolve.Invariant
import Yini.Proofs.Resolve.Legible
import Yini.Proofs.Resolve.Meaning
import Yini.Proofs.Resolve.Plain
import Yini.Proofs.Resolve.Reordered
import Yini.Proofs.Resolve.Run
import Yini.Proofs.Resolve.State
import Yini.Proofs.Resolve.Whole
import Yini.Proofs.Schema.Validation
import Yini.Proofs.Table
import Yini.Proofs.Token.Gap
import Yini.Proofs.Token.Joining
import Yini.Proofs.Token.Position
import Yini.Proofs.Token.Printing
import Yini.Proofs.Token.Spelling
import Yini.Proofs.Token.Word
import Yini.Proofs.Value
import Yini.Proofs.Ybin.Accepted
import Yini.Proofs.Ybin.Cache
import Yini.Proofs.Ybin.Form
import Yini.Proofs.Ybin.Nesting
import Yini.Proofs.Ybin.Parsed
import Yini.Proofs.Ybin.Reading
import Yini.Proofs.Ybin.RoundTrip
import Yini.Proofs.Ybin.Writing
import Yini.Resolve.Document
import Yini.Resolve.Providers
import Yini.Schema.Check
import Yini.Schema.Type
import Yini.Source
import Yini.Table
import Yini.Text.Alphabetic
import Yini.Text.CharClass
import Yini.Text.Numeric
import Yini.Text.Utf8
import Yini.Token.Basic
import Yini.Token.Lexer
import Yini.Value.Basic
import Yini.Value.Equality
import Yini.Value.Text
import Yini.Ybin.Decode
import Yini.Ybin.Encode
import Yini.Ybin.Layout
import Yini.Ybin.Nesting
