import PegScript.CommandLine
import PegScript.Compile.Compilation
import PegScript.Grammar.Build
import PegScript.Main
import PegScript.Text.LineMap
import PegScript.Proofs.Language.Bindings
import PegScript.Proofs.Language.Chains
import PegScript.Proofs.Language.TrailingLayout
import PegScript.Proofs.Language.WellFormed
import PegScript.Proofs.Language.Operands
import PegScript.Proofs.Language.Precedence
import PegScript.Proofs.Language.Sentences
import PegScript.Proofs.JavaScript.RoundTrip
import PegScript.Proofs.JavaScript.Emitter
import PegScript.Proofs.JavaScript.Effects
import PegScript.Proofs.Compile.Failures
import PegScript.Proofs.JavaScript.Helpers
import PegScript.Proofs.JavaScript.Scanner
import PegScript.Proofs.JavaScript.Balance
import PegScript.Proofs.Text.LineMap
import PegScript.Proofs.Tree.Replace
import PegScript.Proofs.JavaScript.Rebinding
import PegScript.Proofs.Semantics.Runs
import PegScript.Proofs.Semantics.Evaluations
import PegScript.Proofs.Semantics.Safety
import PegScript.Proofs.Semantics.Reentry
import PegScript.Proofs.Semantics.MemoBound
import PegScript.Proofs.Semantics.Rejections
import PegScript.Proofs.Semantics.RunValues
import PegScript.Proofs.Language.Kinds
import PegScript.Proofs.Language.RuleKinds
import PegScript.Proofs.Language.ValueTyping
import PegScript.Proofs.Tree.Containment
import PegScript.Proofs.JavaScript.AwaitSearch
import PegScript.Proofs.Failure.Furthest
import PegScript.Proofs.Semantics.Growth
import PegScript.Proofs.Semantics.Limit
import PegScript.Proofs.Semantics.NamedFailures
import PegScript.Proofs.Semantics.Shadow
import PegScript.Proofs.Semantics.ListedTable
import PegScript.Proofs.Semantics.Retries
import PegScript.Proofs.Language.NestingLimit
import PegScript.Proofs.Semantics.Simulation
import PegScript.Proofs.Semantics.Annotations
import PegScript.Proofs.Semantics.CallForest
import PegScript.Proofs.Semantics.WrittenTrace
import PegScript.Proofs.Semantics.Replay
import PegScript.Proofs.JavaScript.Marks
import PegScript.Proofs.JavaScript.Temporaries
import PegScript.Proofs.Semantics.Depth
import PegScript.Proofs.Semantics.Spans
import PegScript.Proofs.Language.Numbers
import PegScript.Proofs.Tree.Scopes
import PegScript.Proofs.JavaScript.Defects
import PegScript.Proofs.JavaScript.Landmarks
import PegScript.Proofs.JavaScript.Hoisting
import PegScript.Proofs.JavaScript.LineBreaks
import PegScript.Proofs.JavaScript.Templates
import PegScript.Proofs.JavaScript.NumberValues
import PegScript.Proofs.Language.Identifiers
import PegScript.Proofs.Failure.Series
import PegScript.Proofs.Language.SyntaxErrors
import PegScript.Proofs.Language.Lists
import PegScript.Proofs.Failure.Pointer
import PegScript.Proofs.Grammar.Building
import PegScript.Proofs.Grammar.Classes
import PegScript.Proofs.Semantics.StackEngine
import PegScript.Proofs.Semantics.Termination
import PegScript.Proofs.JavaScript.Bookkeeping
