import TaintFlow.AccessPath
import TaintFlow.Analysis.Analyze
import TaintFlow.Analysis.Coupled
import TaintFlow.Error
import TaintFlow.Fact
import TaintFlow.Findings
import TaintFlow.Findings.Recorder
import TaintFlow.Flow.Aliasing
import TaintFlow.Flow.Backward
import TaintFlow.Flow.Forward
import TaintFlow.Flow.Reaction
import TaintFlow.Grouping
import TaintFlow.Model.Classifier
import TaintFlow.Model.Library
import TaintFlow.Model.Native
import TaintFlow.Program.Builder
import TaintFlow.Program.Graph
import TaintFlow.Program.Stmt
import TaintFlow.Program.Value
import TaintFlow.Settings.Basic
import TaintFlow.Settings.Document
import TaintFlow.Signature
import TaintFlow.Signature.ByClass
import TaintFlow.Tabulation.FlowTable
import TaintFlow.Tabulation.Index
import TaintFlow.Tabulation.Problem
import TaintFlow.Tabulation.Solve
import TaintFlow.Tabulation.State
import TaintFlow.Text.Space
import TaintFlow.Yaml.Cursor
import TaintFlow.Yaml.Node
import TaintFlow.Yaml.Scalar
import TaintFlow.Yaml.Tag
import TaintFlow.Yaml.Token
import TaintFlow.Yaml.Typed
import TaintFlow.Proofs.AccessPath
import TaintFlow.Proofs.Model.Native
import TaintFlow.Proofs.Run
import TaintFlow.Proofs.Tabulation.Owed
import TaintFlow.Proofs.Program.Built
import TaintFlow.Proofs.Tabulation.Work
import TaintFlow.Proofs.Tabulation.Invariant
import TaintFlow.Proofs.Tabulation.Closure
import TaintFlow.Proofs.Tabulation.ValidPaths
import TaintFlow.Proofs.Analysis.Coupled
import TaintFlow.Proofs.Analysis.FixedPoint
import TaintFlow.Proofs.Analysis.Batching
import TaintFlow.Proofs.Program.Mentions
import TaintFlow.Proofs.Analysis.Confinement
import TaintFlow.Proofs.Flow.Derivation
import TaintFlow.Proofs.Analysis.Termination
import TaintFlow.Proofs.Analysis.Callless
import TaintFlow.Proofs.Analysis.LocalFlows
import TaintFlow.Proofs.Analysis.CopiedAliases
import TaintFlow.Proofs.Flow.RoundTrip
import TaintFlow.Proofs.Tabulation.Unbalanced
import TaintFlow.Proofs.Analysis.CallSinks
import TaintFlow.Proofs.Flow.Correspondence
import TaintFlow.Proofs.Analysis.Simulation
import TaintFlow.Proofs.Analysis.Truncation
import TaintFlow.Proofs.Program.Insertion
import TaintFlow.Proofs.Analysis.ActivationUnits
import TaintFlow.Proofs.Analysis.NopInsertion
import TaintFlow.Proofs.Analysis.Laws
import TaintFlow.Proofs.Flow.Descent
import TaintFlow.Proofs.Analysis.Phases
import TaintFlow.Proofs.Analysis.Provenance
import TaintFlow.Proofs.Tabulation.LockStep
import TaintFlow.Proofs.Analysis.Erasure
import TaintFlow.Proofs.Analysis.Scope
import TaintFlow.Proofs.Program.Description
import TaintFlow.Proofs.Program.Realization
import TaintFlow.Proofs.Analysis.Safety
import TaintFlow.Proofs.Analysis.EarlyStop
import TaintFlow.Proofs.Tabulation.Updates
import TaintFlow.Proofs.Tabulation.Accounting
import TaintFlow.Proofs.Analysis.PropagationCap
import TaintFlow.Proofs.Flow.CellTracking
import TaintFlow.Proofs.Flow.PathLanguage
import TaintFlow.Proofs.Flow.Activation
import TaintFlow.Proofs.Flow.StrongUpdate
import TaintFlow.Proofs.Flow.ListedCalls
import TaintFlow.Proofs.Text.Space
import TaintFlow.Proofs.Signature.Grammar
import TaintFlow.Proofs.Signature.Printing
import TaintFlow.Proofs.Model.ListedMethods
import TaintFlow.Proofs.Program.Binding
import TaintFlow.Proofs.Program.Acceptance
import TaintFlow.Proofs.Grouping
import TaintFlow.Proofs.Signature.ByClass
import TaintFlow.Proofs.Findings.Recorder
import TaintFlow.Proofs.Yaml.Decimal
import TaintFlow.Proofs.Yaml.Lines
import TaintFlow.Proofs.Yaml.BlockMapping
import TaintFlow.Proofs.Settings.RoundTrip
