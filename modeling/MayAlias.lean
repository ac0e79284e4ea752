import MayAlias.AdaptiveSet
import MayAlias.Alias.Answer
import MayAlias.Alias.Query
import MayAlias.Analysis.Facts
import MayAlias.Analysis.Problem
import MayAlias.Analysis.Result
import MayAlias.BitSet
import MayAlias.Cfg
import MayAlias.Cfg.Load
import MayAlias.Command
import MayAlias.Decimal.Binary
import MayAlias.Decimal.Shortest
import MayAlias.DenseIndex
import MayAlias.Effect
import MayAlias.FileTree
import MayAlias.FinMap
import MayAlias.Flow
import MayAlias.Graph
import MayAlias.Host
import MayAlias.Json.Print
import MayAlias.Json.Scan
import MayAlias.Json.Value
import MayAlias.Main
import MayAlias.Options
import MayAlias.Options.Arguments
import MayAlias.Procedure
import MayAlias.Procedure.Json
import MayAlias.Report.Dot
import MayAlias.Report.Facts
import MayAlias.Report.Inspect
import MayAlias.Report.PointsTo
import MayAlias.Report.Statistics
import MayAlias.Session
import MayAlias.Site
import MayAlias.Sorting
import MayAlias.Statement
import MayAlias.Statement.Json
import MayAlias.Summary
import MayAlias.Text.Blank
import MayAlias.Text.Lines
import MayAlias.Text.Order
import MayAlias.Proofs.BitSet
import MayAlias.Proofs.BitWalk
import MayAlias.Proofs.BitWalkPlaces
import MayAlias.Proofs.AdaptiveSet
import MayAlias.Proofs.FinMap
import MayAlias.Proofs.Graph
import MayAlias.Proofs.Effect
import MayAlias.Proofs.Problem
import MayAlias.Proofs.Passes
import MayAlias.Proofs.LeastSolution
import MayAlias.Proofs.PassBound
import MayAlias.Proofs.AliasAnswers
import MayAlias.Proofs.Reachability
import MayAlias.Proofs.Acceptance
import MayAlias.Proofs.Coherence
import MayAlias.Proofs.JoinLaws
import MayAlias.Proofs.Relabelling
import MayAlias.Proofs.ProgramOrder
import MayAlias.Proofs.SetScript
import MayAlias.Proofs.BitSetScript
import MayAlias.Proofs.AdaptiveSetScript
import MayAlias.Proofs.Provenance
import MayAlias.Proofs.Congruence
import MayAlias.Proofs.Frame
import MayAlias.Proofs.Monotonicity
import MayAlias.Proofs.JsonWords
import MayAlias.Proofs.JsonShapes
import MayAlias.Proofs.ProcedureText
import MayAlias.Proofs.Ascent
import MayAlias.Proofs.Stopping
import MayAlias.Proofs.Cfg
import MayAlias.Proofs.ForwardFlow
import MayAlias.Proofs.AnswerOrder
import MayAlias.Proofs.JsonGrammar
import MayAlias.Proofs.StatementText
import MayAlias.Proofs.JsonBounds
import MayAlias.Proofs.JsonCuts
import MayAlias.Proofs.Truncation
import MayAlias.Proofs.Build
import MayAlias.Proofs.QueryText
import MayAlias.Proofs.Interning
import MayAlias.Proofs.Arguments
import MayAlias.Proofs.OptionCalls
import MayAlias.Proofs.OptionGroups
import MayAlias.Proofs.NameOrder
import MayAlias.Proofs.SortedViews
import MayAlias.Proofs.Drawings
import MayAlias.Proofs.Reports
import MayAlias.Proofs.Lines
import MayAlias.Proofs.FactsLayout
