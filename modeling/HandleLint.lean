import HandleLint.Table
import HandleLint.Text.Blank
import HandleLint.Text.Cut
import HandleLint.Source.Span
import HandleLint.Source.LineIndex
import HandleLint.Tree.Basic
import HandleLint.Tree.Order
import HandleLint.Tree.Assembly
import HandleLint.Json.Value
import HandleLint.Json.Reader
import HandleLint.Json.Printer
import HandleLint.Json.Decode
import HandleLint.Tree.Decode
import HandleLint.Tree.Encode
import HandleLint.Names.Signatures
import HandleLint.Names.TypeNames
import HandleLint.Names.Symbol
import HandleLint.Names.Problem
import HandleLint.Names.ScopeTree
import HandleLint.Handles.Creation
import HandleLint.Note
import HandleLint.Config.Resource
import HandleLint.Resolution.Model
import HandleLint.Resolution.Action
import HandleLint.Resolution.Resolver
import HandleLint.Handles.Event
import HandleLint.Handles.HelperGraph
import HandleLint.Handles.Finder
import HandleLint.Rule.Severity
import HandleLint.Lifecycle.Outcome
import HandleLint.Rule.Basic
import HandleLint.Config.Basic
import HandleLint.Rule.Selection
import HandleLint.Lifecycle.Finding
import HandleLint.Report.Basic
import HandleLint.Report.Format
import HandleLint.Lint
import HandleLint.Config.Decode
import HandleLint.Toml.Value
import HandleLint.Toml.Literal
import HandleLint.Toml.Reader
import HandleLint.Config.Toml
import HandleLint.Command.Style
import HandleLint.Command.Disk
import HandleLint.Command.Arguments
import HandleLint.Command.Display
import HandleLint.Command.Check
import HandleLint.Command.Run
import HandleLint.Main
import HandleLint.Proofs.HelperGraph
import HandleLint.Proofs.Classification
import HandleLint.Proofs.Candidates
import HandleLint.Proofs.FinderRun
import HandleLint.Proofs.Occurrence
import HandleLint.Proofs.Releases
import HandleLint.Proofs.Findings
import HandleLint.Proofs.ResolverSteps
import HandleLint.Proofs.LexicalScope
import HandleLint.Proofs.DeclaredMembers
import HandleLint.Proofs.EnvironmentSteps
import HandleLint.Proofs.NameResolution
import HandleLint.Proofs.BodyContents
import HandleLint.Proofs.BodyTraversals
import HandleLint.Proofs.ClassNames
import HandleLint.Proofs.EventNodes
import HandleLint.Proofs.SymbolOrigins
import HandleLint.Proofs.VariablesInScope
import HandleLint.Proofs.Anchors
import HandleLint.Proofs.BodyReplacement
import HandleLint.Proofs.StepFrames
import HandleLint.Proofs.ResolverSimulation
import HandleLint.Proofs.ParallelResolution
import HandleLint.Proofs.AlikeWatches
import HandleLint.Proofs.Noninterference
import HandleLint.Proofs.RuleSelection
import HandleLint.Proofs.JsonText
import HandleLint.Proofs.UnitFiles
import HandleLint.Proofs.ResolvedTables
import HandleLint.Proofs.RelabelledTrees
import HandleLint.Proofs.RelabelledWatches
import HandleLint.Proofs.SymbolLookups
import HandleLint.Proofs.MirroredResolution
import HandleLint.Proofs.NodeNumbers
import HandleLint.Proofs.LineNumbers
import HandleLint.Proofs.ReportOrder
import HandleLint.Proofs.KnownNames
import HandleLint.Proofs.ImportOrder
import HandleLint.Proofs.WildcardImports
import HandleLint.Proofs.RenamedResolution
import HandleLint.Proofs.RenamedVariables
import HandleLint.Proofs.SymbolNames
import HandleLint.Proofs.ReportFiles
import HandleLint.Proofs.ReloadedUnits
import HandleLint.Proofs.CheckedFiles
import HandleLint.Proofs.EnclosingClasses
import HandleLint.Proofs.DeclaredMethods
import HandleLint.Proofs.CallTyping
import HandleLint.Proofs.ReturnedCandidates
import HandleLint.Proofs.Explorations
import HandleLint.Proofs.WrittenTypes
import HandleLint.Proofs.QualifiedNames
import HandleLint.Proofs.ReleaseNames
import HandleLint.Proofs.ScopeOperations
import HandleLint.Proofs.LinePositions
import HandleLint.Proofs.CheckedPositions
import HandleLint.Proofs.Encounters
import HandleLint.Proofs.ResolutionProblems
import HandleLint.Proofs.SearchPaths
import HandleLint.Proofs.AssembledTrees
