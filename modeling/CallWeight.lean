import CallWeight.Analysis
import CallWeight.CallGraph.Basic
import CallWeight.CallGraph.Build
import CallWeight.CallGraph.Components
import CallWeight.CallGraph.Summary
import CallWeight.CommandLine.FileTree
import CallWeight.CommandLine.PathName
import CallWeight.CommandLine.Request
import CallWeight.CommandLine.Run
import CallWeight.CommandLine.Words
import CallWeight.Config.Basic
import CallWeight.Config.Document
import CallWeight.Cost.Ledger
import CallWeight.Cost.Propagation
import CallWeight.Cost.Record
import CallWeight.Cost.Store
import CallWeight.Decimal.Binary64
import CallWeight.Decimal.Shortest
import CallWeight.Dispatch.Augmentation
import CallWeight.Dispatch.Entries
import CallWeight.Dispatch.Rule
import CallWeight.DocumentFile
import CallWeight.Fault
import CallWeight.FileError
import CallWeight.Inspection
import CallWeight.Issue
import CallWeight.Json.Basic
import CallWeight.Json.Literal
import CallWeight.Json.Order
import CallWeight.Json.Reader
import CallWeight.Json.Writer
import CallWeight.Log
import CallWeight.Loop.Basic
import CallWeight.Loop.Flow
import CallWeight.Loop.Natural
import CallWeight.Main
import CallWeight.OrderedMap
import CallWeight.Program.Basic
import CallWeight.Program.Description
import CallWeight.Program.Hierarchy
import CallWeight.Program.Procedure
import CallWeight.Program.Signature
import CallWeight.Program.Statement
import CallWeight.Release
import CallWeight.Report
import CallWeight.Session.Basic
import CallWeight.Session.Step
import CallWeight.Text.Basic
import CallWeight.Text.Blank
import CallWeight.Text.Digit
import CallWeight.Text.Integer
import CallWeight.Text.Printable
import CallWeight.Text.Quoted
import CallWeight.Text.Split
import CallWeight.Unmet
import CallWeight.Proofs.GraphIndex
import CallWeight.Proofs.ComponentSearch
import CallWeight.Proofs.Components
import CallWeight.Proofs.PlainRecursion
import CallWeight.Proofs.Computation
import CallWeight.Proofs.Lists
import CallWeight.Proofs.Programs
import CallWeight.Proofs.Inspections
import CallWeight.Proofs.GraphOrigin
import CallWeight.Proofs.AnalysisPhases
import CallWeight.Proofs.LocalCosts
import CallWeight.Proofs.PropagationSteps
import CallWeight.Proofs.Accounts
import CallWeight.Proofs.CostBounds
import CallWeight.Proofs.Returning
import CallWeight.Proofs.WalkSums
import CallWeight.Proofs.DeadCode
import CallWeight.Proofs.DocumentTypes
import CallWeight.Proofs.Dominance
import CallWeight.Proofs.LoopNests
import CallWeight.Proofs.Answers
import CallWeight.Proofs.BatchRuns
import CallWeight.Proofs.CallSites
import CallWeight.Proofs.AugmentationWalk
import CallWeight.Proofs.LostEdges
import CallWeight.Proofs.LoadedPrograms
import CallWeight.Proofs.DispatchTargets
import CallWeight.Proofs.DispatchEdges
import CallWeight.Proofs.Recursion
import CallWeight.Proofs.LoopDepth
import CallWeight.Proofs.NaturalNests
import CallWeight.Proofs.Leaves
import CallWeight.Proofs.PropagationEvents
import CallWeight.Proofs.Reordering
import CallWeight.Proofs.DeclaredEdges
import CallWeight.Proofs.AugmentationIssues
import CallWeight.Proofs.StoreKeys
import CallWeight.Proofs.ClassReading
import CallWeight.Proofs.ReorderedDocuments
import CallWeight.Proofs.AnalysisContents
import CallWeight.Proofs.OrderIndependence
import CallWeight.Proofs.Monotonicity
import CallWeight.Proofs.PackagePrefixes
import CallWeight.Proofs.Views
import CallWeight.Proofs.ViewedAugmentation
import CallWeight.Proofs.ViewedAnalysis
import CallWeight.Proofs.LibraryBodies
import CallWeight.Proofs.CallSpellings
import CallWeight.Proofs.MalformedInput
import CallWeight.Proofs.LoopRecovery
import CallWeight.Proofs.LoopChains
import CallWeight.Proofs.AssembledPrograms
import CallWeight.Proofs.StatementEdges
import CallWeight.Proofs.RepeatedAugmentation
import CallWeight.Proofs.KeptCosts
import CallWeight.Proofs.Reruns
import CallWeight.Proofs.GraphViews
import CallWeight.Proofs.FiledRecords
import CallWeight.Proofs.Ranking
import CallWeight.Proofs.ClassLinks
import CallWeight.Proofs.RunnableDiscovery
import CallWeight.Proofs.LostMethods
