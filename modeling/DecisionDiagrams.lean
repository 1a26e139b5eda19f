import DecisionDiagrams.Cache.Fifo
import DecisionDiagrams.Cli.Commands
import DecisionDiagrams.Cli.Flags
import DecisionDiagrams.Config.Basic
import DecisionDiagrams.Config.Level
import DecisionDiagrams.Diagram.Assignment
import DecisionDiagrams.Diagram.Auto
import DecisionDiagrams.Diagram.Basic
import DecisionDiagrams.Diagram.Build
import DecisionDiagrams.Diagram.Kind
import DecisionDiagrams.Diagram.Present
import DecisionDiagrams.Failure
import DecisionDiagrams.Formula.Parser
import DecisionDiagrams.Formula.Syntax
import DecisionDiagrams.Formula.Token
import DecisionDiagrams.Http.Request
import DecisionDiagrams.Http.Router
import DecisionDiagrams.Json.Basic
import DecisionDiagrams.Json.Read
import DecisionDiagrams.Kernel.Apply
import DecisionDiagrams.Kernel.Basic
import DecisionDiagrams.Kernel.Cache
import DecisionDiagrams.Kernel.Fault
import DecisionDiagrams.Kernel.Print
import DecisionDiagrams.Kernel.Query
import DecisionDiagrams.Main
import DecisionDiagrams.Order.Basic
import DecisionDiagrams.Order.Sift
import DecisionDiagrams.Proofs.ManualOrder
import DecisionDiagrams.Proofs.KernelTable
import DecisionDiagrams.Proofs.KernelMemo
import DecisionDiagrams.Proofs.KernelSteps
import DecisionDiagrams.Proofs.CacheSoundness
import DecisionDiagrams.Proofs.OrderedTable
import DecisionDiagrams.Proofs.NodeFunctions
import DecisionDiagrams.Proofs.Compilation
import DecisionDiagrams.Proofs.Lexing
import DecisionDiagrams.Proofs.Parsing
import DecisionDiagrams.Proofs.SimplifierState
import DecisionDiagrams.Proofs.Support
import DecisionDiagrams.Service
import DecisionDiagrams.Simplify.Cover
import DecisionDiagrams.Simplify.Engine
import DecisionDiagrams.Simplify.Render
import DecisionDiagrams.Text.Columns
import DecisionDiagrams.Text.Fields
import DecisionDiagrams.Text.Printable
import DecisionDiagrams.Text.Quoted
import DecisionDiagrams.Text.Utf8
import DecisionDiagrams.Yaml.Token
import DecisionDiagrams.Yaml.Scanner
import DecisionDiagrams.Yaml.Number
import DecisionDiagrams.Yaml.Timestamp
import DecisionDiagrams.Yaml.Resolve
import DecisionDiagrams.Yaml.Compose
import DecisionDiagrams.Yaml.Decode
import DecisionDiagrams.Text.Case
import DecisionDiagrams.Proofs.PrimeCover
import DecisionDiagrams.Proofs.Canonicity
import DecisionDiagrams.Proofs.Unlimited
import DecisionDiagrams.Proofs.TruePaths
import DecisionDiagrams.Proofs.NormalForms
import DecisionDiagrams.Proofs.Covers
import DecisionDiagrams.Proofs.Rendering
import DecisionDiagrams.Proofs.Sessions
import DecisionDiagrams.Proofs.DecisionGraphs
import DecisionDiagrams.Proofs.Arenas
import DecisionDiagrams.Proofs.BuildEngine
import DecisionDiagrams.Proofs.SettledArenas
import DecisionDiagrams.Proofs.ExpandingArenas
import DecisionDiagrams.Proofs.DecisionTrees
import DecisionDiagrams.Proofs.Layers
import DecisionDiagrams.Proofs.FifoEntries
import DecisionDiagrams.Proofs.StateEffects
import DecisionDiagrams.Proofs.DiagramFormula
import DecisionDiagrams.Proofs.ServiceCache
import DecisionDiagrams.Proofs.Numbering
import DecisionDiagrams.Proofs.Presentations
import DecisionDiagrams.Proofs.NodeLimit
import DecisionDiagrams.Proofs.BuildFailures
import DecisionDiagrams.Proofs.CoherentDiagrams
import DecisionDiagrams.Proofs.ReducedDiagrams
import DecisionDiagrams.Proofs.GradedTables
import DecisionDiagrams.Proofs.TableOperations
import DecisionDiagrams.Proofs.DiagramBuilds
import DecisionDiagrams.Proofs.FreshArenas
import DecisionDiagrams.Proofs.DiagramIdentifiers
import DecisionDiagrams.Proofs.Grammar
import DecisionDiagrams.Proofs.ModelCounting
import DecisionDiagrams.Proofs.SatisfyingCubes
import DecisionDiagrams.Proofs.DiagramModels
import DecisionDiagrams.Proofs.Highlights
import DecisionDiagrams.Proofs.TableGraphs
import DecisionDiagrams.Proofs.BreadthFirstWalks
import DecisionDiagrams.Proofs.DeclaredLevels
import DecisionDiagrams.Proofs.TreeReductions
import DecisionDiagrams.Proofs.Identifiers
import DecisionDiagrams.Proofs.SiftMemory
import DecisionDiagrams.Proofs.SiftPasses
import DecisionDiagrams.Proofs.SiftRuns
import DecisionDiagrams.Proofs.TreeGraphs
import DecisionDiagrams.Proofs.BuildSizes
import DecisionDiagrams.Proofs.AutoOrders
import DecisionDiagrams.Proofs.SiftResults
import DecisionDiagrams.Proofs.Declarations
import DecisionDiagrams.Proofs.EngineFailures
import DecisionDiagrams.Proofs.AcyclicBuilds
import DecisionDiagrams.Proofs.StepNumbering
import DecisionDiagrams.Proofs.StickyFaults
import DecisionDiagrams.Proofs.SyntaxErrors
import DecisionDiagrams.Proofs.WholeArenas
import DecisionDiagrams.Proofs.InstalledBuilds
import DecisionDiagrams.Proofs.ViewContents
import DecisionDiagrams.Proofs.ShiftedBuilds
import DecisionDiagrams.Proofs.NodeTexts
import DecisionDiagrams.Proofs.EssentialSupport
import DecisionDiagrams.Proofs.AssignmentTexts
import DecisionDiagrams.Proofs.PrimeImplicants
