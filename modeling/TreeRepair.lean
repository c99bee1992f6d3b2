import TreeRepair.CommandLine.Arguments
import TreeRepair.CommandLine.EnvFile
import TreeRepair.CommandLine.Output
import TreeRepair.CommandLine.Run
import TreeRepair.Config
import TreeRepair.Defect
import TreeRepair.Digest.Blake3
import TreeRepair.Digest.Hash
import TreeRepair.Digest.Hex
import TreeRepair.Digest.Sha256
import TreeRepair.FileTree.Access
import TreeRepair.FileTree.Change
import TreeRepair.FileTree.Listing
import TreeRepair.Filter
import TreeRepair.Glob
import TreeRepair.Glob.Machine
import TreeRepair.Glob.PatternSet
import TreeRepair.Glob.Shape
import TreeRepair.Graph.Analysis
import TreeRepair.Graph.CriticalPath
import TreeRepair.Graph.Cycle
import TreeRepair.Graph.Digraph
import TreeRepair.Graph.ImportGraph
import TreeRepair.Graph.Json
import TreeRepair.Graph.Risk
import TreeRepair.Graph.Role
import TreeRepair.Home
import TreeRepair.Json.Reader
import TreeRepair.Json.Value
import TreeRepair.Key
import TreeRepair.Ledger.Append
import TreeRepair.Ledger.Ledger
import TreeRepair.Ledger.Record
import TreeRepair.Main
import TreeRepair.Parsing.Archive
import TreeRepair.Parsing.Cache
import TreeRepair.Parsing.Host
import TreeRepair.Path
import TreeRepair.Preflight
import TreeRepair.Proofs.FileTree.Access
import TreeRepair.Proofs.FileTree.Entries
import TreeRepair.Proofs.FileTree.Frames
import TreeRepair.Proofs.FileTree.Keys
import TreeRepair.Proofs.FileTree.Making
import TreeRepair.Proofs.FileTree.Pruning
import TreeRepair.Proofs.FileTree.Resolution
import TreeRepair.Proofs.FileTree.Rules
import TreeRepair.Proofs.FileTree.Spelling
import TreeRepair.Proofs.FileTree.Walk
import TreeRepair.Proofs.FileTree.WellFormed
import TreeRepair.Proofs.Graph.Agreement
import TreeRepair.Proofs.Graph.Cycles
import TreeRepair.Proofs.Graph.DepthFirst
import TreeRepair.Proofs.Graph.Distance
import TreeRepair.Proofs.Graph.ImportOrder
import TreeRepair.Proofs.Graph.Mirror
import TreeRepair.Proofs.Graph.Reachability
import TreeRepair.Proofs.Home
import TreeRepair.Proofs.Json.Extension
import TreeRepair.Proofs.Json.RoundTrip
import TreeRepair.Proofs.KeyOrder
import TreeRepair.Proofs.Ledger.Append
import TreeRepair.Proofs.Ledger.Chain
import TreeRepair.Proofs.Ledger.History
import TreeRepair.Proofs.Ledger.Record
import TreeRepair.Proofs.Ledger.Reopening
import TreeRepair.Proofs.Parsing.Archives
import TreeRepair.Proofs.Parsing.Collisions
import TreeRepair.Proofs.Parsing.Host
import TreeRepair.Proofs.Parsing.Reconfiguration
import TreeRepair.Proofs.Parsing.Tiers
import TreeRepair.Proofs.Parsing.Transparency
import TreeRepair.Proofs.Prose.Balance
import TreeRepair.Proofs.Prose.Bytes
import TreeRepair.Proofs.Prose.Comments
import TreeRepair.Proofs.Prose.Extents
import TreeRepair.Proofs.Prose.Placement
import TreeRepair.Proofs.Prose.Runs
import TreeRepair.Proofs.Prose.Scopes
import TreeRepair.Proofs.Prose.Starts
import TreeRepair.Proofs.Repair.Acceptance
import TreeRepair.Proofs.Repair.Accounts
import TreeRepair.Proofs.Repair.Attempt
import TreeRepair.Proofs.Repair.Attributes
import TreeRepair.Proofs.Repair.ImportPlace
import TreeRepair.Proofs.Repair.Pieces
import TreeRepair.Proofs.Repair.Regression
import TreeRepair.Proofs.Repair.RenderImport
import TreeRepair.Proofs.Repair.Templates
import TreeRepair.Proofs.Repair.Truncation
import TreeRepair.Proofs.Snapshot.Aside
import TreeRepair.Proofs.Snapshot.Capture
import TreeRepair.Proofs.Snapshot.Completion
import TreeRepair.Proofs.Snapshot.Confinement
import TreeRepair.Proofs.Snapshot.Copies
import TreeRepair.Proofs.Snapshot.Difference
import TreeRepair.Proofs.Snapshot.Emergency
import TreeRepair.Proofs.Snapshot.Eviction
import TreeRepair.Proofs.Snapshot.Exactness
import TreeRepair.Proofs.Snapshot.Later
import TreeRepair.Proofs.Snapshot.Manifest
import TreeRepair.Proofs.Snapshot.Passage
import TreeRepair.Proofs.Snapshot.Record
import TreeRepair.Proofs.Snapshot.Restoration
import TreeRepair.Proofs.Snapshot.Retention
import TreeRepair.Proofs.Snapshot.Rollback
import TreeRepair.Proofs.Snapshot.Room
import TreeRepair.Proofs.Snapshot.Rules
import TreeRepair.Proofs.Snapshot.Success
import TreeRepair.Proofs.Snapshot.Succession
import TreeRepair.Proofs.Snapshot.Transactions
import TreeRepair.Proofs.Snapshot.Undo
import TreeRepair.Proofs.SortedMap
import TreeRepair.Proofs.Syntax.Cursor
import TreeRepair.Proofs.Syntax.Issues
import TreeRepair.Proofs.Syntax.Joining
import TreeRepair.Proofs.Syntax.Numbering
import TreeRepair.Proofs.Syntax.Parse
import TreeRepair.Proofs.Syntax.Places
import TreeRepair.Proofs.Syntax.Positions
import TreeRepair.Proofs.Syntax.Probing
import TreeRepair.Proofs.Syntax.Specifiers
import TreeRepair.Proofs.Syntax.Traversals
import TreeRepair.Proofs.Text.Boundaries
import TreeRepair.Proofs.Text.Decoding
import TreeRepair.Proofs.Text.Insertions
import TreeRepair.Proofs.Text.Lines
import TreeRepair.Proofs.Text.Splicing
import TreeRepair.Proofs.Workflow.DiskSpace
import TreeRepair.Proofs.Workflow.DryRun
import TreeRepair.Proofs.Workflow.Exclusion
import TreeRepair.Proofs.Workflow.Fix
import TreeRepair.Proofs.Workflow.Order
import TreeRepair.Proofs.Workflow.Preparation
import TreeRepair.Proofs.Workflow.Recovery
import TreeRepair.Proofs.Workflow.Refusal
import TreeRepair.Proofs.Workflow.Repairs
import TreeRepair.Proofs.Workflow.Rewriting
import TreeRepair.Proofs.Workflow.Seclusion
import TreeRepair.Proofs.Workflow.Separation
import TreeRepair.Proofs.Workflow.Sessions
import TreeRepair.Prose
import TreeRepair.Repair.Builtin
import TreeRepair.Repair.Registry
import TreeRepair.Repair.Rule
import TreeRepair.Repair.Template
import TreeRepair.Snapshot.Diff
import TreeRepair.Snapshot.Manifest
import TreeRepair.Snapshot.Rollback
import TreeRepair.Snapshot.Store
import TreeRepair.SortedMap
import TreeRepair.Surroundings
import TreeRepair.Syntax.Arena
import TreeRepair.Syntax.Import
import TreeRepair.Syntax.Json
import TreeRepair.Syntax.Parse
import TreeRepair.Syntax.Pattern
import TreeRepair.Syntax.Recorded
import TreeRepair.Syntax.Table
import TreeRepair.Syntax.Tree
import TreeRepair.Text.Alphanumeric
import TreeRepair.Text.Blank
import TreeRepair.Text.Decimal
import TreeRepair.Text.Edit
import TreeRepair.Text.Lines
import TreeRepair.Text.Utf8
import TreeRepair.Toml.Document
import TreeRepair.Toml.Scalar
import TreeRepair.Workflow.Json
import TreeRepair.Workflow.Report
import TreeRepair.Workflow.Run
import TreeRepair.Workflow.Session
