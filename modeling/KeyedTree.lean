import KeyedTree.Bisection
import KeyedTree.Blank
import KeyedTree.Blueprint
import KeyedTree.Change
import KeyedTree.CommandLine.Command
import KeyedTree.CommandLine.Folder
import KeyedTree.CommandLine.Run
import KeyedTree.CommandLine.TreePath
import KeyedTree.Fault
import KeyedTree.Head
import KeyedTree.Json.Basic
import KeyedTree.Json.Bridge
import KeyedTree.Json.Fraction
import KeyedTree.Json.Parser
import KeyedTree.Json.Writer
import KeyedTree.KeyIndex
import KeyedTree.KeyIndex.Lemmas
import KeyedTree.Kind
import KeyedTree.Layout
import KeyedTree.Main
import KeyedTree.Numeral
import KeyedTree.Outline
import KeyedTree.Payload
import KeyedTree.Reader.Basic
import KeyedTree.Reader.Cursor
import KeyedTree.Reader.Defect
import KeyedTree.Reader.Frame
import KeyedTree.Reader.Literal
import KeyedTree.Reader.Quoted
import KeyedTree.Reader.Stack
import KeyedTree.Reader.Stream
import KeyedTree.Script.Action
import KeyedTree.Script.Query
import KeyedTree.Script.Run
import KeyedTree.Tree.Access
import KeyedTree.Tree.Basic
import KeyedTree.Tree.Census
import KeyedTree.Tree.Edit
import KeyedTree.Tree.Survey
import KeyedTree.Workspace.Edit
import KeyedTree.Workspace.Heap
import KeyedTree.Workspace.Place
import KeyedTree.Workspace.Private
import KeyedTree.Workspace.Program
import KeyedTree.Workspace.Shared
import KeyedTree.Proofs.KeyIndex.Naming
import KeyedTree.Proofs.WellFormed.Outline
import KeyedTree.Proofs.WellFormed.Range
import KeyedTree.Proofs.WellFormed.Tree
import KeyedTree.Proofs.WellFormed.Lookup
import KeyedTree.Proofs.WellFormed.Origins
import KeyedTree.Proofs.Heap.Shows
import KeyedTree.Proofs.Heap.Counts
import KeyedTree.Proofs.Heap.Writing
import KeyedTree.Proofs.Workspace.Mirror
import KeyedTree.Proofs.Workspace.Course
import KeyedTree.Proofs.Workspace.Operations
import KeyedTree.Proofs.Workspace.Soundness
import KeyedTree.Proofs.Workspace.Guarding
import KeyedTree.Proofs.Workspace.Safety
import KeyedTree.Proofs.Script.Operations
import KeyedTree.Proofs.WellFormed.Runs
import KeyedTree.Proofs.Workspace.Performing
import KeyedTree.Proofs.Plain.Basic
import KeyedTree.Proofs.Plain.Operations
import KeyedTree.Proofs.Plain.Calls
import KeyedTree.Proofs.Grammar.Basic
import KeyedTree.Proofs.Grammar.Tokens
import KeyedTree.Proofs.Grammar.Containers
import KeyedTree.Proofs.Grammar.Soundness
import KeyedTree.Proofs.Grammar.Completeness
import KeyedTree.Proofs.Grammar.Rendering
import KeyedTree.Proofs.Reader.Outcome
import KeyedTree.Proofs.Reader.Stoppers
import KeyedTree.Proofs.Reader.Lines
import KeyedTree.Proofs.Json.Writing
import KeyedTree.Proofs.Json.Reading
import KeyedTree.Proofs.Json.Bridge
import KeyedTree.Proofs.Json.Writers
import KeyedTree.Proofs.Json.Exports
import KeyedTree.Proofs.Workspace.Sharing
import KeyedTree.Proofs.Workspace.Requests
import KeyedTree.Proofs.Workspace.Watching
import KeyedTree.Proofs.Workspace.Discipline
import KeyedTree.Proofs.Workspace.Openings
import KeyedTree.Proofs.WellFormed.Fields
import KeyedTree.Proofs.Workspace.Agreement
import KeyedTree.Proofs.Script.Minding
import KeyedTree.Proofs.Script.Sharing
import KeyedTree.Proofs.Reader.Pieces
import KeyedTree.Proofs.Reader.LifeCycle
import KeyedTree.Proofs.Reader.Framing
import KeyedTree.Proofs.Reader.KeyOrder
import KeyedTree.Proofs.Reader.Autosort
import KeyedTree.Proofs.Tree.Content
import KeyedTree.Proofs.Tree.Ordered
import KeyedTree.Proofs.WellFormed.Consistency
import KeyedTree.Proofs.Reader.Clean
import KeyedTree.Proofs.CommandLine.Format
import KeyedTree.Proofs.Plain.Sorting
import KeyedTree.Proofs.Plain.Visits
import KeyedTree.Proofs.Workspace.GuardedEdits
import KeyedTree.Proofs.Workspace.Walks
import KeyedTree.Proofs.Tree.Trips
import KeyedTree.Proofs.Workspace.Collisions
import KeyedTree.Proofs.Tree.KeyWrites
import KeyedTree.Proofs.Workspace.EntryWrites
import KeyedTree.Proofs.Script.Refusals
import KeyedTree.Proofs.Plain.Assigning
import KeyedTree.Proofs.Reader.Failures
import KeyedTree.Proofs.Heap.Reach
import KeyedTree.Proofs.Workspace.Holders
import KeyedTree.Proofs.Script.Reading
import KeyedTree.Proofs.Script.Peeking
import KeyedTree.Proofs.Script.Holders
import KeyedTree.Proofs.Workspace.Relocation
import KeyedTree.Proofs.Script.Copies
import KeyedTree.Proofs.Reader.Quotes
import KeyedTree.Proofs.Tree.Tours
import KeyedTree.Proofs.Workspace.Tours
import KeyedTree.Proofs.Tree.Preorder
import KeyedTree.Proofs.Tree.Search
import KeyedTree.Proofs.Json.Offenders
import KeyedTree.Proofs.Tree.Alike
import KeyedTree.Proofs.Tree.Spacing
import KeyedTree.Proofs.Tree.Counting
import KeyedTree.Proofs.CommandLine.Paths
import KeyedTree.Proofs.Reader.Stack
import KeyedTree.Proofs.Reader.Dispatch
import KeyedTree.Proofs.WellFormed.Upkeep
