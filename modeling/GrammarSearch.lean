import GrammarSearch.Arithmetic.Operation
import GrammarSearch.Arithmetic.Regime
import GrammarSearch.Arithmetic.Sample
import GrammarSearch.Binary64.Basic
import GrammarSearch.Binary64.Printer
import GrammarSearch.Binary64.Scaling
import GrammarSearch.Binary64.Shortest
import GrammarSearch.Digest.Domain
import GrammarSearch.Digest.Sha256
import GrammarSearch.Grammar.Basic
import GrammarSearch.Grammar.Error
import GrammarSearch.Grammar.Evaluation
import GrammarSearch.Grammar.Production
import GrammarSearch.Json.Basic
import GrammarSearch.Json.Canonical
import GrammarSearch.Json.Parser
import GrammarSearch.Json.Printer
import GrammarSearch.Json.Token
import GrammarSearch.Keyed
import GrammarSearch.Notice
import GrammarSearch.Program.Basic
import GrammarSearch.Program.Parser
import GrammarSearch.Program.Path
import GrammarSearch.Program.Printer
import GrammarSearch.Program.Token
import GrammarSearch.Proofs.Digest.Content
import GrammarSearch.Proofs.Grammar.Calls
import GrammarSearch.Proofs.Grammar.Computation
import GrammarSearch.Proofs.Grammar.Identity
import GrammarSearch.Proofs.Grammar.Index
import GrammarSearch.Proofs.Grammar.Preparation
import GrammarSearch.Proofs.Grammar.Soundness
import GrammarSearch.Proofs.Grammar.Visits
import GrammarSearch.Proofs.Json.Canonical
import GrammarSearch.Proofs.Json.Decoding
import GrammarSearch.Proofs.Json.Members
import GrammarSearch.Proofs.Json.Strays
import GrammarSearch.Proofs.Lookup
import GrammarSearch.Proofs.Program.Context
import GrammarSearch.Proofs.Program.Editing
import GrammarSearch.Proofs.Program.Expression
import GrammarSearch.Proofs.Program.Identity
import GrammarSearch.Proofs.Program.NormalForm
import GrammarSearch.Proofs.Program.Outcome
import GrammarSearch.Proofs.Program.Preorder
import GrammarSearch.Proofs.Program.RoundTrip
import GrammarSearch.Proofs.Program.Scanning
import GrammarSearch.Proofs.Search.Admission
import GrammarSearch.Proofs.Search.Bounded
import GrammarSearch.Proofs.Search.Budget
import GrammarSearch.Proofs.Search.Conservation
import GrammarSearch.Proofs.Search.CostOrder
import GrammarSearch.Proofs.Search.CostQueue
import GrammarSearch.Proofs.Search.Course
import GrammarSearch.Proofs.Search.Coverage
import GrammarSearch.Proofs.Search.Derivation
import GrammarSearch.Proofs.Search.Enumeration
import GrammarSearch.Proofs.Search.Filling
import GrammarSearch.Proofs.Search.Forgetting
import GrammarSearch.Proofs.Search.Frontiers
import GrammarSearch.Proofs.Search.HoleChecks
import GrammarSearch.Proofs.Search.Images
import GrammarSearch.Proofs.Search.Layout
import GrammarSearch.Proofs.Search.Ledger
import GrammarSearch.Proofs.Search.LevelOrder
import GrammarSearch.Proofs.Search.LevelSearch
import GrammarSearch.Proofs.Search.Levels
import GrammarSearch.Proofs.Search.Memoization
import GrammarSearch.Proofs.Search.ProgramCoverage
import GrammarSearch.Proofs.Search.ProgramTree
import GrammarSearch.Proofs.Search.Rounds
import GrammarSearch.Proofs.Search.Scopes
import GrammarSearch.Proofs.Search.Selection
import GrammarSearch.Proofs.Search.Shortlex
import GrammarSearch.Proofs.Search.Simulation
import GrammarSearch.Proofs.Search.Sizes
import GrammarSearch.Proofs.Search.StableQueue
import GrammarSearch.Proofs.Search.Truncation
import GrammarSearch.Proofs.Search.Typing
import GrammarSearch.Proofs.Search.Unsuppressed
import GrammarSearch.Proofs.Search.Walk
import GrammarSearch.Proofs.Search.WalkCount
import GrammarSearch.Proofs.Text.Reader
import GrammarSearch.Proofs.Ty.Binders
import GrammarSearch.Proofs.Ty.Bindings
import GrammarSearch.Proofs.Ty.Outcome
import GrammarSearch.Proofs.Ty.Reading
import GrammarSearch.Proofs.Ty.RoundTrip
import GrammarSearch.Proofs.Ty.Scanning
import GrammarSearch.Proofs.Ty.Tree
import GrammarSearch.Proofs.Ty.Union
import GrammarSearch.Search.Description
import GrammarSearch.Search.Frontier.Basic
import GrammarSearch.Search.Frontier.BestFirst
import GrammarSearch.Search.Frontier.Costed
import GrammarSearch.Search.Frontier.Fifo
import GrammarSearch.Search.Frontier.Heap
import GrammarSearch.Search.Frontier.Queue
import GrammarSearch.Search.Goal
import GrammarSearch.Search.Graph
import GrammarSearch.Search.Memo
import GrammarSearch.Search.NamedGraph
import GrammarSearch.Search.PartialProgram
import GrammarSearch.Search.Policy
import GrammarSearch.Search.ProgramCost
import GrammarSearch.Search.ProgramGraph
import GrammarSearch.Search.Stats
import GrammarSearch.Search.Strategy
import GrammarSearch.Search.Traversal
import GrammarSearch.Text.Blank
import GrammarSearch.Text.Hidden
import GrammarSearch.Text.Quoted
import GrammarSearch.Ty.Basic
import GrammarSearch.Ty.Environment
import GrammarSearch.Ty.Parser
import GrammarSearch.Ty.Printer
import GrammarSearch.Ty.Scope
import GrammarSearch.Ty.Signature
import GrammarSearch.Ty.Token
