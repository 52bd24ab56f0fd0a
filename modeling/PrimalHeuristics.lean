import PrimalHeuristics.Collection
import PrimalHeuristics.Console
import PrimalHeuristics.Problem.Builder
import PrimalHeuristics.Report.Error
import PrimalHeuristics.Settings.Text
import PrimalHeuristics.Proofs.Exact
import PrimalHeuristics.Proofs.Feasibility
import PrimalHeuristics.Proofs.Propagation.Runs
import PrimalHeuristics.Proofs.Restriction
import PrimalHeuristics.Proofs.Search.Queue
import PrimalHeuristics.Proofs.Binary64.Order
import PrimalHeuristics.Proofs.Binary64.Rounding
import PrimalHeuristics.Proofs.Collection.CutPhase
import PrimalHeuristics.Proofs.Propagation.Integrality
import PrimalHeuristics.Proofs.Search.Branches
import PrimalHeuristics.Proofs.Search.Cutoff
import PrimalHeuristics.Proofs.Search.IntegerNodes
import PrimalHeuristics.Proofs.Search.Optimality
import PrimalHeuristics.Proofs.Heuristic.Contract
import PrimalHeuristics.Proofs.Heuristic.Reproducible
import PrimalHeuristics.Proofs.Binary64.Nearest
import PrimalHeuristics.Proofs.Binary64.Sums
import PrimalHeuristics.Proofs.Tree
import PrimalHeuristics.Proofs.Collection.Incumbent
import PrimalHeuristics.Proofs.Heuristic.Fixing
import PrimalHeuristics.Proofs.Heuristic.PartialFix
import PrimalHeuristics.Proofs.Search.NodeCap
import PrimalHeuristics.Proofs.Collection.RunNodes
import PrimalHeuristics.Proofs.Heuristic.FixSet
import PrimalHeuristics.Proofs.Proposals
import PrimalHeuristics.Proofs.Collection.Totals
import PrimalHeuristics.Proofs.Binary64.Whole
import PrimalHeuristics.Proofs.Binary64.Large
import PrimalHeuristics.Proofs.Heuristic.Totality
import PrimalHeuristics.Proofs.Heuristic.NodeBounds
import PrimalHeuristics.Proofs.Heuristic.Errors
import PrimalHeuristics.Proofs.Heuristic.CrossedBounds
import PrimalHeuristics.Proofs.Columns
import PrimalHeuristics.Proofs.Heuristic.Cover
import PrimalHeuristics.Proofs.Heuristic.CoverCost
import PrimalHeuristics.Proofs.Json.Numeral
import PrimalHeuristics.Proofs.Json.Quoted
import PrimalHeuristics.Proofs.Json.Reader
import PrimalHeuristics.Proofs.Settings.Text
import PrimalHeuristics.Proofs.Search.TreeSize
import PrimalHeuristics.Proofs.Heuristic.Moves
import PrimalHeuristics.Proofs.Heuristic.Repair
import PrimalHeuristics.Proofs.Propagation.Release
import PrimalHeuristics.Proofs.Heap
import PrimalHeuristics.Proofs.Search.OpenNodes
import PrimalHeuristics.Proofs.Search.Dive
import PrimalHeuristics.Proofs.Search.Partition
import PrimalHeuristics.Proofs.Search.BestBound
import PrimalHeuristics.Proofs.Entries
import PrimalHeuristics.Proofs.Packed
import PrimalHeuristics.Proofs.Builder
import PrimalHeuristics.Proofs.Heuristic.Locks
import PrimalHeuristics.Proofs.Heuristic.Blocking
import PrimalHeuristics.Proofs.Heuristic.Scores
import PrimalHeuristics.Proofs.Heuristic.SafeRounding
import PrimalHeuristics.Proofs.Random.Positions
import PrimalHeuristics.Proofs.Heuristic.FixedColumns
import PrimalHeuristics.Proofs.Settings.Replay
import PrimalHeuristics.Proofs.Binary64.Counts
import PrimalHeuristics.Proofs.Heuristic.Thinning
import PrimalHeuristics.Proofs.Heuristic.Gate
import PrimalHeuristics.Proofs.Heuristic.RoundedPoint
import PrimalHeuristics.Proofs.Heuristic.Phases
