import ClauseLearning.Assignment
import ClauseLearning.Board
import ClauseLearning.CommandLine.Arguments
import ClauseLearning.CommandLine.Directory
import ClauseLearning.CommandLine.Run
import ClauseLearning.Conflict.Analysis
import ClauseLearning.Conflict.Core
import ClauseLearning.Conflict.Minimisation
import ClauseLearning.Constraint.Arena
import ClauseLearning.Constraint.Basic
import ClauseLearning.Constraint.Cardinality
import ClauseLearning.Constraint.Clause
import ClauseLearning.Constraint.Description
import ClauseLearning.Constraint.Normal
import ClauseLearning.Constraint.Parity
import ClauseLearning.Custom.AllEqual
import ClauseLearning.Custom.AtMostOne
import ClauseLearning.Custom.Catalogue
import ClauseLearning.Custom.LazyClause
import ClauseLearning.Custom.Script
import ClauseLearning.Decimal.Shortest
import ClauseLearning.Decimal.Text
import ClauseLearning.Decision.Order
import ClauseLearning.Decision.Phase
import ClauseLearning.Dimacs.Error
import ClauseLearning.Dimacs.Header
import ClauseLearning.Dimacs.Reader
import ClauseLearning.Engine.Basic
import ClauseLearning.Engine.Event
import ClauseLearning.Engine.Solve
import ClauseLearning.Engine.State
import ClauseLearning.Fault
import ClauseLearning.Formula.Basic
import ClauseLearning.Generator
import ClauseLearning.Implicant.Basic
import ClauseLearning.Implicant.CounterBased
import ClauseLearning.Implicant.Quadratic
import ClauseLearning.Implicant.Requirement
import ClauseLearning.Implicant.WatcherBased
import ClauseLearning.Learned.Database
import ClauseLearning.Learned.Deletion
import ClauseLearning.Learned.Lbd
import ClauseLearning.Literal
import ClauseLearning.LiteralTable
import ClauseLearning.Main
import ClauseLearning.Options
import ClauseLearning.PriorityHeap
import ClauseLearning.Race.Basic
import ClauseLearning.Race.Podium
import ClauseLearning.Restart.Average
import ClauseLearning.Restart.Interval
import ClauseLearning.Restart.Policy
import ClauseLearning.Restart.Timer
import ClauseLearning.Session.Basic
import ClauseLearning.Session.Constraints
import ClauseLearning.Session.Query
import ClauseLearning.Statistics.Basic
import ClauseLearning.Termination
import ClauseLearning.Text.Case
import ClauseLearning.Text.CaseMapping
import ClauseLearning.Text.Cased
import ClauseLearning.Text.CharSet
import ClauseLearning.Text.Cluster
import ClauseLearning.Text.Words
import ClauseLearning.Valuation
import ClauseLearning.Violation
import ClauseLearning.Word
import ClauseLearning.Proofs.Explanation
import ClauseLearning.Proofs.Watching
import ClauseLearning.Proofs.Decisions
import ClauseLearning.Proofs.Settling
import ClauseLearning.Proofs.Visiting
import ClauseLearning.Proofs.Invariant
import ClauseLearning.Proofs.Propagation
import ClauseLearning.Proofs.Closure
import ClauseLearning.Proofs.Backtracking
import ClauseLearning.Proofs.Admission
import ClauseLearning.Proofs.Deletion
import ClauseLearning.Proofs.NormalForms
import ClauseLearning.Proofs.Reduced
import ClauseLearning.Proofs.Resolution
import ClauseLearning.Proofs.Shrinking
import ClauseLearning.Proofs.Analysis
import ClauseLearning.Proofs.Assumptions
import ClauseLearning.Proofs.Learning
import ClauseLearning.Proofs.Deciding
import ClauseLearning.Proofs.Starting
import ClauseLearning.Proofs.Fixpoint
import ClauseLearning.Proofs.Searching
import ClauseLearning.Proofs.Addition
import ClauseLearning.Proofs.Calls
import ClauseLearning.Proofs.Counting
import ClauseLearning.Proofs.Tallies
import ClauseLearning.Proofs.Rebuilding
import ClauseLearning.Proofs.Sessions
import ClauseLearning.Proofs.Attaching
import ClauseLearning.Proofs.Answers
import ClauseLearning.Proofs.Refusals
import ClauseLearning.Proofs.Interruptions
import ClauseLearning.Proofs.Asserting
import ClauseLearning.Proofs.Dropping
import ClauseLearning.Proofs.Implicants
import ClauseLearning.Proofs.Greedy
import ClauseLearning.Proofs.Minimality
import ClauseLearning.Proofs.Listeners
import ClauseLearning.Proofs.Priorities
import ClauseLearning.Proofs.HeapBounds
import ClauseLearning.Proofs.HeapOrder
import ClauseLearning.Proofs.Formulas
import ClauseLearning.Proofs.Racing
import ClauseLearning.Proofs.Handles
import ClauseLearning.Proofs.Turns
import ClauseLearning.Proofs.Accounting
import ClauseLearning.Proofs.Levels
import ClauseLearning.Proofs.Tables
import ClauseLearning.Proofs.Progress
import ClauseLearning.Proofs.Moments
import ClauseLearning.Proofs.Running
import ClauseLearning.Proofs.Standing
import ClauseLearning.Proofs.Traces
import ClauseLearning.Proofs.Records
import ClauseLearning.Proofs.Exhaustion
import ClauseLearning.Proofs.Safety
import ClauseLearning.Proofs.Primes
import ClauseLearning.Proofs.Restrictions
import ClauseLearning.Proofs.Twins
import ClauseLearning.Proofs.Renewal
import ClauseLearning.Proofs.Tokens
import ClauseLearning.Proofs.Layouts
import ClauseLearning.Proofs.Gathering
import ClauseLearning.Proofs.Reading
import ClauseLearning.Proofs.Writing
import ClauseLearning.Proofs.Antecedents
import ClauseLearning.Proofs.Blame
import ClauseLearning.Proofs.Stock
import ClauseLearning.Proofs.Upholding
import ClauseLearning.Proofs.Offering
import ClauseLearning.Proofs.Linking
import ClauseLearning.Proofs.Implied
import ClauseLearning.Proofs.Minimisation
import ClauseLearning.Proofs.Reductions
import ClauseLearning.Proofs.Intervals
import ClauseLearning.Proofs.Telling
import ClauseLearning.Proofs.Budgets
import ClauseLearning.Proofs.CounterBounds
import ClauseLearning.Proofs.WatcherBounds
import ClauseLearning.Proofs.Availability
import ClauseLearning.Proofs.Stamps
import ClauseLearning.Proofs.Luby
import ClauseLearning.Proofs.Acting
import ClauseLearning.Proofs.Composition
import ClauseLearning.Proofs.Heeding
import ClauseLearning.Proofs.Tracking
import ClauseLearning.Proofs.Registering
import ClauseLearning.Proofs.Chronicle
import ClauseLearning.Proofs.Pairing
import ClauseLearning.Proofs.Coursing
import ClauseLearning.Proofs.Undergoing
import ClauseLearning.Proofs.Underflow
import ClauseLearning.Proofs.Recounting
import ClauseLearning.Proofs.Timers
import ClauseLearning.Proofs.Windows
