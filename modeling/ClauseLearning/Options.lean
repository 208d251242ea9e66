import ClauseLearning.Decision.Phase
import ClauseLearning.Restart.Interval

/-!
# Options

Every setting of a solver, with the values it has when nothing is said.
-/

namespace ClauseLearning

inductive RestartStrategy
  | never
  /-- After as many conflicts as the sequence says. -/
  | scheduled
  /-- When recently learned clauses are worse than usual. -/
  | adaptive
  deriving DecidableEq, Repr

structure RestartOptions where
  strategy : RestartStrategy
  shape : IntervalShape
  baseInterval : Nat
  /-- Conflicts before the first adaptive restart. -/
  minConflicts : Nat
  /-- Larger values mean fewer restarts. -/
  lbdCoef : Float
  /-- Larger values mean fewer blocked restarts. -/
  assignedCoef : Float
  /-- Over how many conflicts the number of assigned variables is averaged. -/
  assignedWindow : Nat
  geometricCoef : Float
  deriving Repr

def RestartOptions.standard : RestartOptions :=
  ⟨.adaptive, .constant, 50, 10000, 1.25, 1.4, 5000, 1.5⟩

/-- Which learned clauses a reduction forgets first. -/
inductive DeletionRule
  | leastActive
  | oldest
  | longest
  | largestLbd
  /-- As `largestLbd`, and a clause that forces a literal is measured again. -/
  | largestLbdDynamic
  deriving DecidableEq, Repr

structure LearningOptions where
  deletion : DeletionRule
  activityDecay : Float
  /-- When an activity exceeds this all are scaled down. -/
  maxActivity : Float
  /-- Clauses with a distance up to this are kept by the rules that look at it. -/
  lbdThreshold : Nat
  /-- Conflicts before the first reduction. -/
  reduceFirst : Nat
  /-- How much the interval between reductions grows. -/
  reduceIncrement : Nat
  deriving Repr

def LearningOptions.standard : LearningOptions := ⟨.largestLbd, 0.999, 1e20, 2, 2000, 300⟩

/-- How hard learned clauses are shrunk. -/
inductive Minimisation
  | none
  /-- Literals whose reason was seen as a whole. -/
  | simple
  /-- Literals that follow from the rest of the clause. -/
  | expensive
  deriving DecidableEq, Repr

inductive ImplicantStrategy
  | quadratic
  | counterBased
  | watcherBased
  deriving DecidableEq, Repr

/-- What limits a query. -/
inductive Timeout
  | none
  | milliseconds (n : Nat)
  | conflicts (n : Nat)
  deriving DecidableEq, Repr

structure Options where
  restart : RestartOptions
  learning : LearningOptions
  minimisation : Minimisation
  phase : PhaseRule
  implicant : ImplicantStrategy
  activityDecay : Float
  /-- The probability of deciding some variable instead of the most active one. -/
  randomFrequency : Float
  seed : UInt64
  /-- Whether constraints that the root facts satisfy are deleted. -/
  simplify : Bool
  timeout : Timeout
  deriving Repr

def Options.standard : Options :=
  ⟨.standard, .standard, .expensive, .saving, .watcherBased, 0.95, 0.0, 42, true, .none⟩

end ClauseLearning
