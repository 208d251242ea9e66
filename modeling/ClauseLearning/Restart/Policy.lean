import ClauseLearning.Options
import ClauseLearning.Restart.Average

/-!
# Restart policies

When the search abandons its partial assignment and starts again from the root. Every conflict is
counted first, the clause learned from it is reported afterwards.

The adaptive policy waits for an interval of a sequence, and before its first restart for a minimum
of conflicts. Then it restarts as soon as the recent clauses are worse than the average one. A
restart that is due is put off when many more variables are assigned than usual, since the search
may then be close to a solution.
-/

namespace ClauseLearning

structure AdaptiveRestarts where
  sequence : IntervalSequence
  sinceRestart : Nat
  /-- The least number of conflicts between two restarts. -/
  interval : Nat
  minConflicts : Nat
  recentLbd : Window
  overallLbd : Average
  lbdCoef : Float
  recentAssigned : Window
  assignedCoef : Float
  numRestarts : Nat
  numBlocked : Nat
  deriving Repr

namespace AdaptiveRestarts

/-- Whether enough conflicts were seen for a restart. -/
def isDue (s : AdaptiveRestarts) : Bool :=
  !(s.numRestarts == 0 && decide (s.sinceRestart < s.minConflicts)) &&
    decide (s.interval ≤ s.sinceRestart)

def shouldRestart (s : AdaptiveRestarts) : Bool :=
  s.isDue && decide (s.overallLbd.value * s.lbdCoef ≤ s.recentLbd.value)

def shouldBlock (s : AdaptiveRestarts) (numAssigned : Nat) : Bool :=
  s.isDue &&
    decide (s.recentAssigned.value * s.assignedCoef < (UInt64.ofNat numAssigned).toFloat)

/-- Starts to count again. -/
def reset (s : AdaptiveRestarts) : AdaptiveRestarts :=
  { s with sinceRestart := 0, recentLbd := s.recentLbd.clear }

def onLearned (lbd numAssigned : Nat) (s : AdaptiveRestarts) : AdaptiveRestarts :=
  let s := { s with
    recentAssigned := s.recentAssigned.add numAssigned
    recentLbd := s.recentLbd.add lbd
    overallLbd := s.overallLbd.add lbd }
  if s.shouldBlock numAssigned then reset { s with numBlocked := s.numBlocked + 1 } else s

def onRestart (s : AdaptiveRestarts) : AdaptiveRestarts :=
  let (interval, sequence) := s.sequence.next
  reset { s with numRestarts := s.numRestarts + 1, interval := max interval 1, sequence }

end AdaptiveRestarts

inductive RestartPolicy
  | never
  | scheduled (sequence : IntervalSequence) (sinceRestart interval : Nat)
  | adaptive (state : AdaptiveRestarts)
  deriving Repr

namespace RestartPolicy

/-- Whether the windows that a policy needs can be made. -/
def checkWindows (o : RestartOptions) : Except Violation Unit :=
  match o.strategy with
  | .adaptive => do
    let _ ← Window.make (max o.baseInterval 1)
    let _ ← Window.make (max o.assignedWindow 1)
    return ()
  | _ => .ok ()

def ofOptions (o : RestartOptions) : RestartPolicy :=
  let (interval, sequence) := (IntervalSequence.ofShape o.baseInterval o.geometricCoef o.shape).next
  match o.strategy with
  | .never => .never
  | .scheduled => .scheduled sequence 0 (max interval 1)
  | .adaptive => .adaptive ⟨sequence, 0, max interval 1, o.minConflicts,
      .atLeastOne o.baseInterval, .empty, o.lbdCoef, .atLeastOne o.assignedWindow,
      o.assignedCoef, 0, 0⟩

def onConflict : RestartPolicy → RestartPolicy
  | .never => .never
  | .scheduled sequence sinceRestart interval => .scheduled sequence (sinceRestart + 1) interval
  | .adaptive s => .adaptive { s with sinceRestart := s.sinceRestart + 1 }

/-- A clause with distance `lbd` was learned while `numAssigned` variables were assigned. -/
def onLearned (lbd numAssigned : Nat) : RestartPolicy → RestartPolicy
  | .adaptive s => .adaptive (s.onLearned lbd numAssigned)
  | policy => policy

def shouldRestart : RestartPolicy → Bool
  | .never => false
  | .scheduled _ sinceRestart interval => decide (interval ≤ sinceRestart)
  | .adaptive s => s.shouldRestart

def onRestart : RestartPolicy → RestartPolicy
  | .never => .never
  | .scheduled sequence _ _ =>
    let (interval, sequence) := sequence.next
    .scheduled sequence 0 (max interval 1)
  | .adaptive s => .adaptive s.onRestart

def numBlocked : RestartPolicy → Nat
  | .adaptive s => s.numBlocked
  | _ => 0

end RestartPolicy

end ClauseLearning
