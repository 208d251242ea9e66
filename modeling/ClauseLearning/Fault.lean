import ClauseLearning.Assignment

/-!
# Internal faults

What the search itself would have to get wrong before it stops without an answer. Each cause is a
broken promise between two of its parts, and none of them is a caller's mistake: those are
violations (`ClauseLearning.Violation`). Running out of steps is a fault of its own kind, since it
says nothing about the state.
-/

namespace ClauseLearning

inductive Fault
  /-- A constraint was asked for whose slot is empty. -/
  | deletedConstraint (r : Reference)
  /-- A resolution step left no literal of the current level. -/
  | noOpenLiteral
  /-- The literal to resolve on is a decision, but not the last of its level. -/
  | unexplained (l : Literal)
  /-- Analysis was started at the root. -/
  | analysisAtRoot
  /-- A root operation was started above the root. -/
  | aboveRoot
  /-- A constraint was told to take back more notifications than it got. -/
  | counterUnderflow
  /-- Analysis went past the first literal of the trail. -/
  | trailExhausted
  /-- A table was read outside of its bounds. -/
  | outOfBounds (size index : Nat)
  /-- The search used up the steps it was given. -/
  | outOfSteps
  deriving DecidableEq, Repr

def Fault.message : Fault → String
  | .deletedConstraint r => s!"ConstraintReference({r.slot}) refers to a deleted constraint"
  | .noOpenLiteral => "assertion failed: num_open_at_current_level > 0"
  | .unexplained l => s!"{l} is not the only decision of its level"
  | .analysisAtRoot => "assertion failed: current_level > 0"
  | .aboveRoot => "assertion failed: self.trail.decision_level() == 0"
  | .counterUnderflow => "attempt to subtract with overflow"
  | .trailExhausted => "attempt to subtract with overflow"
  | .outOfBounds size index => s!"index out of bounds: the len is {size} but the index is {index}"
  | .outOfSteps => "the search ran out of steps"

end ClauseLearning
