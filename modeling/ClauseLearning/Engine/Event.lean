import ClauseLearning.Literal

/-!
# What a search reports

Events are recorded in the order in which they happen. Two of them give clauses and are of interest
to a close observer only; the others have a text.
-/

namespace ClauseLearning

/-- Why a constraint was not added. -/
inductive Refusal
  /-- It contradicts the root facts. -/
  | triviallyUnsatisfiable
  /-- The constraints were known to be unsatisfiable before. -/
  | infeasibleState
  deriving DecidableEq, Repr

def Refusal.message : Refusal → String
  | .triviallyUnsatisfiable =>
    "Adding the constraint makes the formula unsatisfiable at the root"
  | .infeasibleState => "The solver is already in an infeasible state"

inductive Event
  | rebuilding
  | rebuildStopped (handle : Nat) (refusal : Refusal)
  | searchStopped
  | rootConflict
  | restart (numConflicts : Nat)
  | reduced (numDeleted numKept : Nat)
  | implicant (length modelLength : Nat)
  | restricted (numVariables : Nat)
  | learned (clause : List Literal)
  | blocking (clause : List Literal)
  deriving DecidableEq, Repr

def Event.text? : Event → Option String
  | .rebuilding => some "Rebuilding the constraint database"
  | .rebuildStopped handle refusal =>
    some s!"Rebuilding stopped at constraint {handle}: {refusal.message}"
  | .searchStopped => some "Search stopped by the termination condition"
  | .rootConflict => some "Conflict at the root, the constraints are unsatisfiable"
  | .restart numConflicts => some s!"Restart after {numConflicts} conflicts"
  | .reduced numDeleted numKept =>
    some s!"Reduced the learned constraints by {numDeleted} to {numKept}"
  | .implicant length modelLength =>
    some s!"Prime implicant of {length} out of {modelLength} literals"
  | .restricted numVariables => some s!"Decisions restricted to {numVariables} variables"
  | .learned _ | .blocking _ => none

end ClauseLearning
