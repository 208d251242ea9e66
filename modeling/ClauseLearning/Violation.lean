import ClauseLearning.Fault

/-!
# Violations

What a caller can do wrong. A call that violates its contract ends with the violation, and whatever
it did before stays done. An internal fault of the search ends a call in the same way.
-/

namespace ClauseLearning

inductive Violation
  /-- A number that denotes no literal. -/
  | literal (e : Literal.Error)
  /-- A variable that no signed 32 bit number can name. -/
  | variableTooLarge (v : Nat)
  /-- The last query was not answered with a model. -/
  | noModel
  /-- No prime implicant was computed for the model. -/
  | noImplicant
  /-- A handle that was never given out. -/
  | foreignHandle (handle : Nat)
  | removedAlready (handle : Nat)
  /-- Only the newest constraint can be removed in place. -/
  | notNewest
  | emptyWindow
  /-- A window for more terms than memory can hold. -/
  | windowTooLarge
  /-- Zero stands in a clause that is looked up in a model. -/
  | zeroInClause
  | internal (f : Fault)
  deriving DecidableEq, Repr

def Violation.message : Violation → String
  | .literal e => e.message
  | .variableTooLarge v => s!"variable {v} does not fit in a Dimacs literal"
  | .noModel => "the model is only available after a satisfiable answer"
  | .noImplicant => "no prime implicant was computed for the current model"
  | .foreignHandle handle => s!"ConstraintHandle({handle}) does not belong to this solver"
  | .removedAlready handle => s!"ConstraintHandle({handle}) was removed already"
  | .notNewest => "only the most recently added constraint can be removed as subsumed"
  | .emptyWindow => "a moving window cannot be empty"
  | .windowTooLarge => "capacity overflow"
  | .zeroInClause => "attempt to subtract with overflow"
  | .internal f => f.message

end ClauseLearning
