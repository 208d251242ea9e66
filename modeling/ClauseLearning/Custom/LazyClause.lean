import ClauseLearning.Custom.Script

/-!
# Clauses that wait

A clause that is looked at only when a trigger gets a value. It may have been unit, or violated, for
some levels by then, so its conflicts can lie entirely below the current level.
-/

namespace ClauseLearning

structure LazyClause where
  clause : List Literal
  trigger : Literal
  /-- How often the clause was looked at. -/
  numChecks : Nat
  deriving DecidableEq, Repr

namespace LazyClause

def ofLiterals (clause : List Literal) (trigger : Literal) : LazyClause := ⟨clause, trigger, 0⟩

def attach (c : LazyClause) : Script (Bool × LazyClause) :=
  .watch c.trigger <| .watch (-c.trigger) <| .done (true, c)

def propagate (c : LazyClause) (p : Literal) : Script (Bool × LazyClause) :=
  let c := { c with numChecks := c.numChecks + 1 }
  .watch p <| .look fun a =>
    if c.clause.any a.isSatisfied then .done (true, c)
    else
      match c.clause.filter a.isUnassigned with
      | [] => .done (false, c)
      | [l] => .enqueue l fun ok => .done (ok, c)
      | _ => .done (true, c)

instance : CustomConstraint LazyClause where
  literals c := c.clause ++ [c.trigger]
  attach := attach
  propagate := propagate
  reason c _ p := c.clause.filter fun l => p ≠ some l
  undo c _ := c
  isSatisfied c a := c.clause.any a.isSatisfied

end LazyClause

end ClauseLearning
