import ClauseLearning.Constraint.Arena

/-!
# Failed assumptions

When an assumption is false, its negation is followed back along the trail. Every decision that is
reached that way is an assumption too, and together they are responsible.

The walk marks what is still to be followed and takes a mark off when it passes it.
-/

namespace ClauseLearning

variable {κ : Type} [CustomConstraint κ]

/-- Marks the variables of a reason, root facts aside. -/
def markAbove (a : Assignment) (reason : List Literal) (seen : Array Bool) : Array Bool :=
  reason.foldl (fun seen l =>
    if 0 < a.levelOf l.var then seen.setIfInBounds l.var true else seen) seen

/-- Walks down the trail from position `start + n` to `start` and collects the marked decisions. -/
def sweepCore (s : Arena κ) (a : Assignment) (failed : Literal) (start : Nat) :
    Nat → List Literal → Array Bool → Except Fault (List Literal × Array Bool)
  | 0, core, seen => .ok (core.reverse, seen)
  | n + 1, core, seen =>
    match a.trail[start + n]? with
    | none => sweepCore s a failed start n core seen
    | some l =>
      if seen[l.var]?.getD false then do
        let seen := seen.setIfInBounds l.var false
        match ← s.reasonOf a l.var with
        | some reason => sweepCore s a failed start n core (markAbove a reason seen)
        | none => sweepCore s a failed start n (if l = failed then core else l :: core) seen
      else sweepCore s a failed start n core seen

/-- The assumptions that make the assumption `failed` false, itself first, and the marks, which are
off again. -/
def unsatCore (s : Arena κ) (a : Assignment) (failed : Literal) (seen : Array Bool) :
    Except Fault (List Literal × Array Bool) := do
  if a.decisionLevel = 0 then return ([failed], seen)
  let start := a.startOfLevel 1
  let (core, seen) ←
    sweepCore s a failed start (a.trail.size - start) [] (seen.setIfInBounds failed.var true)
  return (failed :: core, seen.setIfInBounds failed.var false)

end ClauseLearning
