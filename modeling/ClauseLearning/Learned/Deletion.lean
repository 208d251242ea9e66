import ClauseLearning.Constraint.Arena
import ClauseLearning.Options
import ClauseLearning.Word

/-!
# Which learned clauses to forget

A reduction splits the learned clauses into those that may be forgotten and the others, sorts the
former worst first and takes as many as its rule says. What is kept is sorted by age.
-/

namespace ClauseLearning

/-- The place of a double in the order of its bits, in which `-0` is below `0`. An undefined value
has the place that is given for it. -/
def floatRank (undefined : Int) (x : Float) : Int :=
  let bits : Int := x.toBits.toNat
  let half : Int := Word.bound64 / 2
  if x.isNaN then undefined else if bits < half then bits else half - 1 - bits

/-- The place of an undefined activity. One that comes from an undefined decay is above every
number, one that comes from numbers, such as a difference of infinities, is below. -/
def LearningOptions.undefinedRank (o : LearningOptions) : Int :=
  if o.activityDecay.isNaN then Word.bound64 else -Word.bound64

/-- A learned clause with its reference. -/
abbrev Entry (κ : Type) := Reference × Constraint κ

namespace DeletionRule

variable {κ : Type} [CustomConstraint κ]

/-- Locked, binary, protected and restricted clauses are kept. -/
def isDeletable (a : Assignment) (e : Entry κ) : Bool :=
  !e.2.metadata.isProtected && !e.2.metadata.restricted && decide (2 < e.2.size) &&
    !e.2.isLocked a e.1

/-- Whether the first clause is forgotten before the second, or they are equally bad. -/
def isWorse (rule : DeletionRule) (undefined : Int) (c d : Constraint κ) : Bool :=
  let byActivity := decide
    (floatRank undefined c.metadata.activity ≤ floatRank undefined d.metadata.activity)
  match rule with
  | .leastActive => byActivity
  | .oldest => decide (c.metadata.age ≤ d.metadata.age)
  | .longest => decide (d.size < c.size) || (c.size == d.size && byActivity)
  | .largestLbd | .largestLbdDynamic =>
    decide (d.metadata.lbd < c.metadata.lbd) || (c.metadata.lbd == d.metadata.lbd && byActivity)

/-- How many clauses to forget, of `numLearned` clauses of which `numDeletable` may be. -/
def target (rule : DeletionRule) (numLearned numDeletable : Nat) : Nat :=
  match rule with
  | .largestLbd | .largestLbdDynamic => numLearned / 2
  | _ => numDeletable / 2

/-- The clauses to forget, worst first, and the clauses to keep, oldest first. -/
def split (rule : DeletionRule) (undefined : Int) (a : Assignment) (entries : List (Entry κ)) :
    List (Entry κ) × List (Entry κ) :=
  let (deletable, kept) := entries.partition (isDeletable a)
  let sorted := deletable.mergeSort fun d e => rule.isWorse undefined d.2 e.2
  let n := rule.target entries.length deletable.length
  (sorted.take n,
    (kept ++ sorted.drop n).mergeSort fun d e => decide (d.2.metadata.age ≤ e.2.metadata.age))

end DeletionRule

end ClauseLearning
