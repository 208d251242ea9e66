import ClauseLearning.Implicant.CounterBased
import ClauseLearning.Implicant.Quadratic
import ClauseLearning.Implicant.WatcherBased
import ClauseLearning.Options

/-!
# Prime implicants

A prime implicant of some constraints is an implicant that is none any more without any one of its
literals. The strategies compute one from a model, which assigns every variable and meets every
requirement.
-/

namespace ClauseLearning

/-- A prime implicant that is a part of the model. -/
def primeImplicant (strategy : ImplicantStrategy) (model : List Literal) (rs : List Requirement) :
    Except Fault (List Literal) :=
  match strategy with
  | .quadratic => Quadratic.implicant model rs
  | .counterBased => .ok (CounterBased.implicant model rs)
  | .watcherBased => .ok (WatcherBased.implicant model rs)

/-- The literals of a set meet every requirement. -/
def MeetsAll (ls : List Literal) (rs : List Requirement) : Prop :=
  ∀ r ∈ rs, r.isMet (fun l => decide (l ∈ ls)) = true

/-- A set that meets every requirement, and does not without any one of its literals. -/
structure IsPrimeImplicant (model : List Literal) (rs : List Requirement) (ls : List Literal) :
    Prop where
  subset : ls ⊆ model
  nodup : ls.Nodup
  meets : MeetsAll ls rs
  minimal : ∀ l ∈ ls, ¬ MeetsAll (ls.filter (· ≠ l)) rs

end ClauseLearning
