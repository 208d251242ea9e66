import ClauseLearning.Constraint.Basic
import ClauseLearning.Valuation

/-!
# Descriptions

A constraint as it was added, before anything is known of it. Descriptions stay for as long as the
constraint is part of the problem; what is attached is made from them again at every rebuild.

* `holds_atMost`: at most `d` of some literals hold when at least all but `d` of their negations do.
-/

namespace ClauseLearning

inductive Description (κ : Type)
  /-- One of the literals is true. -/
  | clause (ls : List Literal)
  /-- At least `degree` of the literals are true, repetitions counting. -/
  | atLeast (ls : List Literal) (degree : Nat)
  /-- An even (or odd) number of the literals is true. -/
  | parity (ls : List Literal) (even : Bool)
  | custom (c : κ)
  deriving Repr

namespace Description

variable {κ : Type}

/-- At most `degree` of the literals are true: at least all but `degree` negations are. -/
def atMost (ls : List Literal) (degree : Nat) : Description κ :=
  .atLeast (ls.map (-·)) (ls.length - degree)

/-- Exactly `degree` of the literals are true. -/
def exactly (ls : List Literal) (degree : Nat) : List (Description κ) :=
  [.atLeast ls degree, atMost ls degree]

def literals [CustomConstraint κ] : Description κ → List Literal
  | .clause ls => ls
  | .atLeast ls _ => ls
  | .parity ls _ => ls
  | .custom c => CustomConstraint.literals c

/-- The largest variable of a list of literals, 0 if it is empty. -/
def maxVariable (ls : List Literal) : Nat := ls.foldl (fun n l => max n l.var) 0

/-- Whether the constraint is true under an assignment of every variable. -/
def isSatisfied [CustomConstraint κ] (a : Assignment) : Description κ → Bool
  | .clause ls => decide (1 ≤ ls.countP a.isSatisfied)
  | .atLeast ls degree => decide (degree ≤ ls.countP a.isSatisfied)
  | .parity ls even =>
    ls.all (fun l => !a.isUnassigned l) && (ls.countP a.isSatisfied % 2 == 0) == even
  | .custom c => CustomConstraint.isSatisfied c a

/-! ## Meaning -/

/-- What a constraint of the library's own kinds says of a valuation. -/
def Holds (ν : Valuation) : Description κ → Prop
  | .clause ls => ∃ l ∈ ls, l.holds ν = true
  | .atLeast ls degree => degree ≤ ν.count ls
  | .parity ls even => (ν.count ls % 2 == 0) = even
  | .custom _ => True

theorem holds_atMost (ν : Valuation) (ls : List Literal) (degree : Nat) :
    (atMost (κ := κ) ls degree).Holds ν ↔ ν.count ls ≤ degree := by
  have := ν.count_negate ls
  simp only [atMost, Holds]
  omega

end Description

end ClauseLearning
