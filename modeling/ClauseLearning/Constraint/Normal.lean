import ClauseLearning.Constraint.Description

/-!
# Normal forms

Constraints are attached at the root only, so every assigned literal is a fact that can be
simplified away first. What remains is nothing, a contradiction, a conjunction of literals, or a
constraint over unassigned variables that none of its literals decides.

Literals are sorted by code on the way, which puts the literals of a variable next to each other.
-/

namespace ClauseLearning

inductive Normal (κ : Type)
  /-- The constraint follows from the root facts. -/
  | satisfied
  /-- The constraint contradicts the root facts. -/
  | unsatisfiable
  /-- The constraint is the conjunction of these literals. -/
  | units (ls : List Literal)
  | constraint (k : Kind κ)
  deriving Repr

namespace Normal

variable {κ : Type}

def sort (ls : List Literal) : List Literal := ls.mergeSort Literal.le

/-- Whether two neighbours are negations of each other. -/
def hasComplement : List Literal → Bool
  | l :: m :: ls => l == -m || hasComplement (m :: ls)
  | _ => false

def ofClause (a : Assignment) (ls : List Literal) : Normal κ :=
  if ls.any a.isSatisfied then .satisfied
  else
    let rest := (sort (ls.filter fun l => !a.isFalsified l)).eraseReps
    if hasComplement rest then .satisfied
    else
      match rest with
      | [] => .unsatisfiable
      | [l] => .units [l]
      | l :: m :: ls => .constraint (.clause ⟨l, m, ls⟩)

/-- The literals of one variable, sorted: how many complementary pairs there are, each of which has
exactly one true literal, and what is left without them. -/
def cancelPairs (group : List Literal) : Nat × List Literal :=
  let positive := group.countP (·.isPositive)
  let negative := group.length - positive
  if negative ≤ positive then (negative, group.take (positive - negative))
  else (positive, group.drop (group.length - (negative - positive)))

def ofAtLeast (a : Assignment) (ls : List Literal) (degree : Nat) : Normal κ :=
  let groups := (sort (ls.filter a.isUnassigned)).splitBy fun l m => l.var == m.var
  let cancelled := groups.map cancelPairs
  let numPairs := cancelled.foldr (fun c n => c.1 + n) 0
  let given := ls.countP a.isSatisfied + numPairs
  let remaining := (cancelled.map (·.2)).flatten
  if degree ≤ given then .satisfied
  else
    let degree := degree - given
    if remaining.length < degree then .unsatisfiable
    else if degree = remaining.length then .units remaining.eraseReps
    else if degree = 1 then ofClause a remaining
    else .constraint (.cardinality ⟨remaining, degree, 0⟩)

def ofParity (a : Assignment) (ls : List Literal) (even : Bool) : Normal κ :=
  let positive (l : Literal) := Literal.make l.var true
  -- A negative literal is one more than its variable, and so is a true one than a false one.
  let flips := ls.countP (·.isNegative) + ls.countP fun l => a.isSatisfied (positive l)
  let odd := even == (flips % 2 == 1)
  let vars := ((ls.filter a.isUnassigned).map (·.var)).mergeSort fun v w => decide (v ≤ w)
  -- A variable that occurs an even number of times does not matter.
  let remaining := (vars.splitBy (· == ·)).flatMap fun group =>
    if group.length % 2 = 1 then group.take 1 else []
  match remaining with
  | [] => if odd then .unsatisfiable else .satisfied
  | [v] => .units [Literal.make v odd]
  | v :: w :: vs => .constraint (.parity ⟨v, w, vs, odd⟩)

end Normal

/-- Simplifies a constraint against the root facts. -/
def Description.normalise {κ : Type} (a : Assignment) : Description κ → Normal κ
  | .clause ls => .ofClause a ls
  | .atLeast ls degree => .ofAtLeast a ls degree
  | .parity ls even => .ofParity a ls even
  | .custom c => .constraint (.custom c)

end ClauseLearning
