import ClauseLearning.Constraint.Description
import ClauseLearning.LiteralTable

/-!
# What an implicant has to provide

An implicant of some constraints is a set of literals that satisfies every constraint, whatever the
other variables are. For a constraint that counts true literals this is a number of literals in the
set; for any other constraint the set keeps the values of all its variables.
-/

namespace ClauseLearning

inductive Requirement
  /-- At least `degree` of the literals are in the implicant, repetitions counting. -/
  | atLeast (ls : List Literal) (degree : Nat)
  /-- The values of these variables are in the implicant. -/
  | mandatory (vs : List Nat)
  deriving DecidableEq, Repr

namespace Requirement

/-- What a constraint asks of an implicant; a clause that is always true asks for nothing. -/
def ofDescription? {κ : Type} [CustomConstraint κ] : Description κ → Option Requirement
  | .clause ls => if ls.any fun l => ls.contains (-l) then none else some (.atLeast ls 1)
  | .atLeast ls degree => some (.atLeast ls degree)
  | d => some (.mandatory (d.literals.map (·.var)).eraseDups)

/-- Whether the literals that are true meet the requirement. -/
def isMet (isTrue : Literal → Bool) : Requirement → Bool
  | .atLeast ls degree => decide (degree ≤ ls.countP isTrue)
  | .mandatory vs => vs.all fun v => isTrue (.make v true) || isTrue (.make v false)

/-- Marks an element of a table that is as long as it has to be. -/
def mark (v : Nat) (table : Array Bool) : Array Bool :=
  (table ++ Array.replicate (v + 1 - table.size) false).setIfInBounds v true

/-- The variables that some requirement makes mandatory. -/
def mandatoryTable (rs : List Requirement) : Array Bool :=
  rs.foldl (fun table r =>
    match r with
    | .atLeast .. => table
    | .mandatory vs => vs.foldl (fun table v => mark v table) table) #[]

def isMandatory (table : Array Bool) (v : Nat) : Bool := table[v]?.getD false

/-- Which literals are true in a model. The table has room for the variables of the model. -/
def truthTable (model : List Literal) : LiteralTable Bool :=
  model.foldl (fun table l => (table.grow (2 * (l.var + 1)) false).set l true) .empty

end Requirement

end ClauseLearning
