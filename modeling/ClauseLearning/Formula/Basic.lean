import ClauseLearning.Session.Query

/-!
# Formulas

An instance apart from any solver: clauses and parity constraints over signed numbers, and a number
of variables that is at least the largest that occurs.

* `numVariables_add`: what adding a constraint does to the number of variables.
-/

namespace ClauseLearning

inductive Formula.Constraint
  | clause (ns : List Int)
  /-- An even (or odd) number of the literals is true. -/
  | parity (ns : List Int) (even : Bool)
  deriving DecidableEq, Repr

structure Formula where
  numVariables : Nat
  /-- The newest constraint is in front. -/
  reversed : List Formula.Constraint
  deriving DecidableEq, Repr

namespace Formula

def ofNumVariables (n : Nat) : Formula := ⟨n, []⟩

def constraints (f : Formula) : List Constraint := f.reversed.reverse

def Constraint.numbers : Constraint → List Int
  | .clause ns => ns
  | .parity ns _ => ns

/-- The largest variable of some numbers, 0 if there is none. -/
def maxVariable (ns : List Int) : Nat := ns.foldl (fun m n => max m n.natAbs) 0

def add (c : Constraint) (f : Formula) : Formula :=
  ⟨max f.numVariables (maxVariable c.numbers), c :: f.reversed⟩

/-! ## Satisfaction -/

/-- Whether a number is among the values of a model, which lists them by variable. -/
def isTrue (model : Array Int) (n : Int) : Except Violation Bool :=
  if n = 0 then .error .zeroInClause else .ok (model[n.natAbs - 1]? == some n)

def Constraint.isSatisfiedBy (model : Array Int) : Constraint → Except Violation Bool
  | .clause ns => ns.anyM (isTrue model)
  | .parity ns even => do
    let trues ← ns.filterM (isTrue model)
    return (trues.length % 2 == 0) == even

/-- Whether a model, which lists one number per variable, satisfies every constraint. -/
def isSatisfiedBy (model : List Int) (f : Formula) : Except Violation Bool :=
  f.constraints.allM (Constraint.isSatisfiedBy model.toArray)

/-! ## Adding to a session -/

variable {κ : Type} [CustomConstraint κ]

def Constraint.addTo : Constraint → SessionM κ (Except Refusal Nat)
  | .clause ns => Session.addClause ns
  | .parity ns even => Session.addParity ns even

/-- Adds constraints in order, up to the first that is refused. -/
def addAll : List Constraint → SessionM κ (Except Refusal Unit)
  | [] => return .ok ()
  | c :: cs => do
    match ← c.addTo with
    | .ok _ => addAll cs
    | .error refusal => return .error refusal

/-- Makes the variables known and adds the constraints. -/
def addTo (f : Formula) : SessionM κ (Except Refusal Unit) := do
  let _ ← Session.newVariables f.numVariables
  addAll f.constraints

theorem numVariables_add (c : Constraint) (f : Formula) :
    (f.add c).numVariables = max f.numVariables (maxVariable c.numbers) := rfl

theorem constraints_add (c : Constraint) (f : Formula) :
    (f.add c).constraints = f.constraints ++ [c] := by
  simp [add, constraints]

end Formula

end ClauseLearning
