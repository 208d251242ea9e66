import ClauseLearning.Implicant.Requirement

/-!
# Implicants by repeated checks

Every literal of the model is dropped in turn; if some requirement is no longer met it is put back.
All requirements are looked at each time.

A requirement may name a variable that the model does not know. Its literals are not in the table,
and to read one of them is a fault.
-/

namespace ClauseLearning.Quadratic

/-- How many of the literals are true. -/
def countTrue (table : LiteralTable Bool) : List Literal → Except Fault Nat
  | [] => .ok 0
  | l :: ls =>
    match table.get? l with
    | none => .error (.outOfBounds table.size l.code)
    | some b => do
      let n ← countTrue table ls
      return if b then n + 1 else n

/-- Whether every requirement that counts literals is met; looks no further than the first that is
not. -/
def meetsAll (table : LiteralTable Bool) : List Requirement → Except Fault Bool
  | [] => .ok true
  | .mandatory _ :: rs => meetsAll table rs
  | .atLeast ls degree :: rs => do
    let n ← countTrue table ls
    if degree ≤ n then meetsAll table rs else return false

/-- Drops the literals in turn where nothing speaks against it. -/
def dropEach (mandatory : Array Bool) (rs : List Requirement) :
    List Literal → LiteralTable Bool → Except Fault (LiteralTable Bool)
  | [], table => .ok table
  | l :: ls, table =>
    if Requirement.isMandatory mandatory l.var then dropEach mandatory rs ls table
    else do
      let table := table.set l false
      if ← meetsAll table rs then dropEach mandatory rs ls table
      else dropEach mandatory rs ls (table.set l true)

/-- A prime implicant in the order of the model. -/
def implicant (model : List Literal) (rs : List Requirement) : Except Fault (List Literal) := do
  let table ← dropEach (Requirement.mandatoryTable rs) rs model (Requirement.truthTable model)
  return model.filter fun l => table.getD l false

end ClauseLearning.Quadratic
