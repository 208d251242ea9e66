import ClauseLearning.Implicant.Basic
import ClauseLearning.Session.Constraints

/-!
# Queries

A query asks for a model of the constraints in which the assumptions hold. Its answer stays until
the next query: a model, from which a prime implicant can be computed, or a core. Each query has the
budget that the options give; consecutive queries may share one.
-/

namespace ClauseLearning

/-- Why a query was not answered. -/
inductive SearchError
  | budgetExceeded
  /-- The restriction of decisions left the question open. -/
  | inconclusive
  deriving DecidableEq, Repr

def SearchError.message : SearchError → String
  | .budgetExceeded => "The search budget was exceeded before an answer was found"
  | .inconclusive => "The search with restricted branching cannot decide satisfiability"

inductive Answer
  /-- Has one literal for every variable, by variable. -/
  | satisfiable (model : List Literal)
  /-- Has assumptions that the constraints contradict. -/
  | unsatisfiable (core : List Literal)
  deriving DecidableEq, Repr

namespace Session

variable {κ : Type} [CustomConstraint κ]

/-- Sorts literals by variable. -/
def sortByVariable (ls : List Literal) : List Literal :=
  ls.mergeSort fun l m => decide (l.var ≤ m.var)

/-- What is left of the last answer is forgotten. -/
def forgetAnswer (book : Book κ) : Book κ :=
  { book with model := none, implicant := none, core := none }

/-- Takes the model from the engine. -/
def takeModel : SessionM κ (List Literal) := do
  let ls ← ofSteadyEngine (·.model)
  ofEngine fun e => do return ((), ← e.backtrack 0)
  let model := sortByVariable ls
  modifyBook fun book => { book with model := some model }
  return model

/-- Turns the outcome of a search into an answer. -/
def answer : Outcome → SessionM κ (Except SearchError Answer)
  | .satisfiable => do return .ok (.satisfiable (← takeModel))
  | .unsatisfiable => do
    modifyBook fun book => { book with core := some [] }
    return .ok (.unsatisfiable [])
  | .unsatisfiableUnder core => do
    modifyBook fun book => { book with core := some core }
    return .ok (.unsatisfiable core)
  | .budgetExceeded => do
    -- A request to stop is used up by the query it stops.
    modifyBook fun book => { book with stopRequested := false }
    return .error .budgetExceeded
  | .inconclusive => do
    rebuild
    return .error .inconclusive

/-- The budget of a query: what is left of the shared one, or a new one. -/
def budgetOf (shared : Bool) (book : Book κ) : Condition :=
  let fresh := Condition.ofTimeout book.options.timeout
  if shared then book.sharedBudget.getD fresh else fresh

/-- Asks for a model in which the assumptions hold. A query that does not share its budget ends the
shared one. -/
def query (assumptions : List Int) (shared : Bool) : SessionM κ (Except SearchError Answer) := do
  let assumptions ← literals assumptions
  modifyBook forgetAnswer
  let limit ← readBook fun book => (⟨book.stopRequested, budgetOf shared book⟩ : QueryLimit)
  let (outcome, limit) ← ofEngine fun e => do
    let (outcome, limit, e) ← e.solve assumptions limit
    return ((outcome, limit), e)
  modifyBook fun book => { book with
    sharedBudget := if shared then some limit.budget else none }
  answer outcome

/-! ## The last answer -/

/-- The model that the last query found. -/
def model (s : Session κ) : Except Violation (List Literal) :=
  match s.book.model with
  | some model => .ok model
  | none => .error .noModel

/-- The prime implicant that was computed since the last query. -/
def implicant (s : Session κ) : Except Violation (List Literal) :=
  match s.book.implicant with
  | some implicant => .ok implicant
  | none => .error .noImplicant

/-- The assumptions that the constraints contradict, after a query that was answered with no. -/
def core? (s : Session κ) : Option (List Literal) := s.book.core

/-- The assignment in which some literals are true. -/
def assignmentOf (numVariables : Nat) (ls : List Literal) : Assignment :=
  ls.foldl (fun a l => a.assign l none) (Assignment.empty.grow numVariables)

/-- Whether the model satisfies every constraint that is present now. -/
def checkModel (s : Session κ) : Except Violation Bool := do
  let a := assignmentOf s.numVariables (← s.model)
  return s.descriptions.all fun d => d.isSatisfied a

/-- What the present constraints ask of an implicant. -/
def requirements (s : Session κ) : List Requirement :=
  s.descriptions.filterMap Requirement.ofDescription?

/-- Computes a prime implicant that is part of the model. -/
def computeImplicant : SessionM κ (List Literal) := do
  let s ← get
  let model ← s.model
  match primeImplicant s.book.options.implicant model s.requirements with
  | .error fault => throw (.internal fault)
  | .ok ls =>
    let implicant := sortByVariable ls
    modifyEngine (·.report (.implicant implicant.length model.length))
    modifyBook fun book => { book with implicant := some implicant }
    return implicant

/-- The literals of a prime implicant in the order in which they are found to be needed. -/
def discoverImplicant (s : Session κ) : Except Violation (List Literal) := do
  return WatcherBased.implicant (← s.model) s.requirements

end Session

end ClauseLearning
