import ClauseLearning.Conflict.Analysis
import ClauseLearning.Conflict.Core
import ClauseLearning.Engine.Event
import ClauseLearning.Engine.State
import ClauseLearning.Restart.Policy
import ClauseLearning.Statistics.Basic

/-!
# The engine

The state of the search, the analyser, and what steers both: the policies, the assumptions of the
query at hand, what is known about the constraints as a whole, and what is counted and reported.

Constraints come in and go out at the root. An addition attaches all of its parts or none of them:
if a part contradicts the root facts, everything the addition did is taken back.
-/

namespace ClauseLearning

/-- What steers a search, and what it leaves behind. -/
structure Control where
  options : Options
  restarts : RestartPolicy
  timers : Timers
  /-- The timer that calls for reductions. -/
  reduceTimer : Nat
  assumptions : List Literal
  /-- The constraints were shown to be unsatisfiable. -/
  infeasible : Bool
  /-- Some constraint or root fact holds for the current restriction of decisions only. -/
  restricted : Bool
  /-- How many root facts there were at the last simplification. -/
  simplifiedAt : Nat
  statistics : Statistics
  /-- What was reported, newest first. -/
  events : List Event

namespace Control

/-- Counters at zero, with fresh policies. -/
def make (o : Options) (learned : LearnedDatabase) : Control :=
  let (reduceTimer, timers) := Timers.empty.add learned.timer
  ⟨o, .ofOptions o.restart, timers, reduceTimer, [], false, false, 0, .zero, []⟩

def report (e : Event) (c : Control) : Control := { c with events := e :: c.events }

def count (f : Statistics → Statistics) (c : Control) : Control :=
  { c with statistics := f c.statistics }

/-- Starts the policies again for a new set of constraints. -/
def restart (learned : LearnedDatabase) (c : Control) : Control :=
  let (reduceTimer, timers) := Timers.empty.add learned.timer
  { c with
    restarts := .ofOptions c.options.restart
    timers, reduceTimer
    infeasible := false
    restricted := false
    simplifiedAt := 0 }

end Control

structure Engine (κ : Type) where
  search : SearchState κ
  analyser : Analyser
  control : Control

namespace Engine

variable {κ : Type} [CustomConstraint κ]

def make (o : Options) : Engine κ :=
  let search : SearchState κ := .make o
  ⟨search, .make o.minimisation, .make o search.learned⟩

def numVariables (e : Engine κ) : Nat := e.search.numVariables

def modifyControl (f : Control → Control) : Engine κ → Engine κ
  | ⟨search, analyser, control⟩ => ⟨search, analyser, f control⟩

def report (event : Event) (e : Engine κ) : Engine κ := e.modifyControl (·.report event)

def modifySearch (f : SearchState κ → SearchState κ) : Engine κ → Engine κ
  | ⟨search, analyser, control⟩ => ⟨f search, analyser, control⟩

/-- Goes back to the end of a level. -/
def backtrack (level : Nat) : Engine κ → Except Fault (Engine κ)
  | ⟨search, analyser, control⟩ => do
    let search ← search.backtrack level
    return ⟨search, analyser, control⟩

/-- Makes variables `1..n` known. -/
def grow (n : Nat) : Engine κ → Engine κ
  | ⟨search, analyser, control⟩ =>
    if n ≤ search.numVariables then ⟨search, analyser, control⟩
    else ⟨search.grow n, analyser.grow n, control⟩

/-- The literal of a signed number, whose variable is made known. -/
def literal (n : Int) (e : Engine κ) : Except Literal.Error Literal × Engine κ :=
  (Literal.ofDimacs n, e.grow n.natAbs)

def statistics (e : Engine κ) : Statistics :=
  { e.control.statistics with blockedRestarts := e.control.restarts.numBlocked }

/-! ## Propagation -/

/-- Notifies of every new assignment and counts those that follow. -/
def propagate : Engine κ → Except Fault (Option Reference × Engine κ)
  | ⟨search, analyser, control⟩ => do
    let before := search.trailLength
    let (conflict, search) ← search.propagate
    let n := search.trailLength - before
    return (conflict, ⟨search, analyser,
      control.count fun s => { s with propagations := s.propagations + n }⟩)

/-! ## Constraints in -/

/-- Makes literals root facts in order; false at the first that is false already. -/
def assertUnits : List Literal → SearchState κ → Bool × SearchState κ
  | [], s => (true, s)
  | l :: ls, s =>
    match s.enqueue l with
    | (true, s) => assertUnits ls s
    | (false, s) => (false, s)

/-- Attaches a constraint in normal form, without what follows from it. The result lists the
constraints that were attached so far; the flag is false if the constraint is violated. -/
def attachNormal (handle : Nat) (attached : List Reference) (k : Normal κ) (s : SearchState κ) :
    Bool × List Reference × SearchState κ :=
  match k with
  | .satisfied => (true, attached, s)
  | .unsatisfiable => (false, attached, s)
  | .units ls =>
    let (ok, s) := assertUnits ls s
    (ok, attached, s)
  | .constraint k =>
    let (r, ok, s) := s.attach ⟨k, .ofHandle handle⟩
    (ok, attached ++ [r], s)

/-- Takes an addition back: what was assigned at the root since `checkpoint`, and what it
attached. -/
def withdraw (checkpoint : Nat) (attached : List Reference) :
    Engine κ → Except Fault (Except Refusal (List Reference) × Engine κ)
  | ⟨search, analyser, control⟩ => do
    let search ← search.backtrackRoot checkpoint
    return (.error .triviallyUnsatisfiable, ⟨search.delete attached, analyser, control⟩)

/-- Adds the parts of a constraint in order. At the first that is violated everything since
`checkpoint` is taken back. -/
def addParts (handle checkpoint : Nat) : List (Description κ) → List Reference → Engine κ →
    Except Fault (Except Refusal (List Reference) × Engine κ)
  | [], attached, e => .ok (.ok attached, e)
  | d :: ds, attached, e => do
    match e.grow (Description.maxVariable d.literals) with
    | ⟨search, analyser, control⟩ =>
      match d.normalise search.assignment with
      | .satisfied => addParts handle checkpoint ds attached ⟨search, analyser, control⟩
      | k =>
        match attachNormal handle attached k search with
        | (false, attached, search) => withdraw checkpoint attached ⟨search, analyser, control⟩
        | (true, attached, search) =>
          match ← propagate ⟨search, analyser, control⟩ with
          | (none, e) => addParts handle checkpoint ds attached e
          | (some _, e) => withdraw checkpoint attached e

/-- Adds a constraint at the root: all of its parts, or none of them if one is violated. -/
def add (handle : Nat) (ds : List (Description κ)) (e : Engine κ) :
    Except Fault (Except Refusal (List Reference) × Engine κ) := do
  if e.control.infeasible then return (.error .infeasibleState, e)
  let e ← e.backtrack 0
  addParts handle e.search.trailLength ds [] e

/-! ## Constraints out -/

/-- Deletes the constraints of an addition that are still alive. What followed from them at the root
stays. -/
def remove (rs : List Reference) (handle : Nat) : Engine κ → Except Fault (Engine κ)
  | ⟨search, analyser, control⟩ => do
    let search ← search.deleteOwned rs handle
    return ⟨search, analyser, control⟩

/-- Forgets every constraint and every assignment, and keeps the variables. -/
def clear : Engine κ → Engine κ
  | ⟨search, analyser, control⟩ =>
    let search := search.clear
    let control := (control.restart search.learned).count fun s =>
      { s with rebuilds := s.rebuilds + 1 }
    ⟨search, analyser, control.report .rebuilding⟩

/-- Allows just the given variables to be decided, or every variable. -/
def restrictDecisions (vs : Option (List Nat)) : Engine κ → Engine κ
  | ⟨⟨board, arena, learned, order, head⟩, analyser, control⟩ =>
    let n := order.restrictionSize vs
    ⟨⟨board, arena, learned, order.restrictTo vs, head⟩, analyser,
      control.report (.restricted n)⟩

end Engine

end ClauseLearning
