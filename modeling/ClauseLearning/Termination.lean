import ClauseLearning.Options

/-!
# Termination conditions

A search polls its condition before every step and gives up when the condition says so; it tells the
condition about every conflict. Any type with these two operations is a condition.

`Condition` joins the conditions that users combine. Time is counted in ticks: a poll takes one, a
conflict many, and a wall clock limit is a number of ticks, so that a run depends on its input only.

* `poll_conflicts`: a conflict budget asks to stop once it is used up.
* `poll_clock`: a clock asks to stop once it has run down.
* `poll_either`: a combination stops when one of its halves does.
-/

namespace ClauseLearning

class Termination (τ : Type) where
  /-- Whether the search should stop now. -/
  poll : τ → Bool × τ
  /-- Counts a conflict. -/
  onConflict : τ → τ

inductive Condition
  | never
  /-- Stops once as many conflicts were met as the budget holds. -/
  | conflicts (budget met : Nat)
  /-- Stops when no tick is left. -/
  | clock (ticks : Nat)
  /-- Stops while a flag is raised. -/
  | flag (i : Nat)
  | either (c d : Condition)
  deriving DecidableEq, Repr

namespace Condition

/-- How many ticks make up a millisecond. -/
def ticksPerMillisecond : Nat := 5000

/-- How many ticks it takes to learn from a conflict, besides the one for the poll. -/
def ticksPerConflict : Nat := 399

def ofTimeout : Timeout → Condition
  | .none => .never
  | .milliseconds n => .clock (n * ticksPerMillisecond)
  | .conflicts n => .conflicts n 0

/-- A condition that may be missing. -/
def ofOption : Option Condition → Condition
  | none => .never
  | some c => c

/-- Whether to stop, given which flags are raised. The second half of a combination is asked only
if the first does not stop. -/
def poll (raised : Nat → Bool) : Condition → Bool × Condition
  | .never => (false, .never)
  | .conflicts budget met => (decide (budget ≤ met), .conflicts budget met)
  | .clock 0 => (true, .clock 0)
  | .clock (n + 1) => (false, .clock n)
  | .flag i => (raised i, .flag i)
  | .either c d =>
    match c.poll raised with
    | (true, c) => (true, .either c d)
    | (false, c) =>
      let (stop, d) := d.poll raised
      (stop, .either c d)

def onConflict : Condition → Condition
  | .conflicts budget met => .conflicts budget (met + 1)
  | .clock ticks => .clock (ticks - ticksPerConflict)
  | .either c d => .either c.onConflict d.onConflict
  | c => c

theorem poll_conflicts (raised : Nat → Bool) (budget met : Nat) :
    ((Condition.conflicts budget met).poll raised).1 = true ↔ budget ≤ met := by
  simp [poll]

theorem poll_clock (raised : Nat → Bool) (ticks : Nat) :
    ((Condition.clock ticks).poll raised).1 = true ↔ ticks = 0 := by
  cases ticks <;> simp [poll]

theorem poll_either (raised : Nat → Bool) (c d : Condition) :
    ((Condition.either c d).poll raised).1 = ((c.poll raised).1 || (d.poll raised).1) := by
  cases h : c.poll raised with
  | mk stop c' => cases stop <;> simp [poll, h]

end Condition

/-- A condition together with the flags it looks at. -/
structure Supervisor where
  flags : Array Bool
  condition : Condition
  deriving Repr

namespace Supervisor

def isRaised (s : Supervisor) (i : Nat) : Bool := s.flags[i]?.getD false

def raise (i : Nat) (s : Supervisor) : Supervisor :=
  { s with flags := s.flags.setIfInBounds i true }

instance : Termination Supervisor where
  poll s :=
    let (stop, condition) := s.condition.poll s.isRaised
    (stop, { s with condition })
  onConflict s := { s with condition := s.condition.onConflict }

end Supervisor

/-- What ends a query: a request to stop, or its budget. -/
structure QueryLimit where
  stopRequested : Bool
  budget : Condition
  deriving Repr

instance : Termination QueryLimit where
  poll limit :=
    if limit.stopRequested then (true, limit)
    else
      let (stop, budget) := limit.budget.poll fun _ => false
      (stop, { limit with budget })
  onConflict limit := { limit with budget := limit.budget.onConflict }

end ClauseLearning
