import ClauseLearning.Constraint.Clause

/-!
# Parity constraints

An odd (or even) number of distinct variables is true. The first two variables are watched in both
polarities; once every variable but the first has a value, the first one is forced.
-/

namespace ClauseLearning

structure Parity where
  first : Nat
  second : Nat
  rest : List Nat
  /-- Whether the number of true variables is odd. -/
  odd : Bool
  deriving DecidableEq, Repr

namespace Parity

def vars (c : Parity) : List Nat := c.first :: c.second :: c.rest

/-- The positive literals of the variables. -/
def literals (c : Parity) : List Literal := c.vars.map (Literal.make · true)

/-- Watches a variable in both polarities. -/
def watchBoth (r : Reference) (v : Nat) (b : Board) : Board :=
  let l := Literal.make v true
  (b.watch r l none).watch r (-l) none

def attach (r : Reference) (c : Parity) (b : Board) : Board :=
  watchBoth r c.second (watchBoth r c.first b)

/-- Puts the variable that was assigned second. -/
def faceAssigned (v : Nat) (c : Parity) : Parity :=
  if c.first = v then { c with first := c.second, second := c.first } else c

/-- The literal of the first variable that the values of the others leave. -/
def implied (a : Assignment) (c : Parity) : Literal :=
  let numTrue := (c.second :: c.rest).countP fun v => a.isSatisfied (Literal.make v true)
  Literal.make c.first (c.odd != (numTrue % 2 == 1))

/-- Called when the watched literal `p` became true. -/
def propagate (r : Reference) (p : Literal) (c : Parity) (b : Board) : Bool × Parity × Board :=
  let c := c.faceAssigned p.var
  match Clause.exchange? (fun v => !b.assignment.isAssigned v) c.second c.rest with
  | some (v, rest) =>
    -- The list of `p` is being visited and loses this watcher by itself.
    (true, { c with second := v, rest := rest }, watchBoth r v (b.unwatch r (-p)))
  | none =>
    let l := c.implied b.assignment
    let (ok, b) := (b.watch r p none).enqueue (some r) l
    (ok, c, b)

/-- The false literals of the assigned variables other than the explained one. -/
def reason (a : Assignment) (c : Parity) (p : Option Literal) : List Literal :=
  c.vars.filterMap fun v =>
    if p.any (·.var == v) then none else (a.satisfiedLiteral? v).map (-·)

def isSatisfied (a : Assignment) (c : Parity) : Bool :=
  c.vars.all a.isAssigned &&
    (c.vars.countP (fun v => a.isSatisfied (Literal.make v true)) % 2 == 1) == c.odd

end Parity

end ClauseLearning
