import ClauseLearning.Board

/-!
# Cardinality constraints

At least `degree` of the literals are true, a literal that occurs twice counting twice. Nothing is
watched lazily: every occurrence reports when it becomes false, and the constraint counts the
reports. One occurrence more than may be false is a conflict; as many as may be false force all
others. Every report asks for an undo, which takes it back.
-/

namespace ClauseLearning

structure Cardinality where
  literals : List Literal
  degree : Nat
  /-- How many occurrences were reported false and not taken back. -/
  falsified : Nat
  deriving DecidableEq, Repr

namespace Cardinality

/-- How many occurrences may be false. -/
def slack (c : Cardinality) : Nat := c.literals.length - c.degree

def attach (r : Reference) (c : Cardinality) (b : Board) : Board :=
  c.literals.foldl (fun b l => b.watch r (-l) none) b

/-- Makes every unassigned literal true. -/
def force (r : Reference) (c : Cardinality) (b : Board) : Board :=
  c.literals.foldl (fun b l =>
    if b.assignment.isUnassigned l then (b.enqueue (some r) l).2 else b) b

/-- Called when `p` became true, so that an occurrence of `-p` became false. -/
def propagate (r : Reference) (p : Literal) (c : Cardinality) (b : Board) :
    Bool × Cardinality × Board :=
  let b := (b.watch r p none).registerUndo r p.var
  let c := { c with falsified := c.falsified + 1 }
  if c.slack < c.falsified then (false, c, b)
  else if c.falsified = c.slack then (true, c, c.force r b)
  else (true, c, b)

/-- Takes one report back. -/
def undo? (c : Cardinality) : Option Cardinality :=
  if c.falsified = 0 then none else some { c with falsified := c.falsified - 1 }

/-- The false literals that were assigned before the explained one, or all of them. -/
def reason (a : Assignment) (c : Cardinality) (p : Option Literal) : List Literal :=
  let isEarlier (l : Literal) : Bool :=
    match p with
    | none => true
    | some p => decide ((a.position? l.var).getD 0 < (a.position? p.var).getD 0)
  c.literals.filter fun l => a.isFalsified l && isEarlier l

def isSatisfied (a : Assignment) (c : Cardinality) : Bool :=
  decide (c.degree ≤ c.literals.countP a.isSatisfied)

end Cardinality

end ClauseLearning
