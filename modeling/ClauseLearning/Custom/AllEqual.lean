import ClauseLearning.Custom.Script

/-!
# All literals are equal

The first literal with a value gives its value to all. Once that happens at the root there is
nothing left to watch for, and the constraint takes its watches back.
-/

namespace ClauseLearning

structure AllEqual where
  literals : List Literal
  /-- How often the constraint was notified. -/
  numFired : Nat
  /-- The sum of the levels of what it was notified of. -/
  levelSum : Nat
  deriving DecidableEq, Repr

namespace AllEqual

def ofLiterals (ls : List Literal) : AllEqual := ⟨ls, 0, 0⟩

/-- Each literal followed by its negation. -/
def bothPolarities (ls : List Literal) : List Literal := ls.flatMap fun l => [l, -l]

/-- The literals, or their negations. -/
def oriented (positive : Bool) (ls : List Literal) : List Literal :=
  if positive then ls else ls.map (-·)

def attach (c : AllEqual) : Script (Bool × AllEqual) :=
  Script.watchAll (bothPolarities c.literals) <| .look fun a =>
    match c.literals.find? fun l => !a.isUnassigned l with
    | none => .done (true, c)
    | some l =>
      Script.enqueueAll (fun ok => .done (ok, c)) (oriented (a.isSatisfied l) c.literals)

def propagate (c : AllEqual) (p : Literal) : Script (Bool × AllEqual) :=
  .look fun a =>
    let c := { c with numFired := c.numFired + 1, levelSum := c.levelSum + a.levelOf p.var }
    let isRoot := a.decisionLevel == 0
    Script.enqueueAll (fun consistent =>
      if consistent && isRoot then
        Script.unwatchAll (bothPolarities (c.literals.filter fun l => l.var ≠ p.var))
          (.done (consistent, c))
      else .watch p (.done (consistent, c)))
      (oriented (c.literals.contains p) c.literals)

/-- The oldest literal with a value forces the others; two different values are a conflict. -/
def reason (c : AllEqual) (a : Assignment) (p : Option Literal) : List Literal :=
  let assigned := a.sortByPosition (c.literals.filter fun l => !a.isUnassigned l)
  match p with
  | some _ => ((assigned.head?.bind fun l => a.satisfiedLiteral? l.var).map (-·)).toList
  | none =>
    ((assigned.find? a.isSatisfied).map (-·)).toList ++ (assigned.find? a.isFalsified).toList

instance : CustomConstraint AllEqual where
  literals := AllEqual.literals
  attach := attach
  propagate := propagate
  reason := reason
  undo c _ := c
  isSatisfied c a := c.literals.all a.isSatisfied || c.literals.all a.isFalsified

end AllEqual

end ClauseLearning
