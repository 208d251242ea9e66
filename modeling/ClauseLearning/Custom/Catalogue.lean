import ClauseLearning.Custom.AllEqual
import ClauseLearning.Custom.AtMostOne
import ClauseLearning.Custom.LazyClause

/-!
# A catalogue of constraints

The constraints that this library has beside its own kinds, as one type, so that a session can hold
them side by side.
-/

namespace ClauseLearning

inductive Catalogue
  | atMostOne (c : AtMostOne)
  | lazyClause (c : LazyClause)
  | allEqual (c : AllEqual)
  deriving DecidableEq, Repr

namespace Catalogue

/-- The constraint over literals that are given as signed numbers. -/
def atMostOneOf (ns : List Int) : Except Literal.Error Catalogue := do
  return .atMostOne (.ofLiterals (← ns.mapM Literal.ofDimacs))

def lazyClauseOf (ns : List Int) (trigger : Int) : Except Literal.Error Catalogue := do
  return .lazyClause (.ofLiterals (← ns.mapM Literal.ofDimacs) (← Literal.ofDimacs trigger))

def allEqualOf (ns : List Int) : Except Literal.Error Catalogue := do
  return .allEqual (.ofLiterals (← ns.mapM Literal.ofDimacs))

instance : CustomConstraint Catalogue where
  literals
    | .atMostOne c => CustomConstraint.literals c
    | .lazyClause c => CustomConstraint.literals c
    | .allEqual c => CustomConstraint.literals c
  attach
    | .atMostOne c => (CustomConstraint.attach c).map fun e => (e.1, .atMostOne e.2)
    | .lazyClause c => (CustomConstraint.attach c).map fun e => (e.1, .lazyClause e.2)
    | .allEqual c => (CustomConstraint.attach c).map fun e => (e.1, .allEqual e.2)
  propagate
    | .atMostOne c, p => (CustomConstraint.propagate c p).map fun e => (e.1, .atMostOne e.2)
    | .lazyClause c, p => (CustomConstraint.propagate c p).map fun e => (e.1, .lazyClause e.2)
    | .allEqual c, p => (CustomConstraint.propagate c p).map fun e => (e.1, .allEqual e.2)
  reason
    | .atMostOne c => CustomConstraint.reason c
    | .lazyClause c => CustomConstraint.reason c
    | .allEqual c => CustomConstraint.reason c
  undo
    | .atMostOne c, p => .atMostOne (CustomConstraint.undo c p)
    | .lazyClause c, p => .lazyClause (CustomConstraint.undo c p)
    | .allEqual c, p => .allEqual (CustomConstraint.undo c p)
  isSatisfied
    | .atMostOne c => CustomConstraint.isSatisfied c
    | .lazyClause c => CustomConstraint.isSatisfied c
    | .allEqual c => CustomConstraint.isSatisfied c

end Catalogue

end ClauseLearning
