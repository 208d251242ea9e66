import ClauseLearning.Generator
import ClauseLearning.Literal

/-!
# Phases

Which of its two literals a decided variable is decided to.
-/

namespace ClauseLearning

/-- The choice of a phase rule. -/
inductive PhaseRule
  | saving
  | positive
  | negative
  | random
  deriving DecidableEq, Repr

/-- A phase rule at work. -/
inductive Phase (γ : Type)
  /-- The value the variable had last, false at first. -/
  | saving (saved : Array Bool)
  | fixed (positive : Bool)
  | random (generator : γ)
  deriving Repr

namespace Phase

variable {γ : Type}

/-- Makes room for variables `1..n`. -/
def grow (n : Nat) : Phase γ → Phase γ
  | .saving saved => .saving (saved ++ Array.replicate (n + 1 - saved.size) false)
  | phase => phase

/-- Called when the true literal `l` loses its value. -/
def onUnassign (l : Literal) : Phase γ → Phase γ
  | .saving saved => .saving (saved.setIfInBounds l.var l.isPositive)
  | phase => phase

variable [RandomSource γ]

def ofRule (seed : UInt64) : PhaseRule → Phase γ
  | .saving => .saving #[]
  | .positive => .fixed true
  | .negative => .fixed false
  | .random => .random (RandomSource.ofSeed seed)

def select (v : Nat) : Phase γ → Literal × Phase γ
  | .saving saved => (Literal.make v (saved[v]?.getD false), .saving saved)
  | .fixed positive => (Literal.make v positive, .fixed positive)
  | .random generator =>
    let (positive, generator) := RandomSource.chance 0.5 generator
    (Literal.make v positive, .random generator)

theorem var_select (v : Nat) (phase : Phase γ) : (phase.select v).1.var = v := by
  cases phase <;> simp [select]

end Phase

end ClauseLearning
