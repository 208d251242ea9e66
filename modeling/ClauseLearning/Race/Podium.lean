/-!
# The podium

What the contestants of a race share. A contestant registers before it searches, and claims the
podium with its answer. The first claim ends the race, and so does an interruption; whoever wants to
register later is turned away.

* `winner_claim_of_isSome`: a winner is never replaced.
* `register_eq_none_iff`: nobody registers once the race is finished.
-/

namespace ClauseLearning

structure Podium (α : Type) where
  isFinished : Bool
  /-- The contestant that answered first, and its answer. -/
  winner : Option (Nat × α)
  /-- Those that were let in, in order. All of them are told to stop when the race is finished. -/
  registered : List Nat
  deriving Repr

namespace Podium

variable {α : Type}

def empty : Podium α := ⟨false, none, []⟩

/-- Lets a contestant in, unless the race is finished. -/
def register (i : Nat) (p : Podium α) : Option (Podium α) :=
  if p.isFinished then none else some { p with registered := p.registered ++ [i] }

/-- Takes an answer, unless there is one. -/
def claim (i : Nat) (answer : α) (p : Podium α) : Podium α :=
  if p.winner.isSome then p else { p with isFinished := true, winner := some (i, answer) }

def interrupt (p : Podium α) : Podium α := { p with isFinished := true }

/-- Whether a contestant is told to stop. -/
def isToldToStop (i : Nat) (p : Podium α) : Bool := p.isFinished && p.registered.contains i

theorem register_eq_none_iff (i : Nat) (p : Podium α) :
    p.register i = none ↔ p.isFinished = true := by
  unfold register
  split <;> simp_all

theorem winner_claim_of_isSome {i : Nat} {answer : α} {p : Podium α} (h : p.winner.isSome) :
    (p.claim i answer).winner = p.winner := by
  simp [claim, h]

theorem winner_claim_of_isNone {i : Nat} {answer : α} {p : Podium α} (h : p.winner = none) :
    (p.claim i answer).winner = some (i, answer) := by
  simp [claim, h]

end Podium

end ClauseLearning
