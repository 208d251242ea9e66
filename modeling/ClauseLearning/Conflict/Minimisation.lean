import ClauseLearning.Constraint.Arena
import ClauseLearning.Options
import Std.Data.HashMap
import Std.Data.HashSet

/-!
# Shrinking learned clauses

A literal of a learned clause can go if the rest of the clause implies it. The simple rule looks one
step back: every literal of the reason was seen during the analysis or is a root fact. The expensive
rule follows reasons as far as they go, until every path has met a literal of the clause or a root
fact; what was found out about a variable is kept in a label.
-/

namespace ClauseLearning

/-- What is known of a variable on the paths back from the clause. -/
inductive Label
  /-- In the clause, and not yet followed back. -/
  | pending
  /-- Some path ends outside of the clause. -/
  | poison
  /-- Every path ends in the clause or at the root. -/
  | removable
  /-- In the clause, and not implied by the rest. -/
  | keep
  deriving DecidableEq, Repr

/-- The tables of the expensive rule; both are empty between two clauses. -/
structure Minimiser where
  labels : Std.HashMap Nat Label
  /-- The levels that occur in the clause. -/
  levels : Std.HashSet Nat

namespace Minimiser

variable {κ : Type} [CustomConstraint κ]

/-- Paths are followed back over at most this many variables. -/
def maxDepth : Nat := 500

def empty : Minimiser := ⟨∅, ∅⟩

/-- Labels one literal of the clause. -/
def enter (a : Assignment) (l : Literal) : Minimiser → Minimiser
  | ⟨labels, levels⟩ =>
    let v := l.var
    let level := a.levelOf v
    let isFixed := level == a.decisionLevel || (a.reason? v).isNone
    ⟨labels.insert v (if isFixed then .keep else .pending), levels.insert level⟩

def ofClause (a : Assignment) (ls : List Literal) (m : Minimiser) : Minimiser :=
  ls.foldl (fun m l => m.enter a l) m

/-- Follows the literals of a reason back in order; true as soon as one is poison. -/
def anyPoison (a : Assignment)
    (label : Nat → Minimiser → Except Fault (Label × Minimiser)) :
    List Literal → Minimiser → Except Fault (Bool × Minimiser)
  | [], m => .ok (false, m)
  | l :: ls, m =>
    if a.levelOf l.var = 0 then anyPoison a label ls m
    else do
      let (found, m) ← label l.var m
      if found = .poison then return (true, m)
      else anyPoison a label ls m

/-- The label that the reason of a variable gives it, where `label` labels what is behind it. -/
def ofReason (s : Arena κ) (a : Assignment)
    (label : Nat → Minimiser → Except Fault (Label × Minimiser)) (v : Nat) (m : Minimiser) :
    Except Fault (Label × Minimiser) := do
  match ← s.reasonOf a v with
  | none => return (.poison, m)
  | some reason =>
    if m.levels.contains (a.levelOf v) then
      let (isPoisoned, m) ← anyPoison a label reason m
      if isPoisoned then
        let isPending := m.labels[v]? == some .pending
        return (if isPending then .keep else .poison, m)
      else return (.removable, m)
    else return (.poison, m)

/-- The label of a variable, found by following at most so many variables back. -/
def label (s : Arena κ) (a : Assignment) :
    Nat → Nat → Minimiser → Except Fault (Label × Minimiser)
  | depth, v, m =>
    match m.labels[v]? with
    | some .poison => .ok (.poison, m)
    | some .removable => .ok (.removable, m)
    | some .keep => .ok (.keep, m)
    | _ => do
      let (found, m) ←
        match depth with
        | 0 => .ok (.poison, m)
        | depth + 1 => ofReason s a (label s a depth) v m
      match m with
      | ⟨labels, levels⟩ => return (found, ⟨labels.insert v found, levels⟩)

/-- The literals of the clause that are not removable, in order. -/
def removeLabelled (s : Arena κ) (a : Assignment) :
    List Literal → Minimiser → Except Fault (List Literal × Minimiser)
  | [], m => .ok ([], m)
  | l :: ls, m => do
    let (found, m) ← label s a maxDepth l.var m
    let (kept, m) ← removeLabelled s a ls m
    return (if found = .poison ∨ found = .keep then l :: kept else kept, m)

/-- Removes the literals that the rest of the clause implies. -/
def removeImplied (s : Arena κ) (a : Assignment) (ls : List Literal) (m : Minimiser) :
    Except Fault (List Literal × Minimiser) := do
  let (kept, _) ← removeLabelled s a ls (m.ofClause a ls)
  return (kept, empty)

end Minimiser

/-- Removes, behind the first literal, those whose reason was seen as a whole. -/
def removeSeen {κ : Type} [CustomConstraint κ] (s : Arena κ) (a : Assignment)
    (isSeen : Nat → Bool) : List Literal → Except Fault (List Literal)
  | [] => .ok []
  | l :: ls => do
    let kept ← ls.filterM fun l => do
      match ← s.reasonOf a l.var with
      | none => return true
      | some reason => return !reason.all fun m => isSeen m.var || a.levelOf m.var == 0
    return l :: kept

end ClauseLearning
