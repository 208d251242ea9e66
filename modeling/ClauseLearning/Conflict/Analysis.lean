import ClauseLearning.Conflict.Minimisation
import ClauseLearning.Decision.Order
import ClauseLearning.Learned.Database

/-!
# Conflict analysis

The false literals of a violated constraint are resolved against the reasons of those of the current
decision level, newest first, until one literal of that level is left. Its negation and the false
literals from lower levels make the learned clause. On the way every variable that is met is bumped,
and so is every learned clause that is used.

The walk goes down the trail once, so the number of its steps is the length of the trail.

* `lastMaximum_le`: the level to go back to is the largest among the other literals.
-/

namespace ClauseLearning

/-- A learned clause. Its first literal is the one to assert; the second is of the level to go back
to. -/
structure LearnedClause where
  literals : List Literal
  backjumpLevel : Nat
  deriving DecidableEq, Repr

/-- What analyses have in common; all marks are off between two of them. -/
structure Analyser where
  minimisation : Minimisation
  /-- Per variable, whether it was met. -/
  seen : Array Bool
  minimiser : Minimiser

namespace Analyser

def make (minimisation : Minimisation) : Analyser := ⟨minimisation, #[], .empty⟩

/-- Makes room for variables `1..n`. -/
def grow (n : Nat) : Analyser → Analyser
  | ⟨minimisation, seen, minimiser⟩ =>
    ⟨minimisation, seen ++ Array.replicate (n + 1 - seen.size) false, minimiser⟩

end Analyser

/-- The state of a resolution. -/
structure Resolution (κ : Type) where
  seen : Array Bool
  /-- The variables that are marked, newest first. -/
  marked : List Nat
  /-- The literals from lower levels, in the order in which they were met. -/
  lower : Array Literal
  /-- How many literals of the current level are left. -/
  numOpen : Nat
  order : DecisionOrder Generator
  arena : Arena κ
  /-- Whether the activity of some clause got too large. -/
  needsRescale : Bool

namespace Resolution

variable {κ : Type} [CustomConstraint κ]

def isSeen (s : Resolution κ) (v : Nat) : Bool := s.seen[v]?.getD false

/-- Notes a literal of a reason, unless it was met before or is a root fact. -/
def note (a : Assignment) (l : Literal) : Resolution κ → Resolution κ
  | ⟨seen, marked, lower, numOpen, order, arena, needsRescale⟩ =>
    let v := l.var
    let level := a.levelOf v
    if seen[v]?.getD false || level == 0 then
      ⟨seen, marked, lower, numOpen, order, arena, needsRescale⟩
    else
      let seen := seen.setIfInBounds v true
      let order := order.bump v
      if level = a.decisionLevel then
        ⟨seen, v :: marked, lower, numOpen + 1, order, arena, needsRescale⟩
      else
        ⟨seen, v :: marked, lower.push l, numOpen, order, arena, needsRescale⟩

/-- Notes the literals that explain `p`, or the conflict if there is no `p`. -/
def resolve (d : LearnedDatabase) (a : Assignment) (r : Reference) (p : Option Literal)
    (s : Resolution κ) : Except Fault (Resolution κ) := do
  let c ← s.arena.get r
  let (isLarge, c) := d.onAnalysis c
  let s :=
    match s with
    | ⟨seen, marked, lower, numOpen, order, arena, needsRescale⟩ =>
      (⟨seen, marked, lower, numOpen, order, arena.set r c, needsRescale || isLarge⟩ :
        Resolution κ)
  let s : Resolution κ := (c.reason a p).foldl (fun s l => s.note a l) s
  if s.numOpen = 0 then throw .noOpenLiteral
  return s

/-- Walks down the trail and resolves on every marked literal, up to the last one of the current
level; that one is the result. -/
def descend (d : LearnedDatabase) (a : Assignment) :
    Nat → Resolution κ → Except Fault (Literal × Resolution κ)
  | 0, _ => .error .trailExhausted
  | i + 1, s =>
    match a.trail[i]? with
    | none => descend d a i s
    | some l =>
      if s.isSeen l.var then
        if s.numOpen = 1 then .ok (l, s)
        else
          match a.reason? l.var with
          | none => .error (.unexplained l)
          | some r => do
            let s ←
              match s with
              | ⟨seen, marked, lower, numOpen, order, arena, needsRescale⟩ =>
                resolve d a r (some l)
                  (⟨seen, marked, lower, numOpen - 1, order, arena, needsRescale⟩ : Resolution κ)
            descend d a i s
      else descend d a i s

end Resolution

/-- The last position of the largest number of a list, and that number. -/
def lastMaximum : List Nat → Nat × Nat
  | [] => (0, 0)
  | [n] => (0, n)
  | n :: m :: ns =>
    match lastMaximum (m :: ns) with
    | (i, largest) => if n ≤ largest then (i + 1, largest) else (0, n)

/-- Exchanges the first element of a list with another one. -/
def exchangeFirst (i : Nat) (ls : List Literal) : List Literal :=
  (ls.toArray.swapIfInBounds 0 i).toList

/-- Puts a literal of the level to go back to second. -/
def LearnedClause.ofLiterals (a : Assignment) : List Literal → LearnedClause
  | l :: m :: ls =>
    let (i, level) := lastMaximum ((m :: ls).map fun k => a.levelOf k.var)
    ⟨l :: exchangeFirst i (m :: ls), level⟩
  | ls => ⟨ls, 0⟩

/-- What an analysis leaves behind. -/
structure Lesson (κ : Type) where
  clause : LearnedClause
  /-- How many literals were removed by minimisation. -/
  numRemoved : Nat
  analyser : Analyser
  order : DecisionOrder Generator
  learned : LearnedDatabase
  arena : Arena κ

namespace Analyser

variable {κ : Type} [CustomConstraint κ]

/-- Shrinks a clause as far as the option says. -/
def minimise (arena : Arena κ) (a : Assignment) (ls : List Literal) :
    Analyser → Except Fault (List Literal × Analyser)
  | ⟨minimisation, seen, minimiser⟩ => do
    match minimisation with
    | .none => return (ls, ⟨minimisation, seen, minimiser⟩)
    | .simple =>
      let ls ← removeSeen arena a (fun v => seen[v]?.getD false) ls
      return (ls, ⟨minimisation, seen, minimiser⟩)
    | .expensive =>
      let (ls, minimiser) ← minimiser.removeImplied arena a ls
      return (ls, ⟨minimisation, seen, minimiser⟩)

/-- Takes the marks of some variables off. -/
def unmark (vs : List Nat) : Analyser → Analyser
  | ⟨minimisation, seen, minimiser⟩ =>
    ⟨minimisation, vs.foldl (fun seen v => seen.setIfInBounds v false) seen, minimiser⟩

/-- Learns a clause from a violated constraint, some of whose literals are of the current level. -/
def analyse (conflict : Reference) (a : Assignment) (analyser : Analyser)
    (order : DecisionOrder Generator)
    (learned : LearnedDatabase) (arena : Arena κ) : Except Fault (Lesson κ) := do
  if a.decisionLevel = 0 then throw .analysisAtRoot
  match analyser with
  | ⟨minimisation, seen, minimiser⟩ =>
    let start ← Resolution.resolve learned a conflict none ⟨seen, [], #[], 0, order, arena, false⟩
    match ← Resolution.descend learned a a.trail.size start with
    | (last, ⟨seen, marked, lower, _, order, arena, needsRescale⟩) =>
      let (learned, arena) ←
        if needsRescale then learned.rescale arena else pure (learned, arena)
      let unshrunk := -last :: lower.toList
      let (ls, analyser) ←
        minimise arena a unshrunk (⟨minimisation, seen, minimiser⟩ : Analyser)
      return ⟨.ofLiterals a ls, unshrunk.length - ls.length, analyser.unmark marked, order,
        learned, arena⟩

end Analyser

theorem lastMaximum_le {ns : List Nat} {n : Nat} (h : n ∈ ns) : n ≤ (lastMaximum ns).2 := by
  fun_induction lastMaximum ns with
  | case1 => simp at h
  | case2 m => simp_all
  | case3 k m ns i largest hlast hle ih =>
    rcases List.mem_cons.1 h with rfl | h
    · exact hle
    · simpa [hlast] using ih h
  | case4 k m ns i largest hlast hle ih =>
    rcases List.mem_cons.1 h with rfl | h
    · exact Nat.le_refl _
    · have := ih h
      simp only [hlast] at this
      show n ≤ k
      omega

end ClauseLearning
