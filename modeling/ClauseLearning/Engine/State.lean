import ClauseLearning.Constraint.Normal
import ClauseLearning.Decision.Order
import ClauseLearning.Learned.Database

/-!
# The state of the search

The board, the arena of constraints, the database of learned clauses and the order of decisions,
together with the position up to which the trail was propagated. This module holds what changes
them together: taking back assignments, notifying constraints, and deleting constraints.

Every function takes the state apart before it changes a part of it.

* `decisionLevel_openLevel`: opening a level opens one level.
-/

namespace ClauseLearning

structure SearchState (κ : Type) where
  board : Board
  arena : Arena κ
  learned : LearnedDatabase
  order : DecisionOrder Generator
  /-- The position of the next literal on the trail to notify of. -/
  head : Nat

namespace SearchState

variable {κ : Type} [CustomConstraint κ]

def make (o : Options) : SearchState κ :=
  ⟨.empty, .empty, .make o.learning, .make o.activityDecay o.randomFrequency o.seed o.phase, 0⟩

def assignment (s : SearchState κ) : Assignment := s.board.assignment

def trailLength (s : SearchState κ) : Nat := s.board.assignment.trail.size

def numVariables (s : SearchState κ) : Nat := s.board.assignment.numVariables

def decisionLevel (s : SearchState κ) : Nat := s.board.assignment.decisionLevel

/-- Makes room for variables `1..n`. -/
def grow (n : Nat) : SearchState κ → SearchState κ
  | ⟨board, arena, learned, order, head⟩ => ⟨board.grow n, arena, learned, order.grow n, head⟩

def modifyBoard (f : Board → Board) : SearchState κ → SearchState κ
  | ⟨board, arena, learned, order, head⟩ => ⟨f board, arena, learned, order, head⟩

def openLevel (s : SearchState κ) : SearchState κ :=
  s.modifyBoard fun ⟨assignment, watches⟩ => ⟨assignment.openLevel, watches⟩

/-- Makes a literal true without a reason; false if it is false already. -/
def enqueue (l : Literal) : SearchState κ → Bool × SearchState κ
  | ⟨board, arena, learned, order, head⟩ =>
    let (ok, board) := board.enqueue none l
    (ok, ⟨board, arena, learned, order, head⟩)

/-! ## Taking assignments back -/

/-- Tells the constraints in order that the literal `l` lost its value. -/
def undoAll (l : Literal) (rs : List Reference) (arena : Arena κ) : Except Fault (Arena κ) :=
  rs.foldlM (fun arena r => do
    let c ← arena.get r
    let c ← c.undo l
    return arena.set r c) arena

/-- Takes back the newest `n` assignments. -/
def undoNewest : Nat → Board → Arena κ → DecisionOrder Generator →
    Except Fault (Board × Arena κ × DecisionOrder Generator)
  | 0, board, arena, order => .ok (board, arena, order)
  | n + 1, ⟨assignment, watches⟩, arena, order =>
    match assignment.newest? with
    | none => .ok (⟨assignment, watches⟩, arena, order)
    | some l => do
      let assignment := assignment.unassign l
      let (rs, watches) := watches.takeUndos l.var
      let arena ← undoAll l rs arena
      undoNewest n ⟨assignment, watches⟩ arena (order.onUnassign l)

/-- Goes back to the end of a level; a level that is not open is left alone. -/
def backtrack (level : Nat) : SearchState κ → Except Fault (SearchState κ)
  | ⟨board, arena, learned, order, head⟩ => do
    if board.assignment.decisionLevel ≤ level then
      return ⟨board, arena, learned, order, head⟩
    let n := board.assignment.trail.size - board.assignment.startOfLevel (level + 1)
    match ← undoNewest n board arena order with
    | (⟨assignment, watches⟩, arena, order) =>
      let assignment := assignment.closeLevels level
      let head := assignment.trail.size
      return ⟨⟨assignment, watches⟩, arena, learned, order, head⟩

/-- Takes back the root facts beyond the first `checkpoint`. -/
def backtrackRoot (checkpoint : Nat) : SearchState κ → Except Fault (SearchState κ)
  | ⟨board, arena, learned, order, _⟩ => do
    if board.assignment.decisionLevel ≠ 0 then throw .aboveRoot
    let (board, arena, order) ←
      undoNewest (board.assignment.trail.size - checkpoint) board arena order
    let head := board.assignment.trail.size
    return ⟨board, arena, learned, order, head⟩

/-! ## Propagation -/

/-- Notifies a constraint that `p` became true; false on a conflict. A learned clause that adds to
the first `numAssigned` literals of the trail is measured again. -/
def visit (p : Literal) (r : Reference) (numAssigned : Nat) :
    SearchState κ → Except Fault (Bool × SearchState κ)
  | ⟨board, arena, learned, order, head⟩ => do
    let c ← arena.get r
    match c.propagate r p board with
    | (false, c, board) => return (false, ⟨board, arena.set r c, learned, order, head⟩)
    | (true, c, board) =>
      if numAssigned < board.assignment.trail.size ∧ c.metadata.learned then
        let (c, learned) := learned.onPropagation board.assignment c
        return (true, ⟨board, arena.set r c, learned, order, head⟩)
      else return (true, ⟨board, arena.set r c, learned, order, head⟩)

/-- Notifies the watchers of a true literal in order, up to the first conflict. Watchers with a true
blocker are kept unseen, and those behind a conflict are kept for later. -/
def notify (p : Literal) :
    List Watcher → SearchState κ → Except Fault (Option Reference × SearchState κ)
  | [], s => .ok (none, s)
  | w :: ws, s =>
    if w.blocker.any s.assignment.isSatisfied then
      notify p ws (s.modifyBoard (·.watch w.constraint p w.blocker))
    else do
      match ← visit p w.constraint s.trailLength s with
      | (true, s) => notify p ws s
      | (false, s) =>
        return (some w.constraint, s.modifyBoard fun
          | ⟨assignment, watches⟩ => ⟨assignment, watches.append p ws⟩)

/-- Notifies of the literals on the trail, of at most so many. -/
def propagateSteps : Nat → SearchState κ → Except Fault (Option Reference × SearchState κ)
  | 0, _ => .error .outOfSteps
  | n + 1, ⟨⟨assignment, watches⟩, arena, learned, order, head⟩ =>
    match assignment.trail[head]? with
    | none => .ok (none, ⟨⟨assignment, watches⟩, arena, learned, order, head⟩)
    | some p => do
      let (ws, watches) := watches.takeWatchers p
      match ← notify p ws ⟨⟨assignment, watches⟩, arena, learned, order, head + 1⟩ with
      | (none, s) => propagateSteps n s
      | (some r, ⟨board, arena, learned, order, _⟩) =>
        let head := board.assignment.trail.size
        return (some r, ⟨board, arena, learned, order, head⟩)

/-- Notifies of everything that is true and was not notified of. The constraint in conflict, if
there is one, ends it. The trail holds every variable at most once, which bounds the steps. -/
def propagate (s : SearchState κ) : Except Fault (Option Reference × SearchState κ) :=
  let steps := s.numVariables + 2
  propagateSteps steps s

/-! ## Constraints in and out -/

/-- Puts a constraint into the arena and lets it watch; false if it is violated. -/
def attach (c : Constraint κ) : SearchState κ → Reference × Bool × SearchState κ
  | ⟨board, arena, learned, order, head⟩ =>
    let (r, arena) := arena.allocate c
    let (ok, c, board) := c.attach r board
    (r, ok, ⟨board, arena.set r c, learned, order, head⟩)

/-- Enters a clause into the database of learned clauses, lets it watch and makes its first literal
true. -/
def learn (k : Clause) (m : Metadata) (lbd : Nat) : SearchState κ → SearchState κ
  | ⟨board, arena, learned, order, head⟩ =>
    let (r, arena) := arena.allocate ⟨.clause k, m⟩
    let (c, learned) := learned.add r lbd ⟨.clause k, m⟩
    let (_, board) := (k.attach r board).enqueue (some r) k.first
    ⟨board, arena.set r c, learned, order, head⟩

/-- Deletes constraints, none of which may be the reason of a value. -/
def delete (rs : List Reference) : SearchState κ → SearchState κ
  | ⟨⟨assignment, watches⟩, arena, learned, order, head⟩ =>
    if rs.isEmpty then ⟨⟨assignment, watches⟩, arena, learned, order, head⟩
    else
      let arena := rs.foldl (fun arena r => arena.free r) arena
      let watches := watches.purge arena.isAlive
      let learned := learned.forget arena.isAlive
      ⟨⟨assignment, watches⟩, arena.recycle rs, learned, order, head⟩

/-- Turns the root assignments into facts, so that no constraint is the reason of one. -/
def forgetReasons : SearchState κ → Except Fault (SearchState κ)
  | ⟨⟨assignment, watches⟩, arena, learned, order, head⟩ => do
    if assignment.decisionLevel ≠ 0 then throw .aboveRoot
    let trail := assignment.trail
    let assignment := trail.foldl (fun a l => a.clearReason l.var) assignment
    return ⟨⟨assignment, watches⟩, arena, learned, order, head⟩

/-- Deletes the constraints that are alive and belong to an added constraint. -/
def deleteOwned (rs : List Reference) (handle : Nat) (s : SearchState κ) :
    Except Fault (SearchState κ) := do
  let s ← s.backtrack 0
  let s ← s.forgetReasons
  let owned := rs.filter fun r =>
    (s.arena.get? r).any fun c => c.metadata.handle == some handle
  return s.delete owned

/-- Deletes every constraint that the root facts satisfy; the result counts them. -/
def simplify (s : SearchState κ) : Except Fault (Nat × SearchState κ) := do
  let s ← s.forgetReasons
  let satisfied := (s.arena.toList.filter fun e => e.2.isSatisfied s.assignment).map (·.1)
  return (satisfied.length, s.delete satisfied)

/-- Whether every constraint that was not learned is satisfied for good. -/
def isSatisfied (s : SearchState κ) : Bool :=
  s.arena.toList.all fun e => e.2.metadata.learned || e.2.isSatisfied s.assignment

/-- Forgets every constraint and assignment, and keeps the variables with their activities. -/
def clear : SearchState κ → SearchState κ
  | ⟨⟨assignment, watches⟩, _, learned, order, _⟩ =>
    ⟨⟨assignment.clear, watches.clear⟩, .empty, learned.clear, order.restoreAll, 0⟩

/-- The assignment as a list, completed with the preferred literals of the other variables. -/
def model : SearchState κ → List Literal × SearchState κ
  | ⟨board, arena, learned, order, head⟩ =>
    let unassigned := board.assignment.vars.filter fun v => !board.assignment.isAssigned v
    let (preferred, order) := unassigned.foldl (fun (ls, order) v =>
      let (l, order) := order.select v
      (l :: ls, order)) (([], order) : List Literal × DecisionOrder Generator)
    (board.assignment.trail.toList ++ preferred.reverse, ⟨board, arena, learned, order, head⟩)

omit [CustomConstraint κ] in
theorem decisionLevel_openLevel (s : SearchState κ) :
    s.openLevel.decisionLevel = s.decisionLevel + 1 := by
  cases s with
  | mk board =>
    cases board with
    | mk assignment =>
      cases assignment
      simp [openLevel, modifyBoard, decisionLevel, Assignment.openLevel, Assignment.decisionLevel]

end SearchState

end ClauseLearning
