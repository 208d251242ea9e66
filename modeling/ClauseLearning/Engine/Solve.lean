import ClauseLearning.Engine.Basic
import ClauseLearning.Termination

/-!
# The search

A search goes from stage to stage: it propagates, learns from a conflict, or decides. Before every
stage it asks its termination condition. At a decision the assumptions come first, each on a level
of its own; then the variables in their order. When nothing is left to decide and some constraint is
still open, which happens under a restriction only, the current decisions are forbidden.

The number of stages is limited by an argument. A search that is not cut off by it gives the same
answer under every larger limit (`run_add`).
-/

namespace ClauseLearning

/-- How a search ends. -/
inductive Outcome
  /-- The assignment satisfies every constraint. -/
  | satisfiable
  | unsatisfiable
  /-- The constraints contradict these assumptions. -/
  | unsatisfiableUnder (core : List Literal)
  | budgetExceeded
  /-- The restriction of decisions left the question open. -/
  | inconclusive
  deriving DecidableEq, Repr

/-- What a search does next. -/
inductive Stage
  | propagating
  | deciding
  | conflict (r : Reference)
  deriving DecidableEq, Repr

/-- Tells a condition about the conflict that a stage handles, if it handles one. -/
def Stage.announce {τ : Type} [Termination τ] (limit : τ) : Stage → τ
  | .conflict _ => Termination.onConflict limit
  | _ => limit

namespace Engine

variable {κ : Type} [CustomConstraint κ]

/-! ## Learning -/

/-- Makes a learned literal a root fact. -/
def learnUnit (l : Literal) (numAssigned : Nat) : Engine κ → Except Fault (Engine κ)
  | ⟨search, analyser, control⟩ => do
    let control := control.count fun s => { s with unitsLearned := s.unitsLearned + 1 }
    let control := { control with restarts := control.restarts.onLearned 1 numAssigned }
    let search ← search.backtrack 0
    return ⟨(search.enqueue l).2, analyser, control⟩

/-- Goes back to a level and attaches a learned clause, which forces its first literal there. -/
def learnClause (k : Clause) (level numAssigned : Nat) : Engine κ → Except Fault (Engine κ)
  | ⟨⟨board, arena, learned, order, head⟩, analyser, control⟩ => do
    let (age, learned) := learned.nextAge
    let (lbd, learned) := learned.measure board.assignment k.literals
    let control := control.count fun s => { s with lbd := s.lbd.add lbd }
    let control := { control with restarts := control.restarts.onLearned lbd numAssigned }
    let search ← SearchState.backtrack level ⟨board, arena, learned, order, head⟩
    return ⟨search.learn k (.learnedAt age) lbd, analyser, control⟩

/-- Lets the activities of variables and clauses fade. -/
def decay : Engine κ → Engine κ
  | ⟨⟨board, arena, learned, order, head⟩, analyser, control⟩ =>
    ⟨⟨board, arena, learned.decay, order.decay, head⟩, analyser, control⟩

/-- The highest level of some literals. -/
def highestLevel (a : Assignment) (ls : List Literal) : Nat :=
  ls.foldl (fun n l => max n (a.levelOf l.var)) 0

/-- Learns a clause from a violated constraint and goes back. False if the conflict is at the root.
A constraint from outside may report a conflict that is entirely below the current level. -/
def resolveConflict (r : Reference) : Engine κ → Except Fault (Bool × Engine κ)
  | ⟨search, analyser, control⟩ => do
    let c ← search.arena.get r
    let level := highestLevel search.assignment (c.reason search.assignment none)
    if level = 0 then return (false, ⟨search, analyser, control⟩)
    match ← search.backtrack level with
    | ⟨board, arena, learned, order, head⟩ =>
      match ← analyser.analyse r board.assignment order learned arena with
      | ⟨clause, numRemoved, analyser, order, learned, arena⟩ =>
        let distance := board.assignment.decisionLevel - clause.backjumpLevel
        let numAssigned := board.assignment.trail.size
        let control := control.count fun s => { s with
          removedLiterals := s.removedLiterals.add numRemoved
          learnedLength := s.learnedLength.add clause.literals.length
          backtrack := s.backtrack.add distance }
        let control := control.report (.learned clause.literals)
        let e : Engine κ := ⟨⟨board, arena, learned, order, head⟩, analyser, control⟩
        match clause.literals with
        | [] => throw .noOpenLiteral
        | [l] => return (true, (← e.learnUnit l numAssigned).decay)
        | l :: m :: ls =>
          return (true, (← e.learnClause ⟨l, m, ls⟩ clause.backjumpLevel numAssigned).decay)

/-- The outcome of a conflict at the root. -/
def rootConflict (e : Engine κ) : Except Fault (Outcome × Engine κ) := do
  let e ← e.backtrack 0
  if e.control.restricted then return (.inconclusive, e)
  let e := e.modifyControl fun c => { c.report .rootConflict with infeasible := true }
  return (.unsatisfiable, e)

/-! ## Deciding -/

/-- Opens a level with a literal. -/
def decideOn (l : Literal) : Engine κ → Engine κ
  | ⟨search, analyser, control⟩ => ⟨(search.openLevel.enqueue l).2, analyser, control⟩

/-- The outcome if an assumption is false. -/
def failAssumption (l : Literal) : Engine κ → Except Fault (Outcome × Engine κ)
  | ⟨search, ⟨minimisation, seen, minimiser⟩, control⟩ => do
    let (core, seen) ← unsatCore search.arena search.assignment l seen
    let search ← search.backtrack 0
    let outcome := if control.restricted then .inconclusive else .unsatisfiableUnder core
    return (outcome, ⟨search, ⟨minimisation, seen, minimiser⟩, control⟩)

/-- The negated first literals of the levels from `n` down to 1, where a level has one. -/
def blockingClause (a : Assignment) : Nat → List Literal
  | 0 => []
  | n + 1 =>
    match (a.literalsOfLevel (n + 1)).head? with
    | some l => -l :: blockingClause a n
    | none => blockingClause a n

/-- Forbids the decisions above the assumptions. A single decision is forbidden at the root. -/
def blockDecisions : Engine κ → Except Fault (Option Outcome × Engine κ)
  | ⟨search, analyser, control⟩ => do
    let level := search.decisionLevel
    if level ≤ control.assumptions.length then
      return (some .inconclusive, ⟨← search.backtrack 0, analyser, control⟩)
    let blocking := blockingClause search.assignment level
    let control := { control.report (.blocking blocking) with restricted := true }
    match blocking with
    | l :: m :: ls =>
      match ← search.backtrack (level - 1) with
      | ⟨board, arena, learned, order, head⟩ =>
        let (age, learned) := learned.nextAge
        let search : SearchState κ := ⟨board, arena, learned, order, head⟩
        let search := search.learn ⟨l, m, ls⟩ (.blockingAt age) blocking.length
        return (none, ⟨search, analyser, control⟩)
    | [l] =>
      let search ← search.backtrack 0
      return (none, ⟨(search.enqueue l).2, analyser, control⟩)
    | [] => throw .noOpenLiteral

/-- Decides a variable; the outcome if there is none to decide and all is settled. -/
def decideVariable : Engine κ → Except Fault (Option Outcome × Engine κ)
  | ⟨⟨board, arena, learned, order, head⟩, analyser, control⟩ => do
    match order.nextDecision board.assignment with
    | (some l, order) =>
      let control := control.count fun s => { s with decisions := s.decisions + 1 }
      return (none, decideOn l ⟨⟨board, arena, learned, order, head⟩, analyser, control⟩)
    | (none, order) =>
      let search : SearchState κ := ⟨board, arena, learned, order, head⟩
      if search.trailLength = search.numVariables ∨ search.isSatisfied then
        return (some .satisfiable, ⟨search, analyser, control⟩)
      blockDecisions ⟨search, analyser, control⟩

/-- Makes the assumptions true in order, up to one that has to be propagated first. An assumption
that is true already gets a level all the same. -/
def assume : List Literal → Engine κ → Except Fault (Option Outcome × Engine κ)
  | [], e => e.decideVariable
  | l :: ls, e =>
    if e.search.assignment.isSatisfied l then assume ls (e.modifySearch (·.openLevel))
    else if e.search.assignment.isFalsified l then do
      let (outcome, e) ← e.failAssumption l
      return (some outcome, e)
    else .ok (none, e.decideOn l)

/-- Makes the next decision, or gives the outcome. -/
def decide (e : Engine κ) : Except Fault (Option Outcome × Engine κ) :=
  e.assume (e.control.assumptions.drop e.search.decisionLevel)

/-! ## Upkeep -/

/-- Deletes what new root facts satisfy. -/
def simplifyIfDue (e : Engine κ) : Except Fault (Engine κ) := do
  if e.search.decisionLevel = 0 ∧ e.control.options.simplify ∧
      e.control.simplifiedAt < e.search.trailLength then
    match e with
    | ⟨search, analyser, control⟩ =>
      let (n, search) ← search.simplify
      let control := control.count fun s => { s with simplified := s.simplified + n }
      return ⟨search, analyser, { control with simplifiedAt := search.trailLength }⟩
  else return e

/-- Forgets learned clauses if the timer calls for it. -/
def reduceIfDue (e : Engine κ) : Except Fault (Engine κ) := do
  let (isDue, timers) := e.control.timers.takeFired e.control.reduceTimer
  if isDue then
    match e with
    | ⟨⟨board, arena, learned, order, head⟩, analyser, control⟩ =>
      let (rs, learned) ← learned.reduce arena board.assignment
      let control := { control with timers }.count fun s => { s with
        reductions := s.reductions + 1
        deleted := s.deleted + rs.length }
      let control := control.report (.reduced rs.length learned.references.size)
      let search : SearchState κ := ⟨board, arena, learned, order, head⟩
      return ⟨search.delete rs, analyser, control⟩
  else return e

/-- Goes back to the root if the policy asks for it and there is something but assumptions to give
up. -/
def restartIfDue (e : Engine κ) : Except Fault (Engine κ) := do
  if e.control.restarts.shouldRestart ∧
      e.control.assumptions.length < e.search.decisionLevel then
    match e with
    | ⟨search, analyser, control⟩ =>
      let control := control.count fun s => { s with restarts := s.restarts + 1 }
      let control := control.report (.restart control.statistics.conflicts)
      let search ← search.backtrack 0
      return ⟨search, analyser, { control with restarts := control.restarts.onRestart }⟩
  else return e

/-! ## The loop -/

/-- Counts a conflict for everyone who counts conflicts. -/
def countConflict (e : Engine κ) : Engine κ :=
  e.modifyControl fun c => { c with
    statistics := { c.statistics with conflicts := c.statistics.conflicts + 1 }
    timers := c.timers.tick
    restarts := c.restarts.onConflict }

/-- Carries a stage out; the outcome, or the next stage. -/
def step : Stage → Engine κ → Except Fault (Except Outcome Stage × Engine κ)
  | .propagating, e => do
    let (conflict, e) ← e.propagate
    return (.ok ((conflict.map Stage.conflict).getD .deciding), e)
  | .conflict r, e => do
    let (resolved, e) ← e.countConflict.resolveConflict r
    if resolved then return (.ok .propagating, e)
    let (outcome, e) ← e.rootConflict
    return (.error outcome, e)
  | .deciding, e => do
    let e ← e.simplifyIfDue
    let e ← e.reduceIfDue
    let e ← e.restartIfDue
    match ← e.decide with
    | (none, e) => return (.ok .propagating, e)
    | (some outcome, e) => return (.error outcome, e)

/-- Goes through at most so many stages. -/
def run {τ : Type} [Termination τ] :
    Nat → Stage → τ → Engine κ → Except Fault (Outcome × τ × Engine κ)
  | 0, _, _, _ => .error .outOfSteps
  | n + 1, stage, limit, e => do
    match Termination.poll limit with
    | (true, limit) =>
      let e ← (e.report .searchStopped).backtrack 0
      return (.budgetExceeded, limit, e)
    | (false, limit) =>
      let limit := stage.announce limit
      match ← e.step stage with
      | (.error outcome, e) => return (outcome, limit, e)
      | (.ok stage, e) => run n stage limit e

/-- How many stages a search may go through. -/
def maxStages : Nat := 0x1000000000000000

/-- Searches for an assignment that satisfies every constraint and the assumptions. -/
def solve {τ : Type} [Termination τ] (assumptions : List Literal) (limit : τ) (e : Engine κ) :
    Except Fault (Outcome × τ × Engine κ) := do
  if e.control.infeasible then return (.unsatisfiable, limit, e)
  let e ← e.backtrack 0
  let e := e.modifyControl fun c => { c with assumptions }
  let e := e.grow (Description.maxVariable assumptions)
  run maxStages .propagating limit e

/-- The assignment as a list, completed with the preferred literals of the other variables. -/
def model : Engine κ → List Literal × Engine κ
  | ⟨search, analyser, control⟩ =>
    let (ls, search) := search.model
    (ls, ⟨search, analyser, control⟩)

/-- An answer stays the same when more stages are allowed. -/
theorem run_add {τ : Type} [Termination τ] {n : Nat} {stage : Stage} {limit : τ} {e : Engine κ}
    {answer : Outcome × τ × Engine κ} (h : run n stage limit e = .ok answer) (m : Nat) :
    run (n + m) stage limit e = .ok answer := by
  induction n generalizing stage limit e with
  | zero => cases h
  | succ n ih =>
    rw [Nat.succ_add]
    unfold run at h ⊢
    split
    · next limit' hpoll =>
      simp only [hpoll] at h
      exact h
    · next limit' hpoll =>
      simp only [hpoll] at h
      cases hstep : e.step stage with
      | error fault => simp [hstep, bind, Except.bind] at h
      | ok result =>
        obtain ⟨next, e'⟩ := result
        simp only [hstep, bind, Except.bind] at h ⊢
        cases next with
        | error outcome => exact h
        | ok stage' => exact ih h

end Engine

end ClauseLearning
