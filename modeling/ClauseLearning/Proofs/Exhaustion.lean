import Mathlib.Algebra.Group.Nat.Defs
import ClauseLearning.Proofs.Running

/-!
# A search without restarts comes to an end

The weights of the levels, read as the digits of a number (`Assignment.score`), only ever grow in a
search that never restarts, whatever it learns, forgets or forbids. There are not more levels than
assumptions and variables, and no level is heavier than there are variables, so the number is
bounded, and so is the number of stages (`Engine.stageBound`).

* `Assignment.Rises.score_lt`: the number gets larger.
* `Engine.Reachable.height_lt`: every stage but the last one adds to the height of the search.
* `Engine.Reachable.solveWithin_total`: the search has an outcome.
-/

namespace ClauseLearning

/-! ## Conditions that never stop -/

namespace Termination

variable {τ : Type} [Termination τ]

/-- What a condition becomes in the course of a search. -/
inductive Later (limit : τ) : τ → Prop
  | refl : Later limit limit
  | poll {limit' : τ} (h : Later limit limit') : Later limit (Termination.poll limit').2
  | onConflict {limit' : τ} (h : Later limit limit') : Later limit (Termination.onConflict limit')

theorem Later.trans {a b c : τ} (h : Later a b) (h' : Later b c) : Later a c := by
  induction h' with
  | refl => exact h
  | poll _ ih => exact ih.poll
  | onConflict _ ih => exact ih.onConflict

/-- The condition does not ask to stop, now or later. -/
def Never (limit : τ) : Prop := ∀ limit', Later limit limit' → (Termination.poll limit').1 = false

namespace Never

variable {limit : τ}

/-- A condition that does not stop and that nothing changes. -/
theorem of_fixed (hpoll : Termination.poll limit = (false, limit))
    (hconflict : Termination.onConflict limit = limit) : Never limit := by
  have hsame : ∀ limit', Later limit limit' → limit' = limit := by
    intro limit' h
    induction h with
    | refl => rfl
    | poll _ ih => rw [ih, hpoll]
    | onConflict _ ih => rw [ih, hconflict]
  intro limit' h
  rw [hsame limit' h, hpoll]

theorem later (h : Never limit) {limit' : τ} (hl : Later limit limit') : Never limit' :=
  fun _ hl' => h _ (hl.trans hl')

theorem poll_eq (h : Never limit) :
    Termination.poll limit = (false, (Termination.poll limit).2) :=
  Prod.ext (h limit .refl) rfl

/-- A stage is announced to a condition after it was polled. -/
theorem announce (h : Never limit) (stage : Stage) :
    Never (stage.announce (Termination.poll limit).2) := by
  cases stage with
  | conflict r => exact h.later (.onConflict (.poll .refl))
  | propagating => exact h.later (.poll .refl)
  | deciding => exact h.later (.poll .refl)

end Never

end Termination

/-! ## Scores -/

namespace Assignment

/-- The weights of the first `n` levels as the digits of a number, the root being the most
significant one. -/
def score (base : Nat) (a : Assignment) : Nat → Nat
  | 0 => 0
  | n + 1 => score base a n * base + a.weight n

variable {a b : Assignment} {base n : Nat}

theorem score_congr (h : ∀ k < n, b.weight k = a.weight k) : b.score base n = a.score base n := by
  induction n with
  | zero => rfl
  | succ n ih =>
    rw [score, score, ih fun k hk => h k (Nat.lt_succ_of_lt hk), h n (Nat.lt_succ_self n)]

/-- A last digit makes up for no difference before it. -/
theorem digits_lt {x y u v : Nat} (hu : u < base) (hxy : x < y) : x * base + u < y * base + v :=
  calc x * base + u
      < x * base + base := Nat.add_lt_add_left hu _
    _ = (x + 1) * base := (Nat.succ_mul _ _).symm
    _ ≤ y * base := Nat.mul_le_mul_right base hxy
    _ ≤ y * base + v := Nat.le_add_right _ _

theorem score_lt_pow (h : ∀ k, a.weight k < base) : a.score base n < base ^ n := by
  induction n with
  | zero => exact Nat.one_pos
  | succ n ih => exact digits_lt (v := 0) (h n) ih

/-- The first level that differs decides. -/
theorem Rises.score_lt (h : a.Rises b) (ha : ∀ k, a.weight k < base) (hb : b.decisionLevel < n) :
    a.score base n < b.score base n := by
  obtain ⟨j, hbelow, hlt⟩ := h
  have hj : j < n := by
    have hopen : j ≤ b.decisionLevel := by
      by_contra hclosed
      rw [weight, weight, if_neg hclosed] at hlt
      exact Nat.not_lt_zero _ hlt
    omega
  clear hb
  induction n with
  | zero => exact absurd hj (Nat.not_lt_zero j)
  | succ n ih =>
    rw [score, score]
    rcases Nat.lt_succ_iff_lt_or_eq.mp hj with hjn | rfl
    · exact digits_lt (ha n) (ih hjn)
    · rw [score_congr hbelow]
      exact Nat.add_lt_add_left hlt _

/-- A level has at most as many literals as there are variables. -/
theorem weight_lt (hcon : a.Consistent) (hlay : a.Layered) (k : Nat) :
    a.weight k < a.numVariables + 2 := by
  have hwidth := a.width_le hlay k
  have hlength := hcon.length_le
  unfold weight
  split
  · omega
  · omega

end Assignment

/-! ## Heights -/

namespace Engine

variable {κ : Type}

/-- In how many stages a search without restarts comes to an end. -/
def stageBound (numVariables numAssumptions : Nat) : Nat :=
  2 * (numVariables + 2) ^ (numAssumptions + numVariables + 1)

/-- How far a search without restarts has come. -/
def height (e : Engine κ) (stage : Stage) : Nat :=
  2 * e.search.assignment.score (e.numVariables + 2)
    (e.control.assumptions.length + e.numVariables + 1) + rank stage

theorem rank_le_one (stage : Stage) : rank stage ≤ 1 := by
  cases stage <;> simp [rank]

variable [CustomConstraint κ]

namespace Reachable

variable {stage stage' : Stage} {e e' : Engine κ}

theorem weight_lt (h : Reachable (.searching stage) e) (k : Nat) :
    e.search.assignment.weight k < e.numVariables + 2 :=
  Assignment.weight_lt h.orderly.wellFormed.search.onBoard.consistent
    h.orderly.wellFormed.search.layered k

theorem decisionLevel_lt (h : Reachable (.searching stage) e) :
    e.search.decisionLevel < e.control.assumptions.length + e.numVariables + 1 := by
  have hlength : e.search.assignment.trues.length ≤ e.numVariables :=
    h.orderly.wellFormed.search.onBoard.consistent.length_le
  have hlevel : e.search.decisionLevel ≤ _ := h.orderly.fits.peopled.decisionLevel_le
  omega

theorem height_lt_stageBound (h : Reachable (.searching stage) e) :
    e.height stage < stageBound e.numVariables e.control.assumptions.length := by
  have hscore := Assignment.score_lt_pow (n := e.control.assumptions.length + e.numVariables + 1)
    h.weight_lt
  have hrank := rank_le_one stage
  unfold height stageBound
  omega

/-- Every stage that does not end the search adds to its height. -/
theorem height_lt (h : Reachable (.searching stage) e) (h' : Reachable (.searching stage') e')
    (hc : e.Carries e') (hclimbs : e.Climbs stage e' stage') :
    e.height stage < e'.height stage' := by
  have hvariables : e'.numVariables = e.numVariables := congrArg (· - 1) hc.size
  have hrank := rank_le_one stage
  unfold height
  rw [hvariables, hc.assumptions]
  rcases hclimbs with hrise | ⟨hsame, hlt⟩
  · have hlevel := h'.decisionLevel_lt
    rw [hvariables, hc.assumptions] at hlevel
    have hscore := hrise.score_lt h.weight_lt hlevel
    omega
  · rw [Assignment.score_congr fun k _ => hsame k]
    omega

end Reachable

/-! ## Searches -/

/-- Searches for an assignment, going through at most so many stages. -/
def solveWithin {τ : Type} [Termination τ] (n : Nat) (assumptions : List Literal) (limit : τ)
    (e : Engine κ) : Except Fault (Outcome × τ × Engine κ) := do
  if e.control.infeasible then return (.unsatisfiable, limit, e)
  let e ← e.backtrack 0
  run n .propagating limit (e.posed assumptions)

omit [CustomConstraint κ] in
theorem control_posed (assumptions : List Literal) (e : Engine κ) :
    (e.posed assumptions).control = { e.control with assumptions } := by
  obtain ⟨search, analyser, control⟩ := e
  unfold posed grow
  dsimp only [under, modifyControl]
  split
  · rfl
  · rfl

omit [CustomConstraint κ] in
theorem numVariables_posed (assumptions : List Literal) (e : Engine κ) :
    (e.posed assumptions).numVariables =
      max e.numVariables (Description.maxVariable assumptions) := by
  obtain ⟨search, analyser, control⟩ := e
  unfold posed grow
  dsimp only [under, modifyControl]
  split
  · rename_i hle
    exact (Nat.max_eq_left hle).symm
  · have hsize := Assignment.size_cells_grow search.assignment (Description.maxVariable assumptions)
    show (search.assignment.grow (Description.maxVariable assumptions)).cells.size - 1 =
      max (search.assignment.cells.size - 1) _
    omega

theorem solve_eq_solveWithin {τ : Type} [Termination τ] (assumptions : List Literal) (limit : τ)
    (e : Engine κ) : e.solve assumptions limit = e.solveWithin maxStages assumptions limit := rfl

namespace Reachable

variable {moment : Moment κ} {stage : Stage} {e : Engine κ} {τ : Type} [Termination τ] {limit : τ}

/-- As many stages as the height may still grow by are enough. -/
theorem run_total {n : Nat} (h : Reachable (.searching stage) e)
    (hnever : e.control.restarts = .never) (hlimit : Termination.Never limit)
    (hn : stageBound e.numVariables e.control.assumptions.length ≤ n + e.height stage) :
    Yields (run n stage limit e) fun x => x.1 ≠ .budgetExceeded := by
  induction n generalizing stage limit e with
  | zero =>
    have hlt := h.height_lt_stageBound
    omega
  | succ n ih =>
    have ho := h.orderly
    unfold run
    rw [hlimit.poll_eq]
    obtain ⟨⟨next, e'⟩, hstep, hcarry, hclimbs⟩ := Engine.step_yields ho.wellFormed ho.fits.honours
      ho.fits.known ho.fits.peopled ho.fits.at_stage
    have hsteps := step_spec ho.wellFormed ho.fits.honours ho.fits.known ho.fits.at_stage hstep
    dsimp only
    rw [hstep]
    cases next with
    | error outcome =>
      refine .ok fun hbudget => ?_
      subst hbudget
      exact hsteps.concludes _ rfl
    | ok stage' =>
      have h' : Reachable (.searching stage') e' := (h.step_yields.of_run hstep).2 stage' rfl
      have hlt := h.height_lt h' hcarry (hclimbs hnever stage' rfl)
      have hvariables : e'.numVariables = e.numVariables := congrArg (· - 1) hcarry.size
      refine ih h' (hcarry.steady hnever) (hlimit.announce stage) ?_
      rw [hvariables, hcarry.assumptions]
      omega

/-- Without restarts, a search that is not asked to stop has an outcome, and it does not depend on
how many stages it may go through as soon as these are enough. -/
theorem solveWithin_total (h : Reachable moment e)
    (hnever : e.control.options.restart.strategy = .never) {assumptions : List Literal}
    (hne : ∀ l ∈ assumptions, l.var ≠ 0) (hlimit : Termination.Never limit) :
    ∃ outcome limit' e', outcome ≠ .budgetExceeded ∧
      ∀ n, stageBound (max e.numVariables (Description.maxVariable assumptions))
      assumptions.length ≤ n →
        e.solveWithin n assumptions limit = .ok (outcome, limit', e') := by
  unfold solveWithin
  split
  · exact ⟨.unsatisfiable, limit, e, nofun, fun _ _ => rfl⟩
  · obtain ⟨e₀, hback, hrest, -, hsize⟩ := h.backtrack_yields 0
    have hposed := h.rested.posed hback hne
    have hvariables : (e₀.posed assumptions).numVariables =
        max e.numVariables (Description.maxVariable assumptions) := by
      rw [numVariables_posed]
      exact congrArg (fun n => max (n - 1) _) hsize
    have hassumptions : (e₀.posed assumptions).control.assumptions = assumptions := by
      rw [control_posed]
    have hrestarts : (e₀.posed assumptions).control.restarts = .never := by
      refine hposed.orderly.steady ?_
      rw [control_posed, ← hnever,
        ← ((Engine.backtrack_yields h.orderly.wellFormed 0).of_run hback).options]
    have hrun : Yields (run (stageBound (max e.numVariables (Description.maxVariable assumptions))
        assumptions.length) .propagating limit (e₀.posed assumptions)) fun x =>
          x.1 ≠ .budgetExceeded := by
      refine hposed.run_total hrestarts hlimit ?_
      rw [hvariables, hassumptions]
      exact Nat.le_add_right _ _
    obtain ⟨⟨outcome, limit', e'⟩, hrun, hbudget⟩ := hrun
    refine ⟨outcome, limit', e', hbudget, fun n hn => ?_⟩
    obtain ⟨m, rfl⟩ := Nat.exists_eq_add_of_le hn
    rw [hback]
    exact run_add hrun m

/-- A search with a clause and an assumption. -/
theorem solveWithin_total_of_withPair :
    ∃ (o : Options) (outcome : Outcome) (limit : QueryLimit) (e : Engine Empty),
      o.restart.strategy = .never ∧ outcome ≠ .budgetExceeded ∧
        ∀ n, 512 ≤ n → (withPair o).solveWithin n [.make 1 false] (⟨false, .never⟩ : QueryLimit) =
          .ok (outcome, limit, e) := by
  have hnever : Termination.Never (⟨false, .never⟩ : QueryLimit) := .of_fixed rfl rfl
  have hne : ∀ l ∈ [Literal.make 1 false], l.var ≠ 0 := by
    intro l hl
    cases List.mem_singleton.mp hl
    decide
  obtain ⟨outcome, limit, e, hbudget, hrun⟩ := Reachable.solveWithin_total
    (reachable_withPair { Options.standard with
      restart := { RestartOptions.standard with strategy := .never } }) rfl hne hnever
  exact ⟨_, outcome, limit, e, rfl, hbudget, hrun⟩

end Reachable

end Engine

end ClauseLearning
