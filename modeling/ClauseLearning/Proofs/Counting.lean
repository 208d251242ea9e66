import ClauseLearning.Engine.Solve
import ClauseLearning.Proofs.Propagation

/-!
# What an engine counts

Most counters are kept by the engine, next to its policies. The restarts that were blocked are
counted by the policy for restarts, which is a new one after a rebuild; so they start over then, and
this is the only way in which something that was counted is lost.

* `Statistics.Accrues`: no counter went down, and there was no rebuild.
* `Engine.add_counts`: an addition counts what it propagates and nothing else.
* `Engine.step_accrues`, `Engine.solve_accrues`: a stage of a search, and a whole one.
* `Engine.statistics_clear`: what a rebuild does to the counters.
-/

namespace ClauseLearning

namespace Statistics

/-- No counter went down, and nothing was rebuilt. -/
structure Accrues (s t : Statistics) : Prop where
  decisions : s.decisions ≤ t.decisions
  conflicts : s.conflicts ≤ t.conflicts
  restarts : s.restarts ≤ t.restarts
  blockedRestarts : s.blockedRestarts ≤ t.blockedRestarts
  propagations : s.propagations ≤ t.propagations
  reductions : s.reductions ≤ t.reductions
  simplified : s.simplified ≤ t.simplified
  rebuilds : s.rebuilds = t.rebuilds
  unitsLearned : s.unitsLearned ≤ t.unitsLearned
  deleted : s.deleted ≤ t.deleted

theorem Accrues.refl (s : Statistics) : s.Accrues s :=
  ⟨Nat.le_refl _, Nat.le_refl _, Nat.le_refl _, Nat.le_refl _, Nat.le_refl _, Nat.le_refl _,
    Nat.le_refl _, rfl, Nat.le_refl _, Nat.le_refl _⟩

theorem Accrues.trans {s t u : Statistics} (h : s.Accrues t) (h' : t.Accrues u) : s.Accrues u where
  decisions := Nat.le_trans h.decisions h'.decisions
  conflicts := Nat.le_trans h.conflicts h'.conflicts
  restarts := Nat.le_trans h.restarts h'.restarts
  blockedRestarts := Nat.le_trans h.blockedRestarts h'.blockedRestarts
  propagations := Nat.le_trans h.propagations h'.propagations
  reductions := Nat.le_trans h.reductions h'.reductions
  simplified := Nat.le_trans h.simplified h'.simplified
  rebuilds := h.rebuilds.trans h'.rebuilds
  unitsLearned := Nat.le_trans h.unitsLearned h'.unitsLearned
  deleted := Nat.le_trans h.deleted h'.deleted

/-- The counters after `n` more propagations. -/
def propagating (n : Nat) (s : Statistics) : Statistics :=
  { s with propagations := s.propagations + n }

theorem propagating_propagating (n m : Nat) (s : Statistics) :
    (s.propagating n).propagating m = s.propagating (n + m) := by
  simp only [propagating, Nat.add_assoc]

theorem accrues_propagating (n : Nat) (s : Statistics) : s.Accrues (s.propagating n) :=
  { Accrues.refl s with propagations := Nat.le_add_right _ _ }

/-- The counters right after everything was forgotten for a rebuild. -/
def rebuilt (s : Statistics) : Statistics :=
  { s with blockedRestarts := 0, rebuilds := s.rebuilds + 1 }

end Statistics

/-! ## Policies -/

namespace RestartPolicy

theorem numBlocked_onConflict (policy : RestartPolicy) :
    policy.onConflict.numBlocked = policy.numBlocked := by
  cases policy <;> rfl

theorem numBlocked_onRestart (policy : RestartPolicy) :
    policy.onRestart.numBlocked = policy.numBlocked := by
  cases policy <;> rfl

theorem numBlocked_onLearned (lbd numAssigned : Nat) (policy : RestartPolicy) :
    policy.numBlocked ≤ (policy.onLearned lbd numAssigned).numBlocked := by
  cases policy with
  | never => exact Nat.le_refl _
  | scheduled sequence sinceRestart interval => exact Nat.le_refl _
  | adaptive s =>
    simp only [onLearned, numBlocked, AdaptiveRestarts.onLearned]
    split
    · exact Nat.le_succ _
    · exact Nat.le_refl _

theorem numBlocked_ofOptions (o : RestartOptions) : (ofOptions o).numBlocked = 0 := by
  unfold ofOptions
  cases o.strategy <;> rfl

end RestartPolicy

/-- Everything that is counted, wherever it is. -/
def Control.totals (c : Control) : Statistics :=
  { c.statistics with blockedRestarts := c.restarts.numBlocked }

namespace Engine

variable {κ : Type}

theorem statistics_grow (e : Engine κ) (n : Nat) : (e.grow n).statistics = e.statistics := by
  obtain ⟨search, analyser, control⟩ := e
  unfold grow
  dsimp only
  split <;> rfl

theorem statistics_decay (e : Engine κ) : e.decay.statistics = e.statistics := rfl

theorem statistics_model (e : Engine κ) : e.model.2.statistics = e.statistics := rfl

/-- A rebuild begins with new policies, which have blocked no restart. -/
theorem statistics_clear [CustomConstraint κ] (e : Engine κ) :
    e.clear.statistics = e.statistics.rebuilt := by
  obtain ⟨search, analyser, control⟩ := e
  have hblocked := RestartPolicy.numBlocked_ofOptions control.options.restart
  simp only [clear, statistics, Statistics.rebuilt, Control.report, Control.count, Control.restart,
    hblocked]

variable [CustomConstraint κ]

theorem statistics_backtrack {level : Nat} {e e' : Engine κ} (hrun : e.backtrack level = .ok e') :
    e'.statistics = e.statistics := by
  obtain ⟨search, analyser, control⟩ := e
  obtain ⟨search', -, hret⟩ := ok_of_bind hrun
  cases hret
  rfl

theorem statistics_remove {rs : List Reference} {handle : Nat} {e e' : Engine κ}
    (hrun : e.remove rs handle = .ok e') : e'.statistics = e.statistics := by
  obtain ⟨search, analyser, control⟩ := e
  obtain ⟨search', -, hret⟩ := ok_of_bind hrun
  cases hret
  rfl

/-! ## Additions -/

theorem propagate_counts {conflict : Option Reference} {e e' : Engine κ}
    (hrun : e.propagate = .ok (conflict, e')) :
    ∃ n, e'.statistics = e.statistics.propagating n := by
  obtain ⟨search, analyser, control⟩ := e
  obtain ⟨⟨conflict', search'⟩, -, hret⟩ := ok_of_bind hrun
  cases hret
  exact ⟨search'.trailLength - search.trailLength, rfl⟩

theorem statistics_withdraw {checkpoint : Nat} {attached : List Reference}
    {result : Except Refusal (List Reference)} {e e' : Engine κ}
    (hrun : e.withdraw checkpoint attached = .ok (result, e')) : e'.statistics = e.statistics := by
  obtain ⟨search, analyser, control⟩ := e
  obtain ⟨search', -, hret⟩ := ok_of_bind hrun
  cases hret
  rfl

theorem addParts_counts {handle checkpoint : Nat} {ds : List (Description κ)}
    {attached : List Reference} {result : Except Refusal (List Reference)} {e e' : Engine κ}
    (hrun : addParts handle checkpoint ds attached e = .ok (result, e')) :
    ∃ n, e'.statistics = e.statistics.propagating n := by
  induction ds generalizing attached e with
  | nil =>
    cases hrun
    exact ⟨0, rfl⟩
  | cons d ds ih =>
    unfold addParts at hrun
    rw [← statistics_grow e (Description.maxVariable d.literals)]
    generalize e.grow (Description.maxVariable d.literals) = e₁ at *
    obtain ⟨search, analyser, control⟩ := e₁
    dsimp only at hrun
    split at hrun
    · exact ih hrun
    · split at hrun
      · rename_i search' _
        have hwithdrawn : e'.statistics = (⟨search', analyser, control⟩ : Engine κ).statistics :=
          statistics_withdraw hrun
        exact ⟨0, hwithdrawn⟩
      · rename_i search' _
        obtain ⟨⟨conflict, e₂⟩, hprop, hrun⟩ := ok_of_bind hrun
        obtain ⟨n, hn⟩ := propagate_counts hprop
        have hsame : (⟨search', analyser, control⟩ : Engine κ).statistics =
          (⟨search, analyser, control⟩ : Engine κ).statistics := rfl
        cases conflict with
        | none =>
          obtain ⟨m, hm⟩ := ih hrun
          exact ⟨n + m, by rw [hm, hn, hsame, Statistics.propagating_propagating]⟩
        | some r => exact ⟨n, (statistics_withdraw hrun).trans hn⟩

/-- An addition counts what it propagates, even if it is refused, and nothing else. -/
theorem add_counts {handle : Nat} {ds : List (Description κ)}
    {result : Except Refusal (List Reference)} {e e' : Engine κ}
    (hrun : e.add handle ds = .ok (result, e')) :
    ∃ n, e'.statistics = e.statistics.propagating n := by
  unfold add at hrun
  split at hrun
  · cases hrun
    exact ⟨0, rfl⟩
  · obtain ⟨e₁, hback, hrun⟩ := ok_of_bind hrun
    rw [← statistics_backtrack hback]
    exact addParts_counts hrun

/-! ## Conflicts -/

omit [CustomConstraint κ] in
theorem countConflict_accrues (e : Engine κ) : e.statistics.Accrues e.countConflict.statistics := by
  obtain ⟨search, analyser, control⟩ := e
  exact { Statistics.Accrues.refl control.totals with
    conflicts := Nat.le_succ _
    blockedRestarts := Nat.le_of_eq (RestartPolicy.numBlocked_onConflict control.restarts).symm }

theorem learnUnit_accrues {l : Literal} {numAssigned : Nat} {e e' : Engine κ}
    (hrun : e.learnUnit l numAssigned = .ok e') : e.statistics.Accrues e'.statistics := by
  obtain ⟨search, analyser, control⟩ := e
  obtain ⟨search', -, hret⟩ := ok_of_bind hrun
  cases hret
  exact { Statistics.Accrues.refl control.totals with
    unitsLearned := Nat.le_succ _
    blockedRestarts := RestartPolicy.numBlocked_onLearned 1 numAssigned control.restarts }

theorem learnClause_accrues {k : Clause} {level numAssigned : Nat} {e e' : Engine κ}
    (hrun : e.learnClause k level numAssigned = .ok e') : e.statistics.Accrues e'.statistics := by
  obtain ⟨⟨board, arena, learned, order, head⟩, analyser, control⟩ := e
  obtain ⟨search', -, hret⟩ := ok_of_bind hrun
  cases hret
  exact { Statistics.Accrues.refl control.totals with
    blockedRestarts := RestartPolicy.numBlocked_onLearned _ numAssigned control.restarts }

theorem resolveConflict_accrues {r : Reference} {resolved : Bool} {e e' : Engine κ}
    (hrun : e.resolveConflict r = .ok (resolved, e')) : e.statistics.Accrues e'.statistics := by
  obtain ⟨search, analyser, control⟩ := e
  obtain ⟨c, -, hrun⟩ := ok_of_bind hrun
  dsimp only at hrun
  split at hrun
  · cases hrun
    exact .refl _
  · obtain ⟨⟨board, arena, learned, order, head⟩, -, hrun⟩ := ok_of_bind hrun
    obtain ⟨lesson, -, hrun⟩ := ok_of_bind hrun
    dsimp only at hrun
    -- Averages and reports are no counters.
    split at hrun
    · cases hrun
    · obtain ⟨e₁, hlearn, hret⟩ := ok_of_bind hrun
      cases hret
      have hnoted := learnUnit_accrues hlearn
      rw [statistics_decay]
      exact { hnoted with }
    · obtain ⟨e₁, hlearn, hret⟩ := ok_of_bind hrun
      cases hret
      have hnoted := learnClause_accrues hlearn
      rw [statistics_decay]
      exact { hnoted with }

theorem statistics_rootConflict {outcome : Outcome} {e e' : Engine κ}
    (hrun : e.rootConflict = .ok (outcome, e')) : e'.statistics = e.statistics := by
  obtain ⟨e₁, hback, hrun⟩ := ok_of_bind hrun
  rw [← statistics_backtrack hback]
  dsimp only at hrun
  split at hrun
  · cases hrun
    rfl
  · cases hrun
    rfl

/-! ## Decisions -/

theorem statistics_failAssumption {l : Literal} {outcome : Outcome} {e e' : Engine κ}
    (hrun : e.failAssumption l = .ok (outcome, e')) : e'.statistics = e.statistics := by
  obtain ⟨search, ⟨minimisation, seen, minimiser⟩, control⟩ := e
  obtain ⟨⟨core, seen'⟩, -, hrun⟩ := ok_of_bind hrun
  obtain ⟨search', -, hret⟩ := ok_of_bind hrun
  cases hret
  rfl

theorem statistics_blockDecisions {outcome : Option Outcome} {e e' : Engine κ}
    (hrun : e.blockDecisions = .ok (outcome, e')) : e'.statistics = e.statistics := by
  obtain ⟨search, analyser, control⟩ := e
  simp only [blockDecisions] at hrun
  split at hrun
  · obtain ⟨search', -, hret⟩ := ok_of_bind hrun
    cases hret
    rfl
  · split at hrun
    · obtain ⟨search', -, hret⟩ := ok_of_bind hrun
      cases hret
      rfl
    · obtain ⟨search', -, hret⟩ := ok_of_bind hrun
      cases hret
      rfl
    · cases hrun

theorem decideVariable_accrues {outcome : Option Outcome} {e e' : Engine κ}
    (hrun : e.decideVariable = .ok (outcome, e')) : e.statistics.Accrues e'.statistics := by
  obtain ⟨⟨board, arena, learned, order, head⟩, analyser, control⟩ := e
  simp only [decideVariable] at hrun
  split at hrun
  · cases hrun
    exact { Statistics.Accrues.refl control.totals with decisions := Nat.le_succ _ }
  · split at hrun
    · cases hrun
      exact .refl _
    · rw [statistics_blockDecisions hrun]
      exact .refl _

theorem assume_accrues {ls : List Literal} {outcome : Option Outcome} {e e' : Engine κ}
    (hrun : e.assume ls = .ok (outcome, e')) : e.statistics.Accrues e'.statistics := by
  induction ls generalizing e with
  | nil => exact decideVariable_accrues hrun
  | cons l ls ih =>
    unfold assume at hrun
    split at hrun
    · have hopened := ih hrun
      exact hopened
    · split at hrun
      · obtain ⟨⟨outcome', e₁⟩, hfail, hret⟩ := ok_of_bind hrun
        cases hret
        rw [statistics_failAssumption hfail]
        exact .refl _
      · cases hrun
        exact .refl _

/-! ## Upkeep -/

theorem simplifyIfDue_accrues {e e' : Engine κ} (hrun : e.simplifyIfDue = .ok e') :
    e.statistics.Accrues e'.statistics := by
  unfold simplifyIfDue at hrun
  split at hrun
  · obtain ⟨search, analyser, control⟩ := e
    obtain ⟨⟨n, search'⟩, -, hret⟩ := ok_of_bind hrun
    cases hret
    exact { Statistics.Accrues.refl control.totals with simplified := Nat.le_add_right _ n }
  · cases hrun
    exact .refl _

theorem reduceIfDue_accrues {e e' : Engine κ} (hrun : e.reduceIfDue = .ok e') :
    e.statistics.Accrues e'.statistics := by
  simp only [reduceIfDue] at hrun
  split at hrun
  · obtain ⟨⟨board, arena, learned, order, head⟩, analyser, control⟩ := e
    obtain ⟨⟨rs, learned'⟩, -, hret⟩ := ok_of_bind hrun
    cases hret
    exact { Statistics.Accrues.refl control.totals with
      reductions := Nat.le_succ _
      deleted := Nat.le_add_right _ rs.length }
  · cases hrun
    exact .refl _

theorem restartIfDue_accrues {e e' : Engine κ} (hrun : e.restartIfDue = .ok e') :
    e.statistics.Accrues e'.statistics := by
  unfold restartIfDue at hrun
  split at hrun
  · obtain ⟨search, analyser, control⟩ := e
    obtain ⟨search', -, hret⟩ := ok_of_bind hrun
    cases hret
    exact { Statistics.Accrues.refl control.totals with
      restarts := Nat.le_succ _
      blockedRestarts := Nat.le_of_eq (RestartPolicy.numBlocked_onRestart control.restarts).symm }
  · cases hrun
    exact .refl _

/-! ## Searches -/

/-- A stage counts nothing down. -/
theorem step_accrues {stage : Stage} {next : Except Outcome Stage} {e e' : Engine κ}
    (hrun : e.step stage = .ok (next, e')) : e.statistics.Accrues e'.statistics := by
  cases stage with
  | propagating =>
    obtain ⟨⟨conflict, e₁⟩, hprop, hret⟩ := ok_of_bind hrun
    cases hret
    obtain ⟨n, hn⟩ := propagate_counts hprop
    rw [hn]
    exact e.statistics.accrues_propagating n
  | conflict r =>
    obtain ⟨⟨resolved, e₁⟩, hresolve, hrun⟩ := ok_of_bind hrun
    have hresolved := (countConflict_accrues e).trans (resolveConflict_accrues hresolve)
    dsimp only at hrun
    split at hrun
    · cases hrun
      exact hresolved
    · obtain ⟨⟨outcome, e₂⟩, hroot, hret⟩ := ok_of_bind hrun
      cases hret
      rw [statistics_rootConflict hroot]
      exact hresolved
  | deciding =>
    obtain ⟨e₁, hsimplify, hrun⟩ := ok_of_bind hrun
    obtain ⟨e₂, hreduce, hrun⟩ := ok_of_bind hrun
    obtain ⟨e₃, hrestart, hrun⟩ := ok_of_bind hrun
    obtain ⟨⟨outcome, e₄⟩, hdecide, hrun⟩ := ok_of_bind hrun
    have hupkeep := ((simplifyIfDue_accrues hsimplify).trans (reduceIfDue_accrues hreduce)).trans
      (restartIfDue_accrues hrestart)
    have hdecided := hupkeep.trans (assume_accrues hdecide)
    cases outcome with
    | none =>
      cases hrun
      exact hdecided
    | some outcome =>
      cases hrun
      exact hdecided

section

variable {τ : Type} [Termination τ] {limit limit' : τ} {outcome : Outcome} {e e' : Engine κ}

theorem run_accrues {n : Nat} {stage : Stage}
    (hrun : run n stage limit e = .ok (outcome, limit', e')) :
    e.statistics.Accrues e'.statistics := by
  induction n generalizing stage limit e with
  | zero => cases hrun
  | succ n ih =>
    unfold run at hrun
    split at hrun
    · obtain ⟨e₁, hback, hret⟩ := ok_of_bind hrun
      cases hret
      rw [statistics_backtrack hback]
      exact .refl e.statistics
    · obtain ⟨⟨next, e₁⟩, hstep, hrun⟩ := ok_of_bind hrun
      have hstepped := step_accrues hstep
      cases next with
      | error outcome' =>
        cases hrun
        exact hstepped
      | ok stage' => exact hstepped.trans (ih hrun)

/-- A search counts nothing down, whatever it comes to. -/
theorem solve_accrues {assumptions : List Literal}
    (hrun : e.solve assumptions limit = .ok (outcome, limit', e')) :
    e.statistics.Accrues e'.statistics := by
  unfold solve at hrun
  split at hrun
  · cases hrun
    exact .refl _
  · obtain ⟨e₁, hback, hrun⟩ := ok_of_bind hrun
    have hsearched := run_accrues hrun
    rw [statistics_grow] at hsearched
    rw [← statistics_backtrack hback]
    exact hsearched

end

end Engine

end ClauseLearning
