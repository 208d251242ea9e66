import ClauseLearning.Proofs.Intervals

/-!
# What a search tells its policies

A search tells its policy for restarts of every conflict it counts, of every clause it learns and of
every restart it makes, and it asks before it restarts (`Control.Tells`). Its limit is told of the
same conflicts; one that stops at `n` of them is met by no more (`Termination.Meters`).

* `Engine.step_tells`: the stage that handles a conflict tells of one, the others tell of none.
* `Engine.solve_tells`: a search, and where it leaves a limit that counts conflicts.
-/

namespace ClauseLearning

variable {κ : Type}

/-! ## Telling -/

theorem RestartPolicy.obeyed_append {p : RestartPolicy} {evs evs' : List RestartEvent}
    (h : p.Obeyed evs) (h' : (p.after evs).Obeyed evs') : p.Obeyed (evs ++ evs') := by
  induction evs generalizing p with
  | nil => exact h'
  | cons e evs ih =>
    obtain ⟨hfirst, hrest⟩ := obeyed_cons.mp h
    exact obeyed_cons.mpr ⟨hfirst, ih hrest h'⟩

/-- The policy for restarts was told of these events, and no others were counted. -/
structure Control.Tells (evs : List RestartEvent) (c c' : Control) : Prop where
  policy : c'.restarts = c.restarts.after evs
  obeyed : c.restarts.Obeyed evs
  conflicts : c'.statistics.conflicts = c.statistics.conflicts + evs.count .conflict
  restarts : c'.statistics.restarts = c.statistics.restarts + evs.count .restart

namespace Control.Tells

variable {c c' c'' : Control} {evs evs' : List RestartEvent}

/-- Nothing happened that the policy is told of. -/
theorem nothing (hpolicy : c'.restarts = c.restarts)
    (hconflicts : c'.statistics.conflicts = c.statistics.conflicts)
    (hrestarts : c'.statistics.restarts = c.statistics.restarts) : c.Tells [] c' :=
  ⟨hpolicy, RestartPolicy.obeyed_nil _, hconflicts, hrestarts⟩

theorem of_eq (h : c' = c) : c.Tells [] c' :=
  .nothing (congrArg _ h) (congrArg (·.statistics.conflicts) h) (congrArg (·.statistics.restarts) h)

theorem trans (h : c.Tells evs c') (h' : c'.Tells evs' c'') : c.Tells (evs ++ evs') c'' := by
  refine ⟨?_, RestartPolicy.obeyed_append h.obeyed (h.policy ▸ h'.obeyed), ?_, ?_⟩
  · rw [RestartPolicy.after_append, ← h.policy, h'.policy]
  · rw [List.count_append, h'.conflicts, h.conflicts, Nat.add_assoc]
  · rw [List.count_append, h'.restarts, h.restarts, Nat.add_assoc]

/-- What is told of nothing can be left out. -/
theorem after_nothing (h : c.Tells [] c') (h' : c'.Tells evs c'') : c.Tells evs c'' := h.trans h'

theorem before_nothing (h : c.Tells evs c') (h' : c'.Tells [] c'') : c.Tells evs c'' :=
  List.append_nil evs ▸ h.trans h'

end Control.Tells

namespace Engine

/-- The conflicts that a stage handles. -/
def numConflicts : Stage → Nat
  | .conflict _ => 1
  | _ => 0

theorem control_grow (e : Engine κ) (n : Nat) : (e.grow n).control = e.control := by
  obtain ⟨search, analyser, control⟩ := e
  unfold grow
  dsimp only
  split <;> rfl

/-! ## Conflicts -/

theorem countConflict_tells (e : Engine κ) :
    e.control.Tells [.conflict] e.countConflict.control := by
  obtain ⟨search, analyser, control⟩ := e
  exact ⟨rfl, RestartPolicy.obeyed_cons.mpr ⟨nofun, RestartPolicy.obeyed_nil _⟩, rfl, rfl⟩

variable [CustomConstraint κ] {e e' : Engine κ}

theorem control_backtrack {level : Nat} (hrun : e.backtrack level = .ok e') :
    e'.control = e.control := by
  obtain ⟨search, analyser, control⟩ := e
  obtain ⟨search', -, hret⟩ := ok_of_bind hrun
  cases hret
  rfl

theorem propagate_tells {conflict : Option Reference} (hrun : e.propagate = .ok (conflict, e')) :
    e.control.Tells [] e'.control := by
  obtain ⟨search, analyser, control⟩ := e
  obtain ⟨⟨conflict', search'⟩, -, hret⟩ := ok_of_bind hrun
  cases hret
  exact .nothing rfl rfl rfl

theorem learnUnit_tells {l : Literal} {numAssigned : Nat}
    (hrun : e.learnUnit l numAssigned = .ok e') :
    e.control.Tells [.learned 1 numAssigned] e'.control := by
  obtain ⟨search, analyser, control⟩ := e
  obtain ⟨search', -, hret⟩ := ok_of_bind hrun
  cases hret
  exact ⟨rfl, RestartPolicy.obeyed_cons.mpr ⟨nofun, RestartPolicy.obeyed_nil _⟩, rfl, rfl⟩

theorem learnClause_tells {k : Clause} {level numAssigned : Nat}
    (hrun : e.learnClause k level numAssigned = .ok e') :
    ∃ lbd, e.control.Tells [.learned lbd numAssigned] e'.control := by
  obtain ⟨⟨board, arena, learned, order, head⟩, analyser, control⟩ := e
  obtain ⟨search', -, hret⟩ := ok_of_bind hrun
  cases hret
  exact ⟨_, rfl, RestartPolicy.obeyed_cons.mpr ⟨nofun, RestartPolicy.obeyed_nil _⟩, rfl, rfl⟩

/-- At most one clause is learned. -/
theorem resolveConflict_tells {r : Reference} {resolved : Bool}
    (hrun : e.resolveConflict r = .ok (resolved, e')) :
    e.control.Tells [] e'.control ∨
      ∃ lbd numAssigned, e.control.Tells [.learned lbd numAssigned] e'.control := by
  obtain ⟨search, analyser, control⟩ := e
  obtain ⟨c, -, hrun⟩ := ok_of_bind hrun
  dsimp only at hrun
  split at hrun
  · cases hrun
    exact Or.inl (.of_eq rfl)
  · obtain ⟨⟨board, arena, learned, order, head⟩, -, hrun⟩ := ok_of_bind hrun
    obtain ⟨lesson, -, hrun⟩ := ok_of_bind hrun
    dsimp only at hrun
    -- Averages and reports are nothing that is told.
    right
    split at hrun
    · cases hrun
    · obtain ⟨e₁, hlearn, hret⟩ := ok_of_bind hrun
      cases hret
      have htold := learnUnit_tells hlearn
      exact ⟨_, _, htold.policy, htold.obeyed, htold.conflicts, htold.restarts⟩
    · obtain ⟨e₁, hlearn, hret⟩ := ok_of_bind hrun
      cases hret
      obtain ⟨lbd, htold⟩ := learnClause_tells hlearn
      exact ⟨_, _, htold.policy, htold.obeyed, htold.conflicts, htold.restarts⟩

theorem rootConflict_tells {outcome : Outcome} (hrun : e.rootConflict = .ok (outcome, e')) :
    e.control.Tells [] e'.control ∧ outcome ≠ .budgetExceeded := by
  obtain ⟨e₁, hback, hrun⟩ := ok_of_bind hrun
  have hsame := Control.Tells.of_eq (control_backtrack hback)
  dsimp only at hrun
  split at hrun
  · cases hrun
    exact ⟨hsame, nofun⟩
  · cases hrun
    exact ⟨hsame.before_nothing (.nothing rfl rfl rfl), nofun⟩

/-! ## Decisions -/

theorem failAssumption_tells {l : Literal} {outcome : Outcome}
    (hrun : e.failAssumption l = .ok (outcome, e')) :
    e.control.Tells [] e'.control ∧ outcome ≠ .budgetExceeded := by
  obtain ⟨search, ⟨minimisation, seen, minimiser⟩, control⟩ := e
  obtain ⟨⟨core, seen'⟩, -, hrun⟩ := ok_of_bind hrun
  obtain ⟨search', -, hret⟩ := ok_of_bind hrun
  cases hret
  refine ⟨.of_eq rfl, ?_⟩
  split <;> exact nofun

theorem blockDecisions_tells {outcome : Option Outcome}
    (hrun : e.blockDecisions = .ok (outcome, e')) :
    e.control.Tells [] e'.control ∧ outcome ≠ some .budgetExceeded := by
  obtain ⟨search, analyser, control⟩ := e
  simp only [blockDecisions] at hrun
  split at hrun
  · obtain ⟨search', -, hret⟩ := ok_of_bind hrun
    cases hret
    exact ⟨.of_eq rfl, by simp⟩
  · split at hrun
    · obtain ⟨search', -, hret⟩ := ok_of_bind hrun
      cases hret
      exact ⟨.nothing rfl rfl rfl, by simp⟩
    · obtain ⟨search', -, hret⟩ := ok_of_bind hrun
      cases hret
      exact ⟨.nothing rfl rfl rfl, by simp⟩
    · cases hrun

theorem decideVariable_tells {outcome : Option Outcome}
    (hrun : e.decideVariable = .ok (outcome, e')) :
    e.control.Tells [] e'.control ∧ outcome ≠ some .budgetExceeded := by
  obtain ⟨⟨board, arena, learned, order, head⟩, analyser, control⟩ := e
  simp only [decideVariable] at hrun
  split at hrun
  · cases hrun
    exact ⟨.nothing rfl rfl rfl, by simp⟩
  · split at hrun
    · cases hrun
      exact ⟨.of_eq rfl, by simp⟩
    · have hblocked := blockDecisions_tells hrun
      exact hblocked

theorem assume_tells {ls : List Literal} {outcome : Option Outcome}
    (hrun : e.assume ls = .ok (outcome, e')) :
    e.control.Tells [] e'.control ∧ outcome ≠ some .budgetExceeded := by
  induction ls generalizing e with
  | nil => exact decideVariable_tells hrun
  | cons l ls ih =>
    unfold assume at hrun
    split at hrun
    · have hopened := ih hrun
      exact hopened
    · split at hrun
      · obtain ⟨⟨outcome', e₁⟩, hfail, hret⟩ := ok_of_bind hrun
        cases hret
        obtain ⟨htold, hne⟩ := failAssumption_tells hfail
        exact ⟨htold, fun h => hne (Option.some.inj h)⟩
      · cases hrun
        exact ⟨.of_eq rfl, by simp⟩

/-! ## Upkeep -/

theorem simplifyIfDue_tells (hrun : e.simplifyIfDue = .ok e') : e.control.Tells [] e'.control := by
  unfold simplifyIfDue at hrun
  split at hrun
  · obtain ⟨search, analyser, control⟩ := e
    obtain ⟨⟨n, search'⟩, -, hret⟩ := ok_of_bind hrun
    cases hret
    exact .nothing rfl rfl rfl
  · cases hrun
    exact .of_eq rfl

theorem reduceIfDue_tells (hrun : e.reduceIfDue = .ok e') : e.control.Tells [] e'.control := by
  simp only [reduceIfDue] at hrun
  split at hrun
  · obtain ⟨⟨board, arena, learned, order, head⟩, analyser, control⟩ := e
    obtain ⟨⟨rs, learned'⟩, -, hret⟩ := ok_of_bind hrun
    cases hret
    exact .nothing rfl rfl rfl
  · cases hrun
    exact .of_eq rfl

/-- The policy is asked before a restart. -/
theorem restartIfDue_tells (hrun : e.restartIfDue = .ok e') :
    e.control.Tells [] e'.control ∨ e.control.Tells [.restart] e'.control := by
  unfold restartIfDue at hrun
  split at hrun
  · rename_i hdue
    obtain ⟨search, analyser, control⟩ := e
    obtain ⟨search', -, hret⟩ := ok_of_bind hrun
    cases hret
    exact Or.inr ⟨rfl, RestartPolicy.obeyed_cons.mpr ⟨fun _ => hdue.1, RestartPolicy.obeyed_nil _⟩,
      rfl, rfl⟩
  · cases hrun
    exact Or.inl (.of_eq rfl)

/-! ## Stages -/

/-- A stage tells of the conflict that it handles and of no other. It does not stop by itself. -/
theorem step_tells {stage : Stage} {next : Except Outcome Stage}
    (hrun : e.step stage = .ok (next, e')) :
    (∃ evs, e.control.Tells evs e'.control ∧ evs.count .conflict = numConflicts stage) ∧
      next ≠ .error .budgetExceeded := by
  cases stage with
  | propagating =>
    obtain ⟨⟨conflict, e₁⟩, hprop, hret⟩ := ok_of_bind hrun
    cases hret
    exact ⟨⟨[], propagate_tells hprop, rfl⟩, nofun⟩
  | conflict r =>
    obtain ⟨⟨resolved, e₁⟩, hresolve, hrun⟩ := ok_of_bind hrun
    have hcounted := countConflict_tells e
    obtain ⟨evs, htold, hnum⟩ : ∃ evs, e.control.Tells evs e₁.control ∧
        evs.count .conflict = 1 := by
      rcases resolveConflict_tells hresolve with htold | ⟨lbd, numAssigned, htold⟩
      · exact ⟨_, hcounted.trans htold, rfl⟩
      · exact ⟨_, hcounted.trans htold, rfl⟩
    dsimp only at hrun
    split at hrun
    · cases hrun
      exact ⟨⟨evs, htold, hnum⟩, nofun⟩
    · obtain ⟨⟨outcome, e₂⟩, hroot, hret⟩ := ok_of_bind hrun
      cases hret
      obtain ⟨hlast, hne⟩ := rootConflict_tells hroot
      exact ⟨⟨evs, htold.before_nothing hlast, hnum⟩, fun h => hne (Except.error.inj h)⟩
  | deciding =>
    obtain ⟨e₁, hsimplify, hrun⟩ := ok_of_bind hrun
    obtain ⟨e₂, hreduce, hrun⟩ := ok_of_bind hrun
    obtain ⟨e₃, hrestart, hrun⟩ := ok_of_bind hrun
    obtain ⟨⟨outcome, e₄⟩, hdecide, hrun⟩ := ok_of_bind hrun
    obtain ⟨hdecided, hne⟩ := assume_tells hdecide
    have hupkeep := (simplifyIfDue_tells hsimplify).after_nothing (reduceIfDue_tells hreduce)
    obtain ⟨evs, htold, hnum⟩ : ∃ evs, e.control.Tells evs e₄.control ∧
        evs.count .conflict = 0 := by
      rcases restartIfDue_tells hrestart with htold | htold
      · exact ⟨_, (hupkeep.after_nothing htold).before_nothing hdecided, rfl⟩
      · exact ⟨_, (hupkeep.after_nothing htold).before_nothing hdecided, rfl⟩
    cases outcome with
    | none =>
      cases hrun
      exact ⟨⟨evs, htold, hnum⟩, nofun⟩
    | some outcome =>
      cases hrun
      exact ⟨⟨evs, htold, hnum⟩, fun h => hne (congrArg some (Except.error.inj h))⟩

end Engine

/-! ## Limits -/

/-- A limit that counts conflicts, and asks to stop if there were `n` of them: `met limit m` says
that it has met `m`. It may ask to stop earlier. -/
structure Termination.Meters {τ : Type} [Termination τ] (n : Nat) (met : τ → Nat → Prop) :
    Prop where
  poll : ∀ {limit m}, met limit m → met (Termination.poll limit).2 m
  lt_of_poll : ∀ {limit m}, met limit m → (Termination.poll limit).1 = false → m < n
  onConflict : ∀ {limit m}, met limit m → met (Termination.onConflict limit) (m + 1)

namespace Engine

variable [CustomConstraint κ] {e e' : Engine κ} {τ : Type} [Termination τ] {n : Nat}
  {met : τ → Nat → Prop} {limit limit' : τ} {m : Nat} {outcome : Outcome}

theorem met_announce (hm : Termination.Meters n met) (h : met limit m) (stage : Stage) :
    met (stage.announce limit) (m + numConflicts stage) := by
  cases stage with
  | propagating => exact h
  | deciding => exact h
  | conflict r => exact hm.onConflict h

/-- The limit meets the conflicts that the policies are told of. Nothing but the limit stops a
search. -/
theorem run_tells (hm : Termination.Meters n met) (h : met limit m) {fuel : Nat} {stage : Stage}
    (hrun : run fuel stage limit e = .ok (outcome, limit', e')) :
    ∃ evs, e.control.Tells evs e'.control ∧ met limit' (m + evs.count .conflict) ∧
      m + evs.count .conflict ≤ max m n ∧ (outcome = .budgetExceeded →
        ∃ last, met last (m + evs.count .conflict) ∧ Termination.poll last = (true, limit')) := by
  induction fuel generalizing stage limit e m with
  | zero => cases hrun
  | succ fuel ih =>
    unfold run at hrun
    split at hrun
    · rename_i limit₁ hpoll
      obtain ⟨e₁, hback, hret⟩ := ok_of_bind hrun
      cases hret
      have hpolled := hm.poll h
      rw [hpoll] at hpolled
      have hreported : e.control.Tells [] (e.report .searchStopped).control := .nothing rfl rfl rfl
      exact ⟨[], hreported.before_nothing (.of_eq (control_backtrack hback)), hpolled,
        Nat.le_max_left .., fun _ => ⟨limit, h, hpoll⟩⟩
    · rename_i limit₁ hpoll
      obtain ⟨⟨next, e₁⟩, hstep, hrun⟩ := ok_of_bind hrun
      obtain ⟨⟨evs, htold, hnum⟩, hne⟩ := step_tells hstep
      have hlt := hm.lt_of_poll h (by rw [hpoll])
      have hpolled := hm.poll h
      rw [hpoll] at hpolled
      have hmet := met_announce hm hpolled stage
      have hone : numConflicts stage ≤ 1 := by
        cases stage <;> simp [numConflicts]
      rw [← hnum] at hmet hone
      cases next with
      | error outcome' =>
        cases hrun
        exact ⟨evs, htold, hmet, by omega, fun hout => absurd (congrArg Except.error hout) hne⟩
      | ok stage' =>
        obtain ⟨evs', htold', hmet', hle, hstop⟩ := ih hmet hrun
        rw [Nat.add_assoc, ← List.count_append] at hmet' hle hstop
        exact ⟨evs ++ evs', htold.trans htold', hmet', by omega, hstop⟩

/-- A search restarts when the policy asks for it only, and the limit bounds its conflicts. -/
theorem solve_tells (hm : Termination.Meters n met) (h : met limit m) {assumptions : List Literal}
    (hrun : e.solve assumptions limit = .ok (outcome, limit', e')) :
    ∃ evs, e.control.Tells evs e'.control ∧ met limit' (m + evs.count .conflict) ∧
      m + evs.count .conflict ≤ max m n ∧ (outcome = .budgetExceeded →
        ∃ last, met last (m + evs.count .conflict) ∧ Termination.poll last = (true, limit')) := by
  unfold solve at hrun
  split at hrun
  · cases hrun
    exact ⟨[], .of_eq rfl, h, Nat.le_max_left .., nofun⟩
  · obtain ⟨e₁, hback, hrun⟩ := ok_of_bind hrun
    obtain ⟨evs, htold, hrest⟩ := run_tells hm h hrun
    refine ⟨evs, .after_nothing ?_ htold, hrest⟩
    rw [control_grow]
    exact .after_nothing (.of_eq (control_backtrack hback)) (.nothing rfl rfl rfl)

end Engine

end ClauseLearning
