import ClauseLearning.Proofs.Asserting

/-!
# What the operations of a search are made of

An operation of the engine does things to the state of the search, counts them and reports them.
Here it is taken apart into what it does to the state: levels are gone back to, something becomes
true, a clause is entered, constraints are deleted. Nothing is asked of the engine, so the
constraints may be anyone's.

* `Engine.resolveConflict_cases`: a conflict above the root is analysed where its literals are, and
  what is learned is entered on a lower level.
* `Engine.decideVariable_cases`, `Engine.blockDecisions_cases`: what may come of a decision.
-/

namespace ClauseLearning

variable {κ : Type} [CustomConstraint κ]

namespace Engine

variable {e e' : Engine κ}

theorem search_of_backtrack {level : Nat} (hrun : e.backtrack level = .ok e') :
    e.search.backtrack level = .ok e'.search := by
  obtain ⟨search, analyser, control⟩ := e
  obtain ⟨search', hback, hrun⟩ := ok_of_bind hrun
  cases hrun
  exact hback

theorem search_of_propagate {conflict : Option Reference}
    (hrun : e.propagate = .ok (conflict, e')) : e.search.propagate = .ok (conflict, e'.search) := by
  obtain ⟨search, analyser, control⟩ := e
  obtain ⟨⟨conflict', search'⟩, hprop, hrun⟩ := ok_of_bind hrun
  cases hrun
  exact hprop

theorem search_of_remove {rs : List Reference} {handle : Nat} (hrun : e.remove rs handle = .ok e') :
    e.search.deleteOwned rs handle = .ok e'.search := by
  obtain ⟨search, analyser, control⟩ := e
  obtain ⟨search', hdelete, hrun⟩ := ok_of_bind hrun
  cases hrun
  exact hdelete

theorem search_of_failAssumption {l : Literal} {outcome : Outcome}
    (hrun : e.failAssumption l = .ok (outcome, e')) :
    e.search.backtrack 0 = .ok e'.search := by
  obtain ⟨search, ⟨minimisation, seen, minimiser⟩, control⟩ := e
  obtain ⟨⟨core, seen'⟩, -, hrun⟩ := ok_of_bind hrun
  obtain ⟨search', hback, hrun⟩ := ok_of_bind hrun
  cases hrun
  exact hback

theorem search_of_rootConflict {outcome : Outcome} (hrun : e.rootConflict = .ok (outcome, e')) :
    e.search.backtrack 0 = .ok e'.search := by
  obtain ⟨e₁, hback, hrun⟩ := ok_of_bind hrun
  have hsearch := search_of_backtrack hback
  split at hrun
  · cases hrun
    exact hsearch
  · obtain ⟨search, analyser, control⟩ := e₁
    cases hrun
    exact hsearch

/-! ## Learning -/

theorem search_of_learnUnit {l : Literal} {n : Nat} (hrun : e.learnUnit l n = .ok e') :
    ∃ s, e.search.backtrack 0 = .ok s ∧ e'.search = (s.enqueue l).2 := by
  obtain ⟨search, analyser, control⟩ := e
  obtain ⟨search', hback, hrun⟩ := ok_of_bind hrun
  cases hrun
  exact ⟨search', hback, rfl⟩

/-- Only the database of learned clauses is seen to before the level is gone back to. -/
theorem search_of_learnClause {k : Clause} {level n : Nat}
    (hrun : e.learnClause k level n = .ok e') :
    ∃ (learned : LearnedDatabase) (s : SearchState κ) (age lbd : Nat),
      learned.references = e.search.learned.references ∧
      ({ e.search with learned } : SearchState κ).backtrack level = .ok s ∧
      e'.search = s.learn k (.learnedAt age) lbd := by
  obtain ⟨⟨board, arena, learned, order, head⟩, analyser, control⟩ := e
  rcases hage : learned.nextAge with ⟨age, learned₁⟩
  rcases hmeasure : learned₁.measure board.assignment k.literals with ⟨lbd, learned₂⟩
  simp only [learnClause, hage, hmeasure] at hrun
  obtain ⟨s, hback, hrun⟩ := ok_of_bind hrun
  cases hrun
  refine ⟨learned₂, s, age, lbd, ?_, hback, rfl⟩
  have hrefs := congrArg (·.2.references) hmeasure
  have hrefs₁ := congrArg (·.2.references) hage
  exact hrefs.symm.trans hrefs₁.symm

/-- What is learned from a conflict is entered: a literal at the root, a clause on the level it is
for. -/
theorem resolveConflict_cases {r : Reference} (hrun : e.resolveConflict r = .ok (true, e')) :
    ∃ (c : Constraint κ) (low : SearchState κ) (lesson : Lesson κ) (e₁ : Engine κ),
      e.search.arena.get? r = some c ∧
      e.search.backtrack
        (highestLevel e.search.assignment (c.reason e.search.assignment none)) = .ok low ∧
      e.analyser.analyse r low.assignment low.order low.learned low.arena = .ok lesson ∧
      e' = e₁.decay ∧
      ((∃ l s, lesson.clause.literals = [l] ∧ (low.taught lesson).backtrack 0 = .ok s ∧
          e₁.search = (s.enqueue l).2) ∨
        ∃ (l m : Literal) (ls : List Literal) (learned : LearnedDatabase) (s : SearchState κ)
          (age lbd : Nat), lesson.clause.literals = l :: m :: ls ∧
          learned.references = (low.taught lesson).learned.references ∧
          ({ low.taught lesson with learned } : SearchState κ).backtrack
            lesson.clause.backjumpLevel = .ok s ∧
          e₁.search = s.learn ⟨l, m, ls⟩ (.learnedAt age) lbd) := by
  obtain ⟨search, analyser, control⟩ := e
  obtain ⟨c, hc, hrun⟩ := ok_of_bind hrun
  dsimp only at hrun
  split at hrun
  · cases hrun
  obtain ⟨low, hlow, hrun⟩ := ok_of_bind hrun
  obtain ⟨lesson, hlesson, hrun⟩ := ok_of_bind hrun
  have hget : search.arena.get? r = some c := Arena.get_eq_ok.mp hc
  split at hrun
  · cases hrun
  · rename_i l hone
    obtain ⟨e₁, hunit, hrun⟩ := ok_of_bind hrun
    cases hrun
    obtain ⟨s, hback, hs⟩ := search_of_learnUnit hunit
    exact ⟨c, low, lesson, e₁, hget, hlow, hlesson, rfl, .inl ⟨l, s, hone, hback, hs⟩⟩
  · rename_i l m ls hmore
    obtain ⟨e₁, hclause, hrun⟩ := ok_of_bind hrun
    cases hrun
    obtain ⟨learned, s, age, lbd, hrefs, hback, hs⟩ := search_of_learnClause hclause
    exact ⟨c, low, lesson, e₁, hget, hlow, hlesson, rfl,
      .inr ⟨l, m, ls, learned, s, age, lbd, hmore, hrefs, hback, hs⟩⟩

/-! ## Deciding -/

/-- The decisions are given up at the root, or what forbids them is entered. -/
theorem blockDecisions_cases {outcome : Option Outcome}
    (hrun : e.blockDecisions = .ok (outcome, e')) :
    (outcome = some .inconclusive ∧ e.search.backtrack 0 = .ok e'.search) ∨
      (outcome = none ∧ e.control.assumptions.length < e.search.decisionLevel ∧
        ((∃ l s, blockingClause e.search.assignment e.search.decisionLevel = [l] ∧
            e.search.backtrack 0 = .ok s ∧ e'.search = (s.enqueue l).2) ∨
          ∃ l m ls s, blockingClause e.search.assignment e.search.decisionLevel = l :: m :: ls ∧
            e.search.backtrack (e.search.decisionLevel - 1) = .ok s ∧
            e'.search = ({ s with learned := s.learned.nextAge.2 } : SearchState κ).learn ⟨l, m, ls⟩
              (.blockingAt s.learned.nextAge.1) (l :: m :: ls).length)) := by
  obtain ⟨search, analyser, control⟩ := e
  simp only [blockDecisions] at hrun
  split at hrun
  · obtain ⟨s, hback, hrun⟩ := ok_of_bind hrun
    cases hrun
    exact .inl ⟨rfl, hback⟩
  · rename_i hlevel
    refine .inr ?_
    split at hrun
    · rename_i l m ls hblock
      obtain ⟨s, hback, hrun⟩ := ok_of_bind hrun
      cases hrun
      refine ⟨rfl, Nat.lt_of_not_le hlevel, .inr ⟨l, m, ls, s, hblock, hback, ?_⟩⟩
      simp only [hblock]
    · rename_i l hblock
      obtain ⟨s, hback, hrun⟩ := ok_of_bind hrun
      cases hrun
      exact ⟨rfl, Nat.lt_of_not_le hlevel, .inl ⟨l, s, hblock, hback, rfl⟩⟩
    · cases hrun

/-- The order is asked for a literal. If it has none, the search is over or the decisions are
forbidden. -/
theorem decideVariable_cases {outcome : Option Outcome}
    (hrun : e.decideVariable = .ok (outcome, e')) :
    (∃ l order, e.search.order.nextDecision e.search.assignment = (some l, order) ∧ outcome = none ∧
        e'.search = { (e.search.openLevel.enqueue l).2 with order }) ∨
      ∃ order, e.search.order.nextDecision e.search.assignment = (none, order) ∧
        ((outcome = some .satisfiable ∧ e'.search = { e.search with order }) ∨
          (e.search.trailLength ≠ e.search.numVariables ∧
            blockDecisions ⟨{ e.search with order }, e.analyser, e.control⟩ =
              .ok (outcome, e'))) := by
  obtain ⟨⟨board, arena, learned, order, head⟩, analyser, control⟩ := e
  simp only [decideVariable] at hrun
  split at hrun
  · rename_i l order' hnext
    cases hrun
    exact .inl ⟨l, order', hnext, rfl, rfl⟩
  · rename_i order' hnext
    refine .inr ⟨order', hnext, ?_⟩
    split at hrun
    · cases hrun
      exact .inl ⟨rfl, rfl⟩
    · rename_i hopen
      exact .inr ⟨fun hend => hopen (.inl hend), hrun⟩

/-! ## Upkeep -/

theorem simplifyIfDue_cases (hrun : e.simplifyIfDue = .ok e') :
    e' = e ∨ ∃ n, e.search.simplify = .ok (n, e'.search) := by
  unfold simplifyIfDue at hrun
  split at hrun
  · obtain ⟨search, analyser, control⟩ := e
    obtain ⟨⟨n, search'⟩, hsimplify, hrun⟩ := ok_of_bind hrun
    cases hrun
    exact .inr ⟨n, hsimplify⟩
  · cases hrun
    exact .inl rfl

theorem reduceIfDue_cases (hrun : e.reduceIfDue = .ok e') :
    e' = e ∨ ∃ rs learned,
      e.search.learned.reduce e.search.arena e.search.assignment = .ok (rs, learned) ∧
      e'.search = ({ e.search with learned } : SearchState κ).delete rs := by
  simp only [reduceIfDue] at hrun
  split at hrun
  · obtain ⟨⟨board, arena, learned, order, head⟩, analyser, control⟩ := e
    obtain ⟨⟨rs, learned'⟩, hreduce, hrun⟩ := ok_of_bind hrun
    cases hrun
    exact .inr ⟨rs, learned', hreduce, rfl⟩
  · cases hrun
    exact .inl rfl

theorem restartIfDue_cases (hrun : e.restartIfDue = .ok e') :
    e' = e ∨ e.search.backtrack 0 = .ok e'.search := by
  unfold restartIfDue at hrun
  split at hrun
  · obtain ⟨search, analyser, control⟩ := e
    obtain ⟨search', hback, hrun⟩ := ok_of_bind hrun
    cases hrun
    exact .inr hback
  · cases hrun
    exact .inl rfl

end Engine

end ClauseLearning
