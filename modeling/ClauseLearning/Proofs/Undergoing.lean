import ClauseLearning.Proofs.Composition
import ClauseLearning.Proofs.Coursing
import ClauseLearning.Proofs.Reduced

/-!
# What an engine does is a course

The operations of an engine are put together from what its search does, so each of them is a course
as well, be the constraints whose they may. Only a removal has to name constraints that are there,
each once; what an addition gives back is such a list.

* `Engine.courses_add`: an addition, whether it is refused or not.
* `Engine.courses_solve`: a search, however it ends.
-/

namespace ClauseLearning

variable {κ : Type} [CustomConstraint κ]

/-! ## Analyses and reductions -/

namespace Resolution

variable {d : LearnedDatabase} {a : Assignment} {s s' : Resolution κ}

omit [CustomConstraint κ] in
theorem arena_note (l : Literal) (s : Resolution κ) : (s.note a l).arena = s.arena := by
  obtain ⟨seen, marked, lower, numOpen, order, arena, needsRescale⟩ := s
  unfold note
  dsimp only
  split
  · rfl
  · split <;> rfl

omit [CustomConstraint κ] in
theorem arena_notes (ls : List Literal) (s : Resolution κ) :
    (ls.foldl (fun s l => s.note a l) s).arena = s.arena := by
  induction ls generalizing s with
  | nil => rfl
  | cons l ls ih => exact (ih _).trans (arena_note l s)

theorem retagged_resolve {r : Reference} {p : Option Literal} (hrun : resolve d a r p s = .ok s') :
    s.arena.Retagged s'.arena := by
  obtain ⟨c, hc, -⟩ := ok_of_bind hrun
  obtain ⟨s₀, hgrows, -, -, heq⟩ :=
    resolve_eq (a := a) (i := 0) (d := d) (r := r) p (Arena.get_eq_ok.mp hc)
  rw [heq] at hrun
  split at hrun
  · cases hrun
  · cases hrun
    rw [arena_notes]
    exact hgrows.arena

theorem retagged_descend {n : Nat} {l : Literal} (hrun : descend d a n s = .ok (l, s')) :
    s.arena.Retagged s'.arena := by
  induction n generalizing s with
  | zero => cases hrun
  | succ n ih =>
    obtain ⟨seen, marked, lower, numOpen, order, arena, needsRescale⟩ := s
    unfold descend at hrun
    split at hrun
    · exact ih hrun
    · split at hrun
      · split at hrun
        · cases hrun
          exact .refl _
        · split at hrun
          · cases hrun
          · obtain ⟨s₁, hresolve, hrun⟩ := ok_of_bind hrun
            exact (retagged_resolve hresolve).trans (ih hrun)
      · exact ih hrun

end Resolution

/-- An analysis touches nothing of the constraints but their activities. -/
theorem Analyser.retagged_analyse {r : Reference} {a : Assignment} {analyser : Analyser}
    {order : DecisionOrder Generator} {learned : LearnedDatabase} {arena : Arena κ}
    {lesson : Lesson κ} (hrun : analyser.analyse r a order learned arena = .ok lesson) :
    arena.Retagged lesson.arena ∧ lesson.learned.references = learned.references := by
  obtain ⟨minimisation, seen, minimiser⟩ := analyser
  simp only [analyse] at hrun
  split at hrun
  · cases hrun
  · obtain ⟨s, hresolve, hrun⟩ := ok_of_bind hrun
    obtain ⟨⟨last, s'⟩, hdescend, hrun⟩ := ok_of_bind hrun
    have hretagged : arena.Retagged s'.arena :=
      (Resolution.retagged_resolve hresolve).trans (Resolution.retagged_descend hdescend)
    dsimp only at hrun
    split at hrun
    · obtain ⟨⟨learned', arena'⟩, hscale, hrun⟩ := ok_of_bind hrun
      obtain ⟨minimised, -, hret⟩ := ok_of_bind hrun
      cases hret
      obtain ⟨hrefs, hretagged'⟩ := LearnedDatabase.rescale_spec hscale
      exact ⟨hretagged.trans hretagged', hrefs⟩
    · obtain ⟨pair, hpair, hrun⟩ := ok_of_bind hrun
      obtain ⟨minimised, -, hret⟩ := ok_of_bind hrun
      cases hpair
      cases hret
      exact ⟨hretagged, rfl⟩

namespace Engine

open SearchState

variable {e e' : Engine κ}

/-! ## Single operations -/

theorem proceeds_grow (h : e.search.Sane) (n : Nat) : e.search.Proceeds (e.grow n).search := by
  obtain ⟨search, analyser, control⟩ := e
  unfold Engine.grow
  dsimp only
  split
  · exact .refl h
  · exact SearchState.proceeds_grow h n

theorem courses_model (h : e.search.Sane) : e.search.Courses e.model.2.search := by
  obtain ⟨⟨board, arena, learned, order, head⟩, analyser, control⟩ := e
  exact courses_of_board h rfl (.refl _) rfl

theorem courses_restrictDecisions (h : e.search.Sane) (vs : Option (List Nat)) :
    e.search.Courses (e.restrictDecisions vs).search := by
  obtain ⟨⟨board, arena, learned, order, head⟩, analyser, control⟩ := e
  exact courses_of_board h rfl (.refl _) rfl

theorem courses_clear (h : e.search.Sane) : e.search.Courses e.clear.search := by
  obtain ⟨search, analyser, control⟩ := e
  exact SearchState.courses_clear h

theorem courses_backtrack (h : e.search.Sane) {level : Nat} (hrun : e.backtrack level = .ok e') :
    e.search.Courses e'.search :=
  (proceeds_backtrack h (search_of_backtrack hrun)).toCourses

theorem courses_remove (h : e.search.Sane) {rs : List Reference} (hrs : rs.Nodup) {handle : Nat}
    (hrun : e.remove rs handle = .ok e') : e.search.Courses e'.search :=
  courses_deleteOwned h hrs (search_of_remove hrun)

theorem courses_decay (h : e.search.Sane) : e.search.Courses e.decay.search := by
  obtain ⟨⟨board, arena, learned, order, head⟩, analyser, control⟩ := e
  exact courses_of_board h rfl (.refl _) rfl

theorem courses_decideOn (h : e.search.Sane) (l : Literal) :
    e.search.Courses (e.decideOn l).search := by
  obtain ⟨search, analyser, control⟩ := e
  have hopened := proceeds_openLevel h
  exact (hopened.trans (proceeds_enqueue hopened.sane l)).toCourses

/-! ## Additions -/

theorem proceeds_assertUnits (ls : List Literal) {s : SearchState κ} (h : s.Sane) :
    s.Proceeds (assertUnits ls s).2 := by
  induction ls generalizing s with
  | nil => exact .refl h
  | cons l ls ih =>
    have hfirst := proceeds_enqueue h l
    unfold assertUnits
    split
    · rename_i heq
      rw [heq] at hfirst
      exact hfirst.trans (ih hfirst.sane)
    · rename_i heq
      rw [heq] at hfirst
      exact hfirst

/-- What was attached is there. -/
theorem proceeds_attachNormal (handle : Nat) {attached : List Reference} {k : Normal κ}
    (hk : ∀ k', k = .constraint k' → k'.falsified = 0) {s : SearchState κ} (h : s.Sane)
    (hattached : s.Holding attached) :
    s.Proceeds (attachNormal handle attached k s).2.2 ∧
      (attachNormal handle attached k s).2.2.Holding (attachNormal handle attached k s).2.1 := by
  cases k with
  | satisfied => exact ⟨.refl h, hattached⟩
  | unsatisfiable => exact ⟨.refl h, hattached⟩
  | units ls =>
    have hasserted := proceeds_assertUnits ls h
    exact ⟨hasserted, hasserted.holding hattached⟩
  | constraint k =>
    have hcame := proceeds_attach h (c := ⟨k, .ofHandle handle⟩) (hk k rfl)
    have ha := attaches h.tidy (⟨k, .ofHandle handle⟩ : Constraint κ)
    refine ⟨hcame, ?_, fun r hr => ?_⟩
    · refine List.nodup_append.mpr ⟨hattached.nodup, List.pairwise_singleton _ _, ?_⟩
      rintro r hr q hq rfl
      obtain ⟨c, hc⟩ := hattached.alive r hr
      rw [List.mem_singleton.mp hq] at hc
      exact absurd (ha.dead.symm.trans hc) nofun
    · rcases List.mem_append.mp hr with hr | hr
      · exact (hcame.holding hattached).alive r hr
      · rw [List.mem_singleton.mp hr]
        exact ⟨_, (ha.get? _).trans (if_pos rfl)⟩

theorem courses_withdraw (h : e.search.Sane) {checkpoint : Nat} {attached : List Reference}
    (hattached : e.search.Holding attached) {result : Except Refusal (List Reference)}
    (hrun : e.withdraw checkpoint attached = .ok (result, e')) :
    e.search.Courses e'.search ∧ ∀ rs, result ≠ .ok rs := by
  obtain ⟨search, analyser, control⟩ := e
  obtain ⟨search', hback, hret⟩ := ok_of_bind hrun
  cases hret
  have hlow := proceeds_backtrackRoot h hback
  exact ⟨hlow.toCourses.trans (courses_delete hlow.sane (hlow.holding hattached)), nofun⟩

theorem courses_addParts (h : e.search.Sane) {handle checkpoint : Nat} {ds : List (Description κ)}
    {attached : List Reference} (hattached : e.search.Holding attached)
    {result : Except Refusal (List Reference)}
    (hrun : addParts handle checkpoint ds attached e = .ok (result, e')) :
    e.search.Courses e'.search ∧ ∀ rs, result = .ok rs → rs.Nodup := by
  induction ds generalizing attached e with
  | nil =>
    cases hrun
    refine ⟨.refl h, fun rs hrs => ?_⟩
    cases hrs
    exact hattached.nodup
  | cons d ds ih =>
    unfold Engine.addParts at hrun
    have hgrown := proceeds_grow h (Description.maxVariable d.literals)
    generalize e.grow (Description.maxVariable d.literals) = e₁ at *
    obtain ⟨search, analyser, control⟩ := e₁
    dsimp only at hrun
    have hheld := hgrown.holding hattached
    obtain ⟨hcame, hheld'⟩ :=
      proceeds_attachNormal handle (fun _ => Description.falsified_normalise) hgrown.sane hheld
    split at hrun
    · obtain ⟨hrest, hnodup⟩ := ih hgrown.sane hheld hrun
      exact ⟨hgrown.toCourses.trans hrest, hnodup⟩
    · split at hrun
      · rename_i attached' search' heq
        rw [heq] at hcame hheld'
        obtain ⟨hback, hrefused⟩ := courses_withdraw hcame.sane hheld' hrun
        exact ⟨(hgrown.trans hcame).toCourses.trans hback, fun rs hrs => absurd hrs (hrefused rs)⟩
      · rename_i attached' search' heq
        rw [heq] at hcame hheld'
        obtain ⟨⟨conflict, e₂⟩, hprop, hrun⟩ := ok_of_bind hrun
        have hpropagated := proceeds_propagate hcame.sane (search_of_propagate hprop)
        have hsofar := (hgrown.trans hcame).trans hpropagated
        cases conflict with
        | none =>
          obtain ⟨hrest, hnodup⟩ := ih hpropagated.sane (hpropagated.holding hheld') hrun
          exact ⟨hsofar.toCourses.trans hrest, hnodup⟩
        | some r =>
          obtain ⟨hback, hrefused⟩ :=
            courses_withdraw hpropagated.sane (hpropagated.holding hheld') hrun
          exact ⟨hsofar.toCourses.trans hback, fun rs hrs => absurd hrs (hrefused rs)⟩

/-- What an addition gives back names every constraint once. -/
theorem courses_add (h : e.search.Sane) {handle : Nat} {ds : List (Description κ)}
    {result : Except Refusal (List Reference)} (hrun : e.add handle ds = .ok (result, e')) :
    e.search.Courses e'.search ∧ ∀ rs, result = .ok rs → rs.Nodup := by
  unfold Engine.add at hrun
  split at hrun
  · cases hrun
    exact ⟨.refl h, nofun⟩
  · obtain ⟨e₁, hback, hrun⟩ := ok_of_bind hrun
    have hlow := courses_backtrack h hback
    obtain ⟨hadded, hnodup⟩ := courses_addParts hlow.sane
      ⟨List.nodup_nil, fun r hr => absurd hr List.not_mem_nil⟩ hrun
    exact ⟨hlow.trans hadded, hnodup⟩

/-! ## Conflicts -/

/-- Without a level to go back to nothing is done. -/
theorem eq_of_not_resolved {r : Reference} (hrun : e.resolveConflict r = .ok (false, e')) :
    e' = e := by
  obtain ⟨search, analyser, control⟩ := e
  obtain ⟨c, -, hrun⟩ := ok_of_bind hrun
  dsimp only at hrun
  split at hrun
  · cases hrun
    rfl
  · obtain ⟨low, -, hrun⟩ := ok_of_bind hrun
    obtain ⟨lesson, -, hrun⟩ := ok_of_bind hrun
    split at hrun
    · cases hrun
    · obtain ⟨e₁, -, hret⟩ := ok_of_bind hrun
      cases hret
    · obtain ⟨e₁, -, hret⟩ := ok_of_bind hrun
      cases hret

theorem courses_resolveConflict (h : e.search.Sane) {r : Reference} {resolved : Bool}
    (hrun : e.resolveConflict r = .ok (resolved, e')) : e.search.Courses e'.search := by
  cases resolved with
  | false =>
    rw [eq_of_not_resolved hrun]
    exact .refl h
  | true =>
    obtain ⟨c, low, lesson, e₁, -, hback, hanalyse, rfl, hlearn⟩ := resolveConflict_cases hrun
    have hlow := proceeds_backtrack h hback
    obtain ⟨hretagged, hrefs⟩ := Analyser.retagged_analyse hanalyse
    have htaught : low.Proceeds (low.taught lesson) :=
      proceeds_of_board hlow.sane rfl hretagged hrefs
    have hlearned : (low.taught lesson).Proceeds e₁.search := by
      rcases hlearn with ⟨l, s, -, hback, hs⟩ | ⟨l, m, ls, learned, s, age, lbd, -, hrefs,
        hback, hs⟩
      · have hroot := proceeds_backtrack htaught.sane hback
        rw [hs]
        exact hroot.trans (proceeds_enqueue hroot.sane l)
      · have hmeasured : (low.taught lesson).Proceeds { low.taught lesson with learned } :=
          proceeds_of_board htaught.sane rfl (.refl _) hrefs
        have hjumped := hmeasured.trans (proceeds_backtrack hmeasured.sane hback)
        rw [hs]
        exact hjumped.trans (proceeds_learn hjumped.sane ⟨l, m, ls⟩ rfl lbd)
    have hall := (hlow.trans htaught).trans hlearned
    exact hall.toCourses.trans (courses_decay hall.sane)

theorem courses_rootConflict (h : e.search.Sane) {outcome : Outcome}
    (hrun : e.rootConflict = .ok (outcome, e')) : e.search.Courses e'.search :=
  (proceeds_backtrack h (search_of_rootConflict hrun)).toCourses

/-! ## Decisions -/

theorem courses_blockDecisions (h : e.search.Sane) {outcome : Option Outcome}
    (hrun : e.blockDecisions = .ok (outcome, e')) : e.search.Courses e'.search := by
  rcases blockDecisions_cases hrun with ⟨-, hback⟩ |
    ⟨-, -, ⟨l, s, -, hback, hs⟩ | ⟨l, m, ls, s, -, hback, hs⟩⟩
  · exact (proceeds_backtrack h hback).toCourses
  · have hroot := proceeds_backtrack h hback
    rw [hs]
    exact (hroot.trans (proceeds_enqueue hroot.sane l)).toCourses
  · have hlow := proceeds_backtrack h hback
    have haged : s.Proceeds { s with learned := s.learned.nextAge.2 } :=
      proceeds_of_board hlow.sane rfl (.refl _) rfl
    rw [hs]
    exact ((hlow.trans haged).trans (proceeds_learn haged.sane ⟨l, m, ls⟩ rfl _)).toCourses

theorem courses_decideVariable (h : e.search.Sane) {outcome : Option Outcome}
    (hrun : e.decideVariable = .ok (outcome, e')) : e.search.Courses e'.search := by
  rcases decideVariable_cases hrun with ⟨l, order, -, -, hs⟩ | ⟨order, -, ⟨-, hs⟩ | ⟨-, hblock⟩⟩
  · have hopened := proceeds_openLevel h
    have hdecided := hopened.trans (proceeds_enqueue hopened.sane l)
    rw [hs]
    exact hdecided.toCourses.trans (courses_of_board hdecided.sane rfl (.refl _) rfl)
  · rw [hs]
    exact courses_of_board h rfl (.refl _) rfl
  · have hasked : e.search.Courses { e.search with order } := courses_of_board h rfl (.refl _) rfl
    exact hasked.trans (courses_blockDecisions
      (e := ⟨{ e.search with order }, e.analyser, e.control⟩) hasked.sane hblock)

theorem courses_assume (h : e.search.Sane) {ls : List Literal} {outcome : Option Outcome}
    (hrun : e.assume ls = .ok (outcome, e')) : e.search.Courses e'.search := by
  induction ls generalizing e with
  | nil => exact courses_decideVariable h hrun
  | cons l ls ih =>
    unfold Engine.assume at hrun
    split at hrun
    · have hopened : e.search.Courses (e.modifySearch (·.openLevel)).search :=
        (proceeds_openLevel h).toCourses
      exact hopened.trans (ih hopened.sane hrun)
    · split at hrun
      · obtain ⟨⟨outcome', e₁⟩, hfail, hret⟩ := ok_of_bind hrun
        cases hret
        exact (proceeds_backtrack h (search_of_failAssumption hfail)).toCourses
      · cases hrun
        exact courses_decideOn h l

/-! ## Upkeep -/

theorem courses_simplifyIfDue (h : e.search.Sane) (hrun : e.simplifyIfDue = .ok e') :
    e.search.Courses e'.search := by
  rcases simplifyIfDue_cases hrun with rfl | ⟨n, hsimplify⟩
  · exact .refl h
  · exact courses_simplify h hsimplify

theorem courses_reduceIfDue (h : e.search.Sane) (hrun : e.reduceIfDue = .ok e') :
    e.search.Courses e'.search := by
  rcases reduceIfDue_cases hrun with rfl | ⟨rs, learned, hreduce, hs⟩
  · exact .refl h
  · obtain ⟨hnodup, hlists, hgoing⟩ := h.lists.reduce hreduce
    have htaken : e.search.Proceeds { e.search with learned } :=
      .of_calm h (calm_of_board rfl (.refl _)) hlists
    rw [hs]
    exact htaken.toCourses.trans (courses_delete htaken.sane
      ⟨hnodup, fun r hr => (hgoing r hr).imp fun _ hc => hc.1⟩)

theorem courses_restartIfDue (h : e.search.Sane) (hrun : e.restartIfDue = .ok e') :
    e.search.Courses e'.search := by
  rcases restartIfDue_cases hrun with rfl | hback
  · exact .refl h
  · exact (proceeds_backtrack h hback).toCourses

/-! ## Searches -/

theorem courses_step (h : e.search.Sane) {stage : Stage} {next : Except Outcome Stage}
    (hrun : e.step stage = .ok (next, e')) : e.search.Courses e'.search := by
  cases stage with
  | propagating =>
    obtain ⟨⟨conflict, e₁⟩, hprop, hret⟩ := ok_of_bind hrun
    cases hret
    exact (proceeds_propagate h (search_of_propagate hprop)).toCourses
  | conflict r =>
    obtain ⟨⟨resolved, e₁⟩, hresolve, hrun⟩ := ok_of_bind hrun
    have hresolved := courses_resolveConflict (e := e.countConflict) h hresolve
    dsimp only at hrun
    split at hrun
    · cases hrun
      exact hresolved
    · obtain ⟨⟨outcome, e₂⟩, hroot, hret⟩ := ok_of_bind hrun
      cases hret
      exact hresolved.trans (courses_rootConflict hresolved.sane hroot)
  | deciding =>
    obtain ⟨e₁, hsimplify, hrun⟩ := ok_of_bind hrun
    obtain ⟨e₂, hreduce, hrun⟩ := ok_of_bind hrun
    obtain ⟨e₃, hrestart, hrun⟩ := ok_of_bind hrun
    obtain ⟨⟨outcome, e₄⟩, hdecide, hrun⟩ := ok_of_bind hrun
    have hsimplified := courses_simplifyIfDue h hsimplify
    have hreduced := hsimplified.trans (courses_reduceIfDue hsimplified.sane hreduce)
    have hrestarted := hreduced.trans (courses_restartIfDue hreduced.sane hrestart)
    have hdecided := hrestarted.trans (courses_assume hrestarted.sane hdecide)
    cases outcome with
    | none =>
      cases hrun
      exact hdecided
    | some outcome =>
      cases hrun
      exact hdecided

variable {τ : Type} [Termination τ]

theorem courses_run (h : e.search.Sane) {n : Nat} {stage : Stage} {limit limit' : τ}
    {outcome : Outcome} (hrun : run n stage limit e = .ok (outcome, limit', e')) :
    e.search.Courses e'.search := by
  induction n generalizing stage limit e with
  | zero => cases hrun
  | succ n ih =>
    unfold Engine.run at hrun
    split at hrun
    · obtain ⟨e₁, hback, hret⟩ := ok_of_bind hrun
      cases hret
      exact courses_backtrack (e := e.report .searchStopped) h hback
    · obtain ⟨⟨next, e₁⟩, hstep, hrun⟩ := ok_of_bind hrun
      have hstepped := courses_step h hstep
      cases next with
      | error outcome =>
        cases hrun
        exact hstepped
      | ok stage => exact hstepped.trans (ih hstepped.sane hrun)

theorem courses_interrupted (h : e.search.Sane) {stage last : Stage} {limit : τ} {e₁ : Engine κ}
    (hint : Interrupted stage limit e last e₁) : e.search.Courses e₁.search := by
  induction hint with
  | here hpoll => exact .refl h
  | later hpoll hstep _ ih =>
    have hstepped := courses_step h hstep
    exact hstepped.trans (ih hstepped.sane)

/-- A search goes through the moment at which it is asked to stop. -/
theorem courses_stopsAt (h : e.search.Sane) {assumptions : List Literal} {limit : τ} {last : Stage}
    {e₁ : Engine κ} (hstops : StopsAt assumptions limit e last e₁) :
    e.search.Courses e₁.search := by
  obtain ⟨-, e₀, hback, hint⟩ := hstops
  have hlow := courses_backtrack h hback
  have hposed : e₀.search.Courses (e₀.posed assumptions).search :=
    (proceeds_grow (e := e₀.under assumptions) hlow.sane _).toCourses
  exact (hlow.trans hposed).trans (courses_interrupted hposed.sane hint)

theorem courses_solve (h : e.search.Sane) {assumptions : List Literal} {limit limit' : τ}
    {outcome : Outcome} (hrun : e.solve assumptions limit = .ok (outcome, limit', e')) :
    e.search.Courses e'.search := by
  unfold Engine.solve at hrun
  split at hrun
  · cases hrun
    exact .refl h
  · obtain ⟨e₁, hback, hrun⟩ := ok_of_bind hrun
    have hlow := courses_backtrack h hback
    have hposed : e₁.search.Courses (e₁.posed assumptions).search :=
      (proceeds_grow (e := e₁.under assumptions) hlow.sane _).toCourses
    exact (hlow.trans hposed).trans (courses_run hposed.sane hrun)

end Engine

end ClauseLearning
