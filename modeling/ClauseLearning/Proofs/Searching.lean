import ClauseLearning.Proofs.Starting

/-!
# Searches

Before every stage an engine is in one of three situations (`Engine.At`), and it is current if no
notification is missing then (`Engine.Current`). A step leads from a current engine to a current
one, or to an outcome that is right. The only way to fall behind is to stop between a conflict at
the root and its handling (`Engine.Abandons`).

* `Engine.step_spec`: one stage.
* `Engine.run_spec`: a search, and what a stop in its midst leaves.
* `Engine.solve_spec`: a search under assumptions.
-/

namespace ClauseLearning

variable {κ : Type}

theorem Description.le_maxVariable {ls : List Literal} {l : Literal} (hl : l ∈ ls) :
    l.var ≤ Description.maxVariable ls :=
  (le_foldl_max Literal.var ls 0).2 l hl

namespace Engine

/-! ## Stages -/

/-- What holds before a stage. -/
def At (e : Engine κ) : Stage → Prop
  | .propagating => True
  | .deciding => e.search.head = e.search.assignment.trues.length
  | .conflict r => e.search.head = e.search.assignment.trues.length ∧
      ∃ c, e.search.arena.get? r = some c ∧ c.kind.Violated e.search.assignment.trues

/-- No notification is missing before a stage, except for the levels of a conflict. -/
def Current (e : Engine κ) : Stage → Prop
  | .conflict _ => e.search.Grounded
  | _ => e.search.UpToDate

/-- A stop here forgets about a conflict at the root. -/
def Abandons (e : Engine κ) : Stage → Prop
  | .conflict _ => e.search.decisionLevel = 0
  | _ => False

instance (e : Engine κ) : DecidablePred e.Abandons
  | .propagating => .isFalse nofun
  | .deciding => .isFalse nofun
  | .conflict _ => inferInstanceAs (Decidable (_ = _))

/-- What an engine that was current is left as by an outcome. -/
def Leaves (e : Engine κ) : Outcome → Prop
  | .satisfiable => e.search.UpToDate ∧ e.search.Satisfied
  | .unsatisfiable => True
  | .unsatisfiableUnder _ => e.search.UpToDate
  | .budgetExceeded => False
  | .inconclusive => True

theorem countConflict_spec {e : Engine κ} (h : e.WellFormed) :
    e.Advances e.countConflict ∧ e.countConflict.search = e.search := by
  obtain ⟨search, analyser, control⟩ := e
  exact ⟨.of_search h.search h.clean rfl (.refl _) (fun _ h => h) (fun h => h) rfl rfl rfl rfl, rfl⟩

variable [CustomConstraint κ]

/-- The levels that were settled when they were opened can be gone back to. -/
theorem Current.backtrack {e : Engine κ} {s' : SearchState κ} {stage : Stage} (h : e.Current stage)
    (hw : e.WellFormed) (hstage : ¬ e.Abandons stage) (hrun : e.search.backtrack 0 = .ok s') :
    s'.UpToDate := by
  cases stage with
  | propagating => exact SearchState.UpToDate.backtrack h hw.search hrun
  | deciding => exact SearchState.UpToDate.backtrack h hw.search hrun
  | conflict r => exact SearchState.Grounded.backtrack h hw.search (Nat.pos_of_ne_zero hstage) hrun

/-! ## Propagation and conflicts -/

theorem propagate_spec {e e' : Engine κ} {conflict : Option Reference} (h : e.WellFormed)
    (hrun : e.propagate = .ok (conflict, e')) :
    e.Advances e' ∧ e'.search.head = e'.search.assignment.trues.length ∧
      (∀ r ∈ conflict, ∃ c, e'.search.arena.get? r = some c ∧
        c.kind.Violated e'.search.assignment.trues) ∧
      (e.search.UpToDate → e'.search.Grounded ∧ (conflict = none → e'.search.UpToDate)) ∧
      e.search.Follows e.search.head e'.search ∧ e'.control.restricted = e.control.restricted ∧
      e'.control.infeasible = e.control.infeasible := by
  obtain ⟨search, analyser, control⟩ := e
  have hw : search.WellFormed := h.search
  obtain ⟨⟨conflict', search'⟩, hprop, hrun⟩ := ok_of_bind hrun
  cases hrun
  obtain ⟨hf, hw', hhead, -, hviolated⟩ := SearchState.propagate_spec hw (Nat.le_refl _) hprop
  have hclean : analyser.Clean search'.assignment.cells.size := by
    rw [hf.extension.size]
    exact h.clean
  refine ⟨.of_search hw' hclean hf.extension.size (hf.retains hw) (fun ν hν => hν.follows hw hf)
    (fun hh => hh.extend hw.onBoard.consistent hf.extension hf.reasoned)
    (congrArg DecisionOrder.allowed hf.order) rfl rfl rfl, hhead, hviolated,
    fun hu => hu.propagate hw hprop, hf, rfl, rfl⟩

/-- A conflict at the root is an answer, unless models may have been lost. -/
theorem rootConflict_spec {e e' : Engine κ} {outcome : Outcome} (h : e.WellFormed)
    (hnone : ∀ ν, ¬ e.search.Admits ν) (hrun : e.rootConflict = .ok (outcome, e')) :
    e.Advances e' ∧ e.Concludes e' outcome ∧ e'.Leaves outcome ∧ e'.search.decisionLevel = 0 ∧
      outcome ≠ .satisfiable := by
  unfold rootConflict at hrun
  obtain ⟨e₁, hback, hrun⟩ := ok_of_bind hrun
  obtain ⟨hadv, hsearch, hcontrol⟩ := backtrack_spec h hback
  have hlevel : e₁.search.decisionLevel = 0 := by
    rw [SearchState.decisionLevel_backtrack h.search hsearch, Nat.zero_min]
  obtain ⟨search₁, analyser₁, control₁⟩ := e₁
  split at hrun
  · rename_i hr
    cases hrun
    exact ⟨hadv, Or.inl hr, trivial, hlevel, nofun⟩
  · rename_i hr
    cases hrun
    have hr' : control₁.restricted = false := by simpa using hr
    refine ⟨⟨⟨⟨hadv.wellFormed.search, hadv.wellFormed.clean⟩, hadv.size, hadv.retains, hadv.admits,
      hadv.restricted, fun _ => Or.inr ⟨?_, hnone⟩, hadv.allowed, hadv.free⟩, hadv.honours,
      hadv.assumptions⟩, ⟨hr', rfl, hnone⟩, trivial, hlevel, nofun⟩
    exact hadv.restricted_eq_false hr'

/-! ## Upkeep -/

/-- What is done before a decision keeps the engine as it was. -/
structure Tidies (e e' : Engine κ) : Prop where
  advances : e.Advances e'
  upToDate : e.search.UpToDate → e'.search.UpToDate
  head : e.search.head = e.search.assignment.trues.length →
    e'.search.head = e'.search.assignment.trues.length

omit [CustomConstraint κ] in
theorem Tidies.refl {e : Engine κ} (h : e.WellFormed) : e.Tidies e :=
  ⟨.refl h, fun hu => hu, fun hh => hh⟩

omit [CustomConstraint κ] in
theorem Tidies.trans {e₁ e₂ e₃ : Engine κ} (h : e₁.Tidies e₂) (h' : e₂.Tidies e₃) : e₁.Tidies e₃ :=
  ⟨h.advances.trans h'.advances, fun hu => h'.upToDate (h.upToDate hu),
    fun hh => h'.head (h.head hh)⟩

/-- Fewer constraints, and the same literals with the same reasons above the root. -/
theorem Tidies.of_thins {search search' : SearchState κ} {analyser : Analyser}
    {control control' : Control} (h : (⟨search, analyser, control⟩ : Engine κ).WellFormed)
    (hw : search'.WellFormed) (ht : search.Thins search') (hretains : search.Retains search')
    (hhonours : search.assignment.Honours control.assumptions →
      search'.assignment.Honours control.assumptions)
    (ha : control'.assumptions = control.assumptions)
    (hi : control'.infeasible = control.infeasible)
    (hr : control'.restricted = control.restricted) :
    Tidies ⟨search, analyser, control⟩ ⟨search', analyser, control'⟩ := by
  have hclean : analyser.Clean search'.assignment.cells.size := by
    rw [ht.size]
    exact h.clean
  refine ⟨.of_search hw hclean ht.size hretains (fun ν hν => ht.admits h.search hν) hhonours
    (congrArg DecisionOrder.allowed ht.order) ha hi hr, ht.upToDate, fun hh => ?_⟩
  show search'.head = search'.assignment.trues.length
  rw [ht.head, ht.trues]
  exact hh

theorem simplifyIfDue_spec {e e' : Engine κ} (h : e.WellFormed)
    (hrun : e.simplifyIfDue = .ok e') : e.Tidies e' := by
  unfold simplifyIfDue at hrun
  split at hrun
  · obtain ⟨search, analyser, control⟩ := e
    obtain ⟨⟨n, search'⟩, hsimplify, hrun⟩ := ok_of_bind hrun
    cases hrun
    obtain ⟨hroot, hw, ht, hretains⟩ := SearchState.simplify_spec h.search hsimplify
    exact .of_thins h hw ht hretains (fun _ => .of_root (ht.decisionLevel_eq.trans hroot))
      rfl rfl rfl
  · cases hrun
    exact .refl h

theorem reduceIfDue_spec {e e' : Engine κ} (h : e.WellFormed)
    (hrun : e.reduceIfDue = .ok e') : e.Tidies e' := by
  simp only [reduceIfDue] at hrun
  split at hrun
  · obtain ⟨⟨⟨a, w⟩, arena, learned, order, head⟩, analyser, control⟩ := e
    obtain ⟨⟨rs, learned'⟩, hreduce, hrun⟩ := ok_of_bind hrun
    cases hrun
    obtain ⟨hw, ht, hretains⟩ := SearchState.reduce_spec h.search hreduce
    refine .of_thins h hw ht hretains (fun hh => ?_) rfl rfl rfl
    rw [SearchState.assignment_delete]
    exact hh
  · cases hrun
    exact .refl h

theorem restartIfDue_spec {e e' : Engine κ} (h : e.WellFormed)
    (hrun : e.restartIfDue = .ok e') : e.Tidies e' := by
  unfold restartIfDue at hrun
  split at hrun
  · obtain ⟨search, analyser, control⟩ := e
    obtain ⟨search', hback, hrun⟩ := ok_of_bind hrun
    cases hrun
    have hw : search.WellFormed := h.search
    obtain ⟨hsize, hall, -⟩ := SearchState.size_backtrack hw hback
    have hclean : analyser.Clean search'.assignment.cells.size := by
      rw [hsize]
      exact h.clean
    refine ⟨.of_search (hw.backtrack hback) hclean hsize (.backtrack hw hback)
      (fun ν hν => hν.backtrack hw hback) (fun hh => SearchState.honours_backtrack hw hback hh) hall
      rfl rfl rfl, fun hu => SearchState.UpToDate.backtrack hu hw hback, fun hh => ?_⟩
    rcases SearchState.backtrack_spec hw hback with ⟨-, rfl⟩ | ⟨-, -, -, hhead, -⟩
    · exact hh
    · exact hhead
  · cases hrun
    exact .refl h

/-! ## Steps -/

/-- What a stage promises: a next stage, or an outcome. -/
structure Steps (e : Engine κ) (stage : Stage) (next : Except Outcome Stage) (e' : Engine κ) :
    Prop where
  advances : e.Advances e'
  at_next : ∀ stage', next = .ok stage' → e'.At stage'
  current : ∀ stage', next = .ok stage' → e.Current stage → e'.Current stage'
  concludes : ∀ o, next = .error o → e.Concludes e' o
  leaves : ∀ o, next = .error o → e.Current stage → e'.Leaves o
  root : ∀ o, next = .error o → o ≠ .satisfiable → e'.search.decisionLevel = 0

omit [CustomConstraint κ] in
theorem Steps.of_next {stage stage' : Stage} {e e' : Engine κ} (h : e.Advances e')
    (hat : e'.At stage') (hcurrent : e.Current stage → e'.Current stage') :
    e.Steps stage (.ok stage') e' := by
  refine ⟨h, fun s hs => ?_, fun s hs => ?_, nofun, nofun, nofun⟩
  · cases hs
    exact hat
  · cases hs
    exact hcurrent

omit [CustomConstraint κ] in
theorem Steps.of_outcome {stage : Stage} {outcome : Outcome} {e e' : Engine κ} (h : e.Advances e')
    (hconcludes : e.Concludes e' outcome) (hleaves : e.Current stage → e'.Leaves outcome)
    (hroot : outcome ≠ .satisfiable → e'.search.decisionLevel = 0) :
    e.Steps stage (.error outcome) e' := by
  refine ⟨h, nofun, nofun, fun o ho => ?_, fun o ho => ?_, fun o ho => ?_⟩
  · cases ho
    exact hconcludes
  · cases ho
    exact hleaves
  · cases ho
    exact hroot

theorem step_spec {stage : Stage} {next : Except Outcome Stage} {e e' : Engine κ}
    (h : e.WellFormed) (hh : e.Honours)
    (hknown : ∀ l ∈ e.control.assumptions, l.Known e.search.assignment.cells.size)
    (hat : e.At stage) (hrun : e.step stage = .ok (next, e')) : e.Steps stage next e' := by
  cases stage with
  | propagating =>
    obtain ⟨⟨conflict, e₁⟩, hprop, hrun⟩ := ok_of_bind hrun
    cases hrun
    obtain ⟨hadv, hhead, hviolated, hup, -⟩ := propagate_spec h hprop
    cases conflict with
    | none => exact .of_next hadv hhead fun hc => (hup hc).2 rfl
    | some r => exact .of_next hadv ⟨hhead, hviolated r rfl⟩ fun hc => (hup hc).1
  | conflict r =>
    obtain ⟨hhead, c, hc, hv⟩ := hat
    obtain ⟨hcount, hsearch⟩ := countConflict_spec h
    obtain ⟨⟨resolved, e₁⟩, hresolve, hrun⟩ := ok_of_bind hrun
    obtain ⟨hyes, hno⟩ := resolveConflict_spec hcount.wellFormed (by rw [hsearch]; exact hc)
      (by rw [hsearch]; exact hv) hresolve
    cases resolved with
    | true =>
      cases hrun
      obtain ⟨hadv, hup⟩ := hyes rfl
      rw [hsearch] at hup
      exact .of_next (hcount.trans hadv) trivial hup
    | false =>
      obtain ⟨rfl, hnone⟩ := hno rfl
      obtain ⟨⟨outcome, e₂⟩, hroot, hrun⟩ := ok_of_bind hrun
      cases hrun
      obtain ⟨hadv, hconcludes, hleaves, hlevel, -⟩ :=
        rootConflict_spec hcount.wellFormed hnone hroot
      exact .of_outcome (hcount.trans hadv) (hconcludes.of_advances hcount hadv)
        (fun _ => hleaves) fun _ => hlevel
  | deciding =>
    obtain ⟨e₁, hsimplify, hrun⟩ := ok_of_bind hrun
    obtain ⟨e₂, hreduce, hrun⟩ := ok_of_bind hrun
    obtain ⟨e₃, hrestart, hrun⟩ := ok_of_bind hrun
    obtain ⟨⟨outcome, e₄⟩, hdecide, hrun⟩ := ok_of_bind hrun
    have ht₁ := simplifyIfDue_spec h hsimplify
    have ht₂ := reduceIfDue_spec ht₁.advances.wellFormed hreduce
    have ht₃ := restartIfDue_spec ht₂.advances.wellFormed hrestart
    have ht := (ht₁.trans ht₂).trans ht₃
    have hd := (decide_spec ht.advances.wellFormed (ht.head hat) (ht.advances.honours hh)
      (ht.advances.known hknown) hdecide).of_advances ht.advances ht.upToDate
    cases outcome with
    | none =>
      cases hrun
      exact .of_next hd.advances trivial hd.upToDate
    | some outcome =>
      cases hrun
      have hconcludes := hd.concludes outcome rfl
      refine .of_outcome hd.advances hconcludes (fun hc => ?_) (hd.root outcome rfl)
      cases outcome with
      | satisfiable => exact ⟨hd.upToDate hc, hd.satisfied hc rfl⟩
      | unsatisfiable => trivial
      | unsatisfiableUnder core => exact hd.upToDate hc
      | budgetExceeded => exact hconcludes
      | inconclusive => trivial

/-! ## Searches -/

section

variable {τ : Type} [Termination τ]

/-- A search that goes on with a stage is asked to stop before the stage `last`. -/
inductive Interrupted : Stage → τ → Engine κ → Stage → Engine κ → Prop
  | here {stage : Stage} {limit limit' : τ} {e : Engine κ}
      (hpoll : Termination.poll limit = (true, limit')) : Interrupted stage limit e stage e
  | later {stage stage' last : Stage} {limit limit' : τ} {e e' e₁ : Engine κ}
      (hpoll : Termination.poll limit = (false, limit'))
      (hstep : e.step stage = .ok (.ok stage', e'))
      (hrest : Interrupted stage' (stage.announce limit') e' last e₁) :
      Interrupted stage limit e last e₁

/-- The stage before which a search is asked to stop, if it is one of the next `n`. -/
def stopWithin : Nat → Stage → τ → Engine κ → Option (Stage × Engine κ)
  | 0, _, _, _ => none
  | n + 1, stage, limit, e =>
    match Termination.poll limit with
    | (true, _) => some (stage, e)
    | (false, limit) =>
      match e.step stage with
      | .ok (.ok stage', e') => stopWithin n stage' (stage.announce limit) e'
      | _ => none

/-- A search is stopped at one stage only. -/
theorem Interrupted.stopWithin_eq {n : Nat} {stage last : Stage} {limit : τ} {e e₁ : Engine κ}
    {stop : Stage × Engine κ} (h : Interrupted stage limit e last e₁)
    (hstop : stopWithin n stage limit e = some stop) : stop = (last, e₁) := by
  induction h generalizing n with
  | here hpoll =>
    cases n with
    | zero => cases hstop
    | succ n =>
      simp only [stopWithin, hpoll] at hstop
      exact (Option.some.inj hstop).symm
  | later hpoll hstep _ ih =>
    cases n with
    | zero => cases hstop
    | succ n =>
      simp only [stopWithin, hpoll, hstep] at hstop
      exact ih hstop

theorem Interrupted.of_stopWithin {n : Nat} {stage last : Stage} {limit : τ} {e e₁ : Engine κ}
    (hstop : stopWithin n stage limit e = some (last, e₁)) :
    Interrupted stage limit e last e₁ := by
  induction n generalizing stage limit e with
  | zero => cases hstop
  | succ n ih =>
    unfold stopWithin at hstop
    split at hstop
    · rename_i limit' hpoll
      cases hstop
      exact .here hpoll
    · rename_i limit' hpoll
      split at hstop
      · rename_i stage' e' hstep
        exact .later hpoll hstep (ih hstop)
      · cases hstop

/-- A search that is stopped goes back to the root from there. -/
theorem Interrupted.run {n : Nat} {stage last : Stage} {limit limit' : τ} {outcome : Outcome}
    {e e₁ e' : Engine κ} (h : Interrupted stage limit e last e₁)
    (hrun : Engine.run n stage limit e = .ok (outcome, limit', e')) :
    outcome = .budgetExceeded ∧ e₁.search.backtrack 0 = .ok e'.search := by
  induction h generalizing n with
  | @here _ _ _ e hpoll =>
    cases n with
    | zero => cases hrun
    | succ n =>
      simp only [Engine.run, hpoll] at hrun
      obtain ⟨e₂, hback, hret⟩ := ok_of_bind hrun
      cases hret
      obtain ⟨search, analyser, control⟩ := e
      obtain ⟨search', hundone, hret⟩ := ok_of_bind hback
      cases hret
      exact ⟨rfl, hundone⟩
  | later hpoll hstep _ ih =>
    cases n with
    | zero => cases hrun
    | succ n =>
      simp only [Engine.run, hpoll, hstep, bind, Except.bind] at hrun
      exact ih hrun

/-- A search gives up before some stage and goes back to the root, or comes to an outcome. -/
theorem run_spec {n : Nat} {stage : Stage} {limit limit' : τ} {outcome : Outcome} {e e' : Engine κ}
    (h : e.WellFormed) (hh : e.Honours)
    (hknown : ∀ l ∈ e.control.assumptions, l.Known e.search.assignment.cells.size)
    (hat : e.At stage) (hrun : run n stage limit e = .ok (outcome, limit', e')) :
    e.Advances e' ∧ (outcome ≠ .satisfiable → e'.search.decisionLevel = 0) ∧
      ((outcome = .budgetExceeded ∧ ∃ last e₁, Interrupted stage limit e last e₁ ∧ e₁.At last ∧
          e₁.WellFormed ∧ e₁.search.backtrack 0 = .ok e'.search ∧
          (e.Current stage → e₁.Current last)) ∨
        (e.Concludes e' outcome ∧ (e.Current stage → e'.Leaves outcome))) := by
  induction n generalizing stage limit e with
  | zero => cases hrun
  | succ n ih =>
    unfold run at hrun
    split at hrun
    · rename_i limit₁ hpoll
      obtain ⟨e₁, hback, hrun⟩ := ok_of_bind hrun
      cases hrun
      have hreport : e.Advances (e.report .searchStopped) := by
        obtain ⟨search, analyser, control⟩ := e
        exact .of_search h.search h.clean rfl (.refl _) (fun _ h => h) (fun h => h) rfl rfl rfl rfl
      obtain ⟨hadv, hsearch, -⟩ := backtrack_spec hreport.wellFormed hback
      have hsame : (e.report .searchStopped).search = e.search := by
        obtain ⟨search, analyser, control⟩ := e
        rfl
      rw [hsame] at hsearch
      refine ⟨hreport.trans hadv, fun _ => ?_, Or.inl ⟨rfl, stage, e, .here hpoll, hat, h, hsearch,
        fun hc => hc⟩⟩
      rw [SearchState.decisionLevel_backtrack h.search hsearch, Nat.zero_min]
    · rename_i limit₁ hpoll
      obtain ⟨⟨next, e₁⟩, hstep, hrun⟩ := ok_of_bind hrun
      have hs := step_spec h hh hknown hat hstep
      cases next with
      | error o =>
        cases hrun
        exact ⟨hs.advances, hs.root _ rfl, Or.inr ⟨hs.concludes _ rfl, hs.leaves _ rfl⟩⟩
      | ok stage' =>
        obtain ⟨hadv, hlevel, hend⟩ := ih hs.advances.wellFormed (hs.advances.honours hh)
          (hs.advances.known hknown) (hs.at_next _ rfl) hrun
        refine ⟨hs.advances.trans hadv, hlevel, ?_⟩
        rcases hend with ⟨rfl, last, e₂, hint, hat₂, hw₂, hback, hcur⟩ | ⟨hconcludes, hleaves⟩
        · exact Or.inl ⟨rfl, last, e₂, .later hpoll hstep hint, hat₂, hw₂, hback,
            fun hc => hcur (hs.current _ rfl hc)⟩
        · exact Or.inr ⟨hconcludes.of_advances hs.advances hadv,
            fun hc => hleaves (hs.current _ rfl hc)⟩

/-- A search under assumptions is asked to stop before the stage `last`. -/
def StopsAt (assumptions : List Literal) (limit : τ) (e : Engine κ) (last : Stage)
    (e₁ : Engine κ) : Prop :=
  e.control.infeasible = false ∧ ∃ e₀, e.backtrack 0 = .ok e₀ ∧
    Interrupted .propagating limit ((e₀.modifyControl fun c => { c with assumptions }).grow
      (Description.maxVariable assumptions)) last e₁

theorem StopsAt.solve {assumptions : List Literal} {limit limit' : τ} {last : Stage}
    {outcome : Outcome} {e e₁ e' : Engine κ} (h : StopsAt assumptions limit e last e₁)
    (hrun : e.solve assumptions limit = .ok (outcome, limit', e')) :
    outcome = .budgetExceeded ∧ e₁.search.backtrack 0 = .ok e'.search := by
  obtain ⟨hinf, e₀, hback, hint⟩ := h
  simp only [Engine.solve, hinf, Bool.false_eq_true, if_false, hback, bind, Except.bind] at hrun
  exact hint.run hrun

/-- A level that is not open is left alone. -/
theorem backtrack_of_le {e : Engine κ} {level : Nat} (h : e.search.decisionLevel ≤ level) :
    e.backtrack level = .ok e := by
  obtain ⟨⟨board, arena, learned, order, head⟩, analyser, control⟩ := e
  have h : board.assignment.decisionLevel ≤ level := h
  simp only [Engine.backtrack, SearchState.backtrack, if_pos h]
  rfl

/-- What is asked of an engine together with some assumptions. -/
def under (assumptions : List Literal) (e : Engine κ) : Engine κ :=
  e.modifyControl fun c => { c with assumptions }

omit [CustomConstraint κ] in
theorem keeps_under {e : Engine κ} (h : e.WellFormed) (assumptions : List Literal) :
    e.Keeps (e.under assumptions) := by
  obtain ⟨search, analyser, control⟩ := e
  exact ⟨⟨h.search, h.clean⟩, Nat.le_refl _, .refl _, fun _ _ hν => hν, fun hr => hr, Or.inl,
    Iff.rfl, fun _ => rfl⟩

theorem backtrack_under {e e₀ : Engine κ} {level : Nat} (assumptions : List Literal)
    (hrun : e.backtrack level = .ok e₀) :
    (e.under assumptions).backtrack level = .ok (e₀.under assumptions) := by
  obtain ⟨search, analyser, control⟩ := e
  obtain ⟨search₀, hback, hrun⟩ := ok_of_bind hrun
  cases hrun
  simp only [under, modifyControl, Engine.backtrack, hback]
  rfl

/-- What a search under assumptions starts from, once the engine is at the root. -/
def posed (assumptions : List Literal) (e : Engine κ) : Engine κ :=
  (e.under assumptions).grow (Description.maxVariable assumptions)

/-- A search under assumptions that is known to be stopped, and where, abandons a conflict only if
it does there. -/
theorem StopsAt.not_abandons {n : Nat} {assumptions : List Literal} {limit : τ} {last : Stage}
    {e e₀ e₁ : Engine κ} (h : StopsAt assumptions limit e last e₁) (hback : e.backtrack 0 = .ok e₀)
    (hkept : ∃ stop ∈ stopWithin n .propagating limit (e₀.posed assumptions),
      ¬ stop.2.Abandons stop.1) : ¬ e₁.Abandons last := by
  obtain ⟨-, e₀', hback', hint⟩ := h
  rw [hback] at hback'
  cases hback'
  obtain ⟨stop, hstop, hkept⟩ := hkept
  rw [hint.stopWithin_eq hstop] at hkept
  exact hkept

omit [Termination τ] in
/-- A search starts at the root, and the variables of all assumptions are known. -/
theorem posed_spec {assumptions : List Literal} {e e₀ : Engine κ} (h : e.WellFormed)
    (hne : ∀ l ∈ assumptions, l.var ≠ 0) (hback : e.backtrack 0 = .ok e₀) :
    (e.under assumptions).Advances (e₀.posed assumptions) ∧ (e₀.posed assumptions).Honours ∧
      (∀ l ∈ (e₀.posed assumptions).control.assumptions,
        l.Known (e₀.posed assumptions).search.assignment.cells.size) ∧
      (e.search.UpToDate → (e₀.posed assumptions).search.UpToDate) := by
  have hkeeps := keeps_under h assumptions
  obtain ⟨hadv, hsearch, -⟩ := backtrack_spec hkeeps.wellFormed (backtrack_under assumptions hback)
  obtain ⟨hgrow, hgrowUp, -, hgrowSearch, hgrown⟩ :=
    grow_spec hadv.wellFormed (Description.maxVariable assumptions)
  have hlevel : (e₀.under assumptions).search.decisionLevel = 0 := by
    rw [SearchState.decisionLevel_backtrack hkeeps.wellFormed.search hsearch, Nat.zero_min]
  have hroot : (e₀.posed assumptions).search.decisionLevel = 0 := by
    unfold posed
    rcases hgrowSearch with hs | hs
    · rw [hs, hlevel]
    · rw [hs]
      exact hlevel
  refine ⟨hadv.trans hgrow, .of_root hroot, fun l hl => ?_, fun hu => hgrowUp ?_⟩
  · have hl' : l ∈ ((e₀.under assumptions).grow
        (Description.maxVariable assumptions)).control.assumptions := hl
    rw [hgrow.assumptions] at hl'
    have hmem : l ∈ assumptions := hl'
    exact ⟨hne l hmem, hgrown l.var (hne l hmem) (Description.le_maxVariable hmem)⟩
  · exact SearchState.UpToDate.backtrack (s := (e.under assumptions).search) hu
      hkeeps.wellFormed.search hsearch

/-- A search from an engine that may go on: it gives up, or it comes to an outcome. -/
theorem solve_spec {assumptions : List Literal} {limit limit' : τ} {outcome : Outcome}
    {e e' : Engine κ} (h : e.WellFormed) (hne : ∀ l ∈ assumptions, l.var ≠ 0)
    (hrun : e.solve assumptions limit = .ok (outcome, limit', e')) :
    (e.control.infeasible = true ∧ outcome = .unsatisfiable ∧ e' = e) ∨
      (e.control.infeasible = false ∧ e.Keeps e' ∧
        (outcome ≠ .satisfiable → e'.search.decisionLevel = 0) ∧
        ((outcome = .budgetExceeded ∧ ∃ last e₁, StopsAt assumptions limit e last e₁ ∧
            e₁.At last ∧ e₁.WellFormed ∧ e₁.search.backtrack 0 = .ok e'.search ∧
            (e.search.UpToDate → e₁.Current last)) ∨
          ((e.under assumptions).Concludes e' outcome ∧
            (e.search.UpToDate → e'.Leaves outcome)))) := by
  unfold solve at hrun
  split at hrun
  · rename_i hinf
    cases hrun
    exact Or.inl ⟨hinf, rfl, rfl⟩
  · rename_i hinf
    have hinf : e.control.infeasible = false := by simpa using hinf
    obtain ⟨e₀, hback, hrun⟩ := ok_of_bind hrun
    have hkeeps := keeps_under h assumptions
    obtain ⟨hall, hhonours, hknown, hup⟩ := posed_spec h hne hback
    have hat : (e₀.posed assumptions).At .propagating := trivial
    obtain ⟨hrunAdv, hlevel, hend⟩ := run_spec hall.wellFormed hhonours hknown hat hrun
    refine Or.inr ⟨hinf, hkeeps.trans (hall.toKeeps.trans hrunAdv.toKeeps), hlevel, ?_⟩
    rcases hend with ⟨rfl, last, e₁, hint, hat, hw₁, hback₁, hcur⟩ | ⟨hconcludes, hleaves⟩
    · exact Or.inl ⟨rfl, last, e₁, ⟨hinf, e₀, hback, hint⟩, hat, hw₁, hback₁,
        fun hu => hcur (hup hu)⟩
    · exact Or.inr ⟨hconcludes.of_advances hall hrunAdv, fun hu => hleaves (hup hu)⟩

end

end Engine

end ClauseLearning
