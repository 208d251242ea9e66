import ClauseLearning.Proofs.Moments

/-!
# What is run stays in order

Whatever an engine is asked to do it does, and every state on the way is one that was accounted for
(`Engine.Reachable`). The only thing that a search may lack is steps.

* `Engine.Reachable.add_yields`, `Engine.Reachable.remove_yields`: constraints in and out.
* `Engine.Reachable.step_yields`, `Engine.Reachable.solve_cases`: stages and searches.
-/

namespace ClauseLearning

variable {κ : Type} [CustomConstraint κ]

/-- What a call of an engine leaves, which had so many cells before: no variable is forgotten. -/
structure Engine.Grown (size : Nat) (e : Engine κ) : Prop where
  reachable : Engine.Reachable .resting e
  size_le : size ≤ e.search.assignment.cells.size

namespace Engine.Reachable

variable {moment : Moment κ} {e e' : Engine κ}

theorem report (h : Reachable moment e) (event : Event) : Reachable moment (e.report event) := by
  obtain ⟨search, analyser, control⟩ := e
  exact h.noted (control.report event) (.of_noted rfl) rfl

/-- Whether there is a model at all is no matter of the constraints. -/
theorem flag (h : Reachable moment e) (infeasible : Bool) :
    Reachable moment (e.modifyControl fun c => { c with infeasible }) := by
  obtain ⟨search, analyser, control⟩ := e
  exact h.noted { control with infeasible } (.of_noted rfl) rfl

theorem backtrack_yields (h : Reachable moment e) (level : Nat) :
    Yields (e.backtrack level) fun e' => Reachable .resting e' ∧
      e'.search.decisionLevel = min level e.search.decisionLevel ∧
      e'.search.assignment.cells.size = e.search.assignment.cells.size := by
  have hw := h.orderly.wellFormed
  refine (Engine.backtrack_yields hw level).and_run.mono fun e' ⟨hrun, _⟩ => ⟨h.rewound hrun, ?_⟩
  have hback := (backtrack_spec hw hrun).2.1
  exact ⟨SearchState.decisionLevel_backtrack hw.search hback,
    (SearchState.size_backtrack hw.search hback).1⟩

/-! ## Additions -/

section

variable {start : SearchState κ} {rs : List Reference}

theorem assertUnits {ls : List Literal} (h : Reachable (.adding start rs) e)
    (hk : ∀ l ∈ ls, l.Known e.search.assignment.cells.size) :
    Reachable (.adding start rs) (e.modifySearch fun s => (Engine.assertUnits ls s).2) := by
  induction ls generalizing e with
  | nil => exact h
  | cons l ls ih =>
    have hkl := hk l List.mem_cons_self
    have hone := h.asserted hkl
    obtain ⟨he, -, -⟩ := SearchState.enqueue_spec h.orderly.wellFormed.search hkl
    obtain ⟨search, analyser, control⟩ := e
    simp only [modifySearch, Engine.assertUnits] at hone ⊢
    split
    · rename_i s₁ hs₁
      rw [hs₁] at hone he
      refine ih hone fun m hm => ?_
      show m.Known s₁.assignment.cells.size
      rw [he.extension.size]
      exact hk m (List.mem_cons_of_mem _ hm)
    · rename_i s₁ hs₁
      rw [hs₁] at hone
      exact hone

/-- A part comes in as its normal form. -/
theorem attachNormal {d : Description κ} (h : Reachable (.adding start rs) e)
    (hd : d.Known e.search.assignment.cells.size) {handle : Nat} {ok : Bool}
    {rs' : List Reference} {s' : SearchState κ}
    (hrun : Engine.attachNormal handle rs (d.normalise e.search.assignment) e.search =
      (ok, rs', s')) : Reachable (.adding start rs') ⟨s', e.analyser, e.control⟩ := by
  have hwf := (Description.normalise_spec h.orderly.wellFormed.search.onBoard.consistent
      hd).wellFormed
  cases hk : d.normalise e.search.assignment with
  | satisfied =>
    rw [hk] at hrun
    cases hrun
    exact h
  | unsatisfiable =>
    rw [hk] at hrun
    cases hrun
    exact h
  | units ls =>
    rw [show d.normalise e.search.board.assignment = .units ls from hk] at hwf
    rw [hk] at hrun
    have hunits := h.assertUnits hwf
    simp only [Engine.attachNormal, Prod.mk.injEq] at hrun
    obtain ⟨-, rfl, rfl⟩ := hrun
    exact hunits
  | constraint k =>
    have hattached := h.attached hd hk handle
    rw [hk] at hrun
    simp only [Engine.attachNormal, Prod.mk.injEq] at hrun
    obtain ⟨-, rfl, rfl⟩ := hrun
    exact hattached

theorem withdraw_yields (h : Reachable (.adding start rs) e) :
    Yields (withdraw start.trailLength rs e) fun x => Grown start.assignment.cells.size x.2 ∧
      ∀ attached, x.1 ≠ .ok attached := by
  have hw := h.orderly.wellFormed.search
  obtain ⟨hstart, hroot, hp⟩ := h.orderly.fits
  obtain ⟨s, hrun⟩ := SearchState.backtrackRoot_total hw (hp.decisionLevel_eq.trans hroot)
    start.trailLength
  have hsize : s.assignment.cells.size = e.search.assignment.cells.size := by
    rw [show start.trailLength = start.assignment.trues.length from
      Assignment.size_trail start.assignment] at hrun
    exact (SearchState.backtrackRoot_spec hw hp.length_le hrun).2.1.cut.size
  have hrefused := (h.withdrawn hrun).refused
  obtain ⟨search, analyser, control⟩ := e
  refine .bind_total ⟨s, hrun⟩ fun s' hs' => ?_
  cases hrun.symm.trans hs'
  refine .ok ⟨⟨hrefused, ?_⟩, nofun⟩
  show start.assignment.cells.size ≤ (s.delete rs).assignment.cells.size
  rw [SearchState.assignment_delete, hsize]
  exact hp.size

/-- All parts come in, or what came in is taken back. -/
theorem addParts_yields {handle : Nat} {ds : List (Description κ)} (hp : ∀ d ∈ ds, d.Proper)
    (h : Reachable (.adding start rs) e) :
    Yields (addParts handle start.trailLength ds rs e) fun x =>
      Grown start.assignment.cells.size x.2 ∧ ∀ attached, x.1 = .ok attached → attached.Nodup := by
  have hwithdraw : ∀ {rs : List Reference} {e : Engine κ}, Reachable (.adding start rs) e →
      Yields (withdraw start.trailLength rs e) fun x =>
        Grown start.assignment.cells.size x.2 ∧ ∀ attached, x.1 = .ok attached → attached.Nodup :=
    fun h => h.withdraw_yields.mono fun _ hx =>
      ⟨hx.1, fun attached hok => absurd hok (hx.2 attached)⟩
  induction ds generalizing rs e with
  | nil =>
    obtain ⟨-, -, hp⟩ := h.orderly.fits
    refine .ok ⟨⟨h.rested, hp.size⟩, fun attached hok => ?_⟩
    cases hok
    exact hp.nodup
  | cons d ds ih =>
    have hgrown := h.widened (Description.maxVariable d.literals)
    obtain ⟨-, -, -, -, hsize⟩ :=
      grow_spec h.orderly.wellFormed (Description.maxVariable d.literals)
    have hd := (hp d List.mem_cons_self).known hsize
    have hpds : ∀ d' ∈ ds, d'.Proper := fun d' hd' => hp d' (List.mem_cons_of_mem _ hd')
    unfold addParts
    generalize e.grow (Description.maxVariable d.literals) = e₁ at *
    obtain ⟨search, analyser, control⟩ := e₁
    dsimp only
    split
    · exact ih hpds hgrown
    · rcases hattach : Engine.attachNormal handle rs (d.normalise search.assignment) search with
        ⟨ok, attached, search₂⟩
      have h₂ := hgrown.attachNormal hd hattach
      cases ok with
      | false => exact hwithdraw h₂
      | true =>
        refine .bind (propagate_yields h₂.orderly.wellFormed).and_run fun x ⟨hprop, _⟩ => ?_
        obtain ⟨conflict, e₃⟩ := x
        have h₃ := h₂.extended hprop
        cases conflict with
        | none => exact ih hpds h₃
        | some r => exact hwithdraw h₃

end

theorem add_yields (handle : Nat) {ds : List (Description κ)} (hp : ∀ d ∈ ds, d.Proper)
    (h : Reachable moment e) :
    Yields (e.add handle ds) fun x => Grown e.search.assignment.cells.size x.2 ∧
      ∀ attached, x.1 = .ok attached → attached.Nodup := by
  unfold add
  split
  · exact .ok ⟨⟨h.rested, Nat.le_refl _⟩, nofun⟩
  · refine (h.backtrack_yields 0).bind fun e₁ ⟨h₁, hlevel, hsize⟩ => ?_
    rw [Nat.zero_min] at hlevel
    rw [← hsize]
    exact (h₁.begun hlevel).addParts_yields hp

/-! ## Removals -/

theorem remove_yields {rs : List Reference} (hrs : rs.Nodup) (handle : Nat)
    (h : Reachable moment e) :
    Yields (e.remove rs handle) fun e' => Grown e.search.assignment.cells.size e' := by
  obtain ⟨e₁, hback, h₁, hroot, hsize⟩ := h.backtrack_yields 0
  rw [Nat.zero_min] at hroot
  obtain ⟨s₂, hforgot⟩ := SearchState.forgetReasons_total hroot
  have h₂ := h₁.forgot hforgot
  have ht := (SearchState.forgetReasons_spec h₁.orderly.wellFormed.search hforgot).2.2.1
  obtain ⟨search, analyser, control⟩ := e
  obtain ⟨s₁, hs₁, hsame⟩ := ok_of_bind hback
  cases hsame
  let owned := rs.filter fun r => (s₂.arena.get? r).any fun c => c.metadata.handle == some handle
  have hdelete : search.deleteOwned rs handle = .ok (s₂.delete owned) := by
    simp only [SearchState.deleteOwned, hs₁, hforgot, bind, Except.bind]
    rfl
  refine .bind_total ⟨_, hdelete⟩ fun s hs => .ok ?_
  cases hdelete.symm.trans hs
  have hgrown : search.assignment.cells.size ≤ (s₂.delete owned).assignment.cells.size := by
    rw [SearchState.assignment_delete, ht.size]
    exact Nat.le_of_eq hsize.symm
  refine ⟨h₂.deleted owned (hrs.filter _) fun r hr => ?_, hgrown⟩
  have hany := (List.mem_filter.mp hr).2
  cases hget : s₂.arena.get? r with
  | none =>
    rw [hget] at hany
    cases hany
  | some c => exact ⟨c, rfl⟩

/-! ## Stages -/

/-- Assumptions are made up to one that has to be propagated, or the search is over. -/
theorem assume_yields {ls : List Literal} (h : Reachable (.searching .deciding) e)
    (hls : ls = e.control.assumptions.drop e.search.decisionLevel) :
    Yields (e.assume ls) fun x => Reachable .resting x.2 ∧
      (x.1 = none → Reachable (.searching .propagating) x.2) := by
  have ho := h.orderly
  induction ls generalizing e with
  | nil =>
    have hmade : e.control.assumptions.length ≤ e.search.decisionLevel :=
      List.drop_eq_nil_iff.mp hls.symm
    refine (decideVariable_yields ho.wellFormed ho.fits.at_stage ho.fits.peopled).and_run.mono
      fun x hx => ?_
    have hrun := hx.1
    obtain ⟨outcome, e'⟩ := x
    cases outcome with
    | none => exact ⟨(h.chosen hmade hrun).rested, fun _ => h.chosen hmade hrun⟩
    | some outcome =>
      exact ⟨h.concluded hmade hrun, fun hnone => absurd hnone (Option.some_ne_none _)⟩
  | cons l ls ih =>
    have hnext : e.control.assumptions[e.search.decisionLevel]? = some l := by
      rw [← List.head?_drop, ← hls, List.head?_cons]
    unfold assume
    split
    · rename_i htrue
      have h' := h.assumed hnext htrue
      refine ih h' ?_ h'.orderly
      have htail : ls = e.control.assumptions.drop (e.search.decisionLevel + 1) := by
        rw [← List.tail_drop, ← hls, List.tail_cons]
      rw [htail, ← SearchState.decisionLevel_openLevel]
      rfl
    · rename_i htrue
      split
      · rename_i hfalse
        refine .bind (failAssumption_yields ho.wellFormed).and_run fun x hx => .ok ?_
        exact ⟨h.failed hnext hfalse hx.1, fun hnone => absurd hnone (Option.some_ne_none _)⟩
      · rename_i hfalse
        have hdecided := h.decided hnext (Assignment.isUnassigned_of_not htrue hfalse)
        exact .ok ⟨hdecided.rested, fun _ => hdecided⟩

/-- A stage leads to another one, or the search is over. -/
theorem step_yields {stage : Stage} (h : Reachable (.searching stage) e) :
    Yields (e.step stage) fun x => Reachable .resting x.2 ∧
      ∀ stage', x.1 = .ok stage' → Reachable (.searching stage') x.2 := by
  cases stage with
  | propagating =>
    refine .bind (propagate_yields h.orderly.wellFormed).and_run fun x ⟨hrun, _⟩ => .ok ?_
    obtain ⟨conflict, e'⟩ := x
    have h' := h.propagated hrun
    refine ⟨h'.rested, fun stage' hs => ?_⟩
    cases hs
    exact h'
  | conflict r =>
    have hcounted := h.counted
    have ho := hcounted.orderly
    obtain ⟨-, c, hc, hv⟩ := ho.fits.at_stage
    refine .bind (resolveConflict_yields ho.wellFormed ho.fits.honours hc hv).and_run
      fun x ⟨hrun, _⟩ => ?_
    obtain ⟨resolved, e₁⟩ := x
    cases resolved with
    | true =>
      have h₁ := hcounted.resolved hrun
      refine .ok ⟨h₁.rested, fun stage' hs => ?_⟩
      cases hs
      exact h₁
    | false =>
      obtain ⟨rfl, -⟩ := (resolveConflict_spec ho.wellFormed hc hv hrun).2 rfl
      refine .bind (P := fun x => Reachable .resting x.2) ?_ fun x hx => .ok ⟨hx, nofun⟩
      refine (hcounted.backtrack_yields 0).bind fun e₂ ⟨h₂, _⟩ => ?_
      split
      · exact .ok h₂
      · obtain ⟨search, analyser, control⟩ := e₂
        exact .ok (h₂.noted { control.report .rootConflict with infeasible := true } (.of_noted rfl)
          rfl)
  | deciding =>
    refine .bind (simplifyIfDue_yields h.orderly.wellFormed).and_run fun e₁ ⟨hrun₁, _⟩ => ?_
    have h₁ := h.simplified hrun₁
    refine .bind (reduceIfDue_yields h₁.orderly.wellFormed).and_run fun e₂ ⟨hrun₂, _⟩ => ?_
    have h₂ := h₁.reduced hrun₂
    refine .bind (restartIfDue_yields h₂.orderly.wellFormed).and_run fun e₃ ⟨hrun₃, _⟩ => ?_
    have h₃ := h₂.restarted hrun₃
    refine (h₃.assume_yields rfl).bind fun x ⟨hx, hnone⟩ => ?_
    obtain ⟨outcome, e₄⟩ := x
    cases outcome with
    | some outcome => exact .ok ⟨hx, nofun⟩
    | none =>
      refine .ok ⟨hx, fun stage' hs => ?_⟩
      cases hs
      exact hnone rfl

/-- Every stage that a search comes to is accounted for. -/
theorem reaches {stage last : Stage} (h : Reachable (.searching stage) e)
    (hr : Reaches stage e last e') : Reachable (.searching last) e' := by
  induction hr with
  | here => exact h
  | later hstep _ ih => exact ih ((h.step_yields.of_run hstep).2 _ rfl)

/-! ## Searches -/

section

variable {τ : Type} [Termination τ]

/-- A search comes to an end, or it has gone through as many stages as it may. -/
theorem run_cases {stage : Stage} (h : Reachable (.searching stage) e) (n : Nat) (limit : τ) :
    (Yields (run n stage limit e) fun x => Reachable .resting x.2.2) ∨
      (run n stage limit e = .error .outOfSteps ∧ ∃ x, advance n stage e = some x) := by
  induction n generalizing stage limit e with
  | zero => exact .inr ⟨rfl, _, rfl⟩
  | succ n ih =>
    unfold run advance
    split
    · exact .inl ((h.report .searchStopped).backtrack_yields 0 |>.bind fun _ h' => .ok h'.1)
    · obtain ⟨⟨next, e'⟩, hstep, hrest, hnext⟩ := h.step_yields
      rw [hstep]
      cases next with
      | error outcome => exact .inl (.ok hrest)
      | ok stage' => exact ih (hnext stage' rfl) _

end

end Engine.Reachable

/-- The search under assumptions goes through as many stages as it may and is not over then. -/
def Engine.Endures (assumptions : List Literal) (e : Engine κ) : Prop :=
  ∃ e₀ x, e.backtrack 0 = .ok e₀ ∧
    Engine.advance Engine.maxStages .propagating (e₀.posed assumptions) = some x

/-- A search under assumptions comes to an end, unless it lacks steps. -/
theorem Engine.Reachable.solve_cases {τ : Type} [Termination τ] {e : Engine κ}
    (h : Reachable .resting e) {assumptions : List Literal} (hne : ∀ l ∈ assumptions, l.var ≠ 0)
    (limit : τ) :
    (Yields (e.solve assumptions limit) fun x => Grown e.search.assignment.cells.size x.2.2) ∨
      (e.solve assumptions limit = .error .outOfSteps ∧ e.Endures assumptions) := by
  have hsize : ∀ x, e.solve assumptions limit = .ok x →
      e.search.assignment.cells.size ≤ x.2.2.search.assignment.cells.size := fun x hrun => by
    rcases solve_spec h.orderly.wellFormed hne hrun with ⟨-, -, hsame⟩ | ⟨-, hk, -⟩
    · exact Nat.le_of_eq (by rw [hsame])
    · exact hk.size
  suffices hcases : (Yields (e.solve assumptions limit) fun x => Reachable .resting x.2.2) ∨
      (e.solve assumptions limit = .error .outOfSteps ∧ e.Endures assumptions) from
    hcases.imp_left fun hy => hy.and_run.mono fun x ⟨hrun, hx⟩ => ⟨hx, hsize x hrun⟩
  unfold Engine.solve
  split
  · exact .inl (.ok h)
  · obtain ⟨e₀, hback, -⟩ := h.backtrack_yields 0
    rw [hback]
    rcases (h.posed hback hne).run_cases maxStages limit with hy | ⟨hrun, x, hx⟩
    · exact .inl hy
    · exact .inr ⟨hrun, e₀, x, hback, hx⟩

/-! ## A search that makes a literal true -/

namespace Engine

/-- A new engine that got a clause of two literals. -/
def withPair (o : Options) : Engine Empty :=
  ((make o).grow 2).modifySearch fun s =>
    (s.attach ⟨.clause ⟨.make 1 true, .make 2 true, []⟩, .ofHandle 0⟩).2.2

/-- A clause in normal form is attached as it is. -/
theorem Reachable.attached_clause {κ : Type} [CustomConstraint κ] {start : SearchState κ}
    {rs : List Reference} {e : Engine κ} (h : Reachable (.adding start rs) e) {a : Assignment}
    (ha : e.search.assignment = a) (k : Clause)
    (hknown : ∀ l ∈ k.literals, l.var ≠ 0 ∧ l.var < a.cells.size)
    (htrue : k.literals.any a.isSatisfied = false)
    (hfalse : (k.literals.filter fun l => !a.isFalsified l) = k.literals)
    (hsorted : k.literals.Pairwise fun l m => Literal.le l m = true)
    (hreps : k.literals.eraseReps = k.literals)
    (hcomplement : Normal.hasComplement k.literals = false) :
    Reachable (.adding start (rs ++ [(e.search.attach ⟨.clause k, .ofHandle 0⟩).1]))
      (e.modifySearch fun s => (s.attach ⟨.clause k, .ofHandle 0⟩).2.2) := by
  subst ha
  exact .attached h (d := .clause k.literals) (fun l hl => ⟨(hknown l hl).1, (hknown l hl).2⟩)
    (normalise_clause htrue hfalse hsorted hreps hcomplement) 0

theorem reachable_withPair (o : Options) : Reachable .resting (withPair o) := by
  have hstart : Reachable (.adding (make o : Engine Empty).search []) ((make o).grow 2) :=
    .widened (.begun (.make o) rfl) 2
  refine .rested (hstart.attached_clause (a := Assignment.empty.grow 2) rfl
    ⟨.make 1 true, .make 2 true, []⟩ ?_ ?_ ?_ ?_ ?_ ?_)
  all_goals decide +kernel

/-- As one literal is assumed to be false, the clause makes the other one true. -/
theorem Reachable.of_withPair :
    ∃ e : Engine Empty, Reachable (.searching .deciding) e ∧
      e.search.assignment.trues = [.make 1 false, .make 2 true] ∧
      e.search.assignment.reason? 2 = some ⟨0⟩ := by
  have hresult : (advance 3 .propagating ((withPair Options.standard).posed [.make 1 false])).any
      (fun x => Decidable.decide (x.1 = .deciding ∧
        x.2.search.assignment.trues = [.make 1 false, .make 2 true] ∧
        x.2.search.assignment.reason? 2 = some ⟨0⟩)) = true := by decide +kernel
  obtain ⟨⟨stage, e⟩, hadvance, hx⟩ := (Option.any_eq_true ..).mp hresult
  obtain ⟨rfl, htrues, hreason⟩ := of_decide_eq_true hx
  have hposed : Reachable (.searching .propagating)
      ((withPair Options.standard).posed [.make 1 false]) :=
    .posed (reachable_withPair _) rfl fun l hl => by cases List.mem_singleton.mp hl; decide
  exact ⟨e, hposed.reaches (reaches_of_advance hadvance), htrues, hreason⟩

end Engine

end ClauseLearning
