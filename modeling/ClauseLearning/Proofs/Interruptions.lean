import ClauseLearning.Proofs.Attaching

/-!
# Interruptions

An engine to which constraints are added and that is asked to search again and again, each time
under a termination condition that may stop it at any poll. It finds right answers as long as no
search is stopped between a conflict at the root and its handling: such a conflict is forgotten,
because at the root there is nothing to go back over and the whole trail counts as notified of.

* `Engine.Worked`: engines by their history.
* `Engine.Worked.satisfiable`: an assignment that is found satisfies everything that was added.
-/

namespace ClauseLearning

variable {κ : Type} [CustomConstraint κ]

namespace Engine

/-- An engine to which constraints were added, and whose searches were stopped at any polls but
those that abandon a conflict. -/
inductive Worked : List (Description κ) → Engine κ → Prop
  | make (o : Options) : Worked [] (make o)
  | grow {added : List (Description κ)} {e : Engine κ} (n : Nat) (h : Worked added e) :
      Worked added (e.grow n)
  | add {added ds : List (Description κ)} {handle : Nat} {references : List Reference}
      {e e' : Engine κ} (h : Worked added e) (hp : ∀ d ∈ ds, d.Proper)
      (hrun : e.add handle ds = .ok (.ok references, e')) : Worked (added ++ ds) e'
  | solve {added : List (Description κ)} {τ : Type} [Termination τ] {assumptions : List Literal}
      {limit limit' : τ} {outcome : Outcome} {e e' : Engine κ} (h : Worked added e)
      (hne : ∀ l ∈ assumptions, l.var ≠ 0)
      (hkeeps : ∀ last e₁, StopsAt assumptions limit e last e₁ → ¬ e₁.Abandons last)
      (hrun : e.solve assumptions limit = .ok (outcome, limit', e')) : Worked added e'

/-- The facts and the attached constraints say what was added, and no notification is missing. -/
structure Holding (added : List (Description κ)) (e : Engine κ) : Prop where
  wellFormed : e.WellFormed
  upToDate : e.control.infeasible = false → e.search.UpToDate
  covers : e.control.infeasible = false →
    ∀ d ∈ added, ∃ handle ds, d ∈ ds ∧ e.search.Covers handle ds
  allowed : e.search.order.allowed = none
  restricted : e.control.restricted = false

omit [CustomConstraint κ] in
theorem Holding.grow {added : List (Description κ)} {e : Engine κ} (h : Holding added e) (n : Nat) :
    Holding added (e.grow n) := by
  obtain ⟨hadv, hup, hcontrol, -⟩ := grow_spec h.wellFormed n
  refine ⟨hadv.wellFormed, fun hi => hup (h.upToDate ?_), fun hi d hd => ?_,
    hadv.allowed.mpr h.allowed, (hadv.free h.allowed).trans h.restricted⟩
  · rw [hcontrol] at hi
    exact hi
  · rw [hcontrol] at hi
    obtain ⟨handle, ds, hmem, hcovers⟩ := h.covers hi d hd
    exact ⟨handle, ds, hmem, hcovers.retains hadv.retains⟩

theorem Holding.add {added ds : List (Description κ)} {handle : Nat} {references : List Reference}
    {e e' : Engine κ} (h : Holding added e) (hp : ∀ d ∈ ds, d.Proper)
    (hrun : e.add handle ds = .ok (.ok references, e')) : Holding (added ++ ds) e' := by
  have hw := h.wellFormed
  rcases add_spec hw hp hrun with ⟨-, hrefused, -⟩ | ⟨hinf, s₀, hback, -, -, hfin⟩
  · cases hrefused
  have hadds := hfin.adds references rfl
  obtain ⟨-, hallowed, -⟩ := SearchState.size_backtrack hw.search hback
  refine ⟨hfin.wellFormed, fun _ => ?_, fun _ d hd => ?_,
    hadds.allowed.mpr (hallowed.trans h.allowed), hfin.alike.restricted.trans h.restricted⟩
  · exact hadds.upToDate ((h.upToDate hinf).backtrack hw.search hback)
  · rcases List.mem_append.mp hd with hd | hd
    · obtain ⟨handle', ds', hmem, hcovers⟩ := h.covers hinf d hd
      have hretains := (SearchState.Retains.backtrack hw.search hback).trans hadds.retains
      exact ⟨handle', ds', hmem, hcovers.retains hretains⟩
    · exact ⟨handle, ds, hd, hadds.covers⟩

section

variable {τ : Type} [Termination τ] {added : List (Description κ)} {assumptions : List Literal}
  {limit limit' : τ} {e e' : Engine κ}

theorem Holding.solve {outcome : Outcome} (h : Holding added e) (hne : ∀ l ∈ assumptions, l.var ≠ 0)
    (hkeeps : ∀ last e₁, StopsAt assumptions limit e last e₁ → ¬ e₁.Abandons last)
    (hrun : e.solve assumptions limit = .ok (outcome, limit', e')) : Holding added e' := by
  rcases solve_spec h.wellFormed hne hrun with ⟨-, -, rfl⟩ | ⟨hinf, hk, -, hend⟩
  · exact h
  have hu := h.upToDate hinf
  have hallowed := hk.allowed.mpr h.allowed
  have hrestricted := (hk.free h.allowed).trans h.restricted
  refine ⟨hk.wellFormed, fun hi => ?_, fun _ d hd => ?_, hallowed, hrestricted⟩
  · rcases hend with ⟨rfl, last, e₁, hstops, -, hw₁, hback, hcurrent⟩ | ⟨hconcludes, hleaves⟩
    · exact (hcurrent hu).backtrack hw₁ (hkeeps last e₁ hstops) hback
    · have hleft := hleaves hu
      cases outcome with
      | satisfiable => exact hleft.1
      | unsatisfiable =>
        rw [show e'.control.infeasible = true from hconcludes.2.1] at hi
        cases hi
      | unsatisfiableUnder core => exact hleft
      | budgetExceeded => exact hleft.elim
      | inconclusive =>
        rcases hconcludes with hr | ha
        · rw [hrestricted] at hr
          cases hr
        · exact absurd hallowed ha
  · obtain ⟨handle, ds, hmem, hcovers⟩ := h.covers hinf d hd
    exact ⟨handle, ds, hmem, hcovers.retains hk.retains⟩

end

theorem Worked.holding {added : List (Description κ)} {e : Engine κ} (h : Worked added e) :
    Holding added e := by
  induction h with
  | make o =>
    exact ⟨wellFormed_make o, fun _ => (SearchState.blank_make o).upToDate, nofun, rfl, rfl⟩
  | grow n _ ih => exact ih.grow n
  | add _ hp hrun ih => exact ih.add hp hrun
  | solve _ hne hkeeps hrun ih => exact ih.solve hne hkeeps hrun

/-- Whatever completes an assignment that is found satisfies everything that was added. -/
theorem Worked.satisfiable {τ : Type} [Termination τ] {added : List (Description κ)}
    {assumptions : List Literal} {limit limit' : τ} {e e' : Engine κ} (h : Worked added e)
    (hne : ∀ l ∈ assumptions, l.var ≠ 0)
    (hrun : e.solve assumptions limit = .ok (.satisfiable, limit', e')) (ν : Valuation)
    (hν : ∀ l ∈ e'.search.assignment.trues, l.holds ν = true) : ∀ d ∈ added, d.Holds ν := by
  intro d hd
  have hh := h.holding
  rcases solve_spec hh.wellFormed hne hrun with
    ⟨-, hno, -⟩ | ⟨hinf, hk, -, ⟨hno, -⟩ | ⟨-, hleaves⟩⟩
  · cases hno
  · cases hno
  obtain ⟨-, hsatisfied⟩ := hleaves (hh.upToDate hinf)
  obtain ⟨handle, ds, hmem, hcovers⟩ := hh.covers hinf d hd
  refine hcovers.retains hk.retains ν (fun l hl => ?_) (fun r c hc hlearned _ => ?_) d hmem
  · exact hν l (Assignment.mem_trues_of_mem_roots hl)
  · exact hsatisfied ν hν hc hlearned

/-- A stop before a conflict on the first level is handled, and a search after it. What the second
one finds satisfies both constraints. -/
theorem Worked.satisfiable_of_stopped :
    ∃ e e' : Engine Empty, ∃ limit limit' : Polls,
      Session.withChain.engine.solve [.make 2 false] (⟨Nat.ble 3, 0⟩ : Polls) =
        .ok (.budgetExceeded, limit, e) ∧
      e.solve [.make 1 true] (⟨fun _ => false, 0⟩ : Polls) = .ok (.satisfiable, limit', e') ∧
      ∀ ν : Valuation, (∀ l ∈ e'.search.assignment.trues, l.holds ν = true) →
        (Description.atLeast Session.copies.literals 2 : Description Empty).Holds ν ∧
          (Description.clause Session.consequence.literals : Description Empty).Holds ν := by
  have hresult : (do
      let (outcome, _, e) ← Session.withChain.engine.solve [.make 2 false] (⟨Nat.ble 3, 0⟩ : Polls)
      let (outcome', _) ← e.solve [.make 1 true] (⟨fun _ => false, 0⟩ : Polls)
      return (outcome, outcome')) = Except.ok (Outcome.budgetExceeded, Outcome.satisfiable) := by
    decide +kernel
  obtain ⟨⟨outcome, limit, e⟩, hstopped, hresult⟩ := ok_of_bind hresult
  obtain ⟨⟨outcome', limit', e'⟩, hsolve, hret⟩ := ok_of_bind hresult
  cases hret
  have hcopies : Worked [.atLeast Session.copies.literals 2] Session.withCopies.engine := by
    refine .add (.grow 1 (.grow 1 (.grow 1 (.make Options.standard)))) ?_ Session.add_copies
    exact List.forall_mem_singleton.mpr
      (show ∀ l ∈ Session.copies.literals, l.var ≠ 0 by decide)
  have hchain : Worked [.atLeast Session.copies.literals 2, .clause Session.consequence.literals]
      Session.withChain.engine := by
    refine .add (.grow 2 (.grow 1 hcopies)) ?_ Session.add_consequence
    exact List.forall_mem_singleton.mpr
      (show ∀ l ∈ Session.consequence.literals, l.var ≠ 0 by decide)
  have hworked := hchain.solve (by decide) (fun last e₁ hstops =>
    hstops.not_abandons (n := 4) rfl (by decide +kernel)) hstopped
  refine ⟨e, e', limit, limit', hstopped, hsolve, fun ν hν => ?_⟩
  have hholds := Worked.satisfiable hworked (by decide) hsolve ν hν
  exact ⟨hholds _ List.mem_cons_self, hholds _ (List.mem_cons_of_mem _ List.mem_cons_self)⟩

end Engine

end ClauseLearning
