import ClauseLearning.Proofs.Running

/-!
# The assumptions that are to blame

A search that meets a false assumption reports the decisions that the value of its negation rests
on. All of them are assumptions, since only these are decided on the levels that are open then.

* `Engine.decide_eq_failAssumption`: the search stops there.
* `Engine.Reachable.blames`: what it reports; no mark is left behind.
-/

namespace ClauseLearning

variable {κ : Type} [CustomConstraint κ]

namespace Engine

variable {e : Engine κ} {l : Literal}

/-- A search that meets a false assumption stops there. -/
theorem decide_eq_failAssumption (hcon : e.search.assignment.Consistent)
    (hnext : e.control.assumptions[e.search.decisionLevel]? = some l)
    (hfalse : e.search.assignment.isFalsified l = true) :
    e.decide = (e.failAssumption l).map fun x => (some x.1, x.2) := by
  have hlt := (List.getElem?_eq_some_iff.mp hnext).1
  have hdrop : e.control.assumptions.drop e.search.decisionLevel =
      l :: e.control.assumptions.drop (e.search.decisionLevel + 1) := by
    rw [List.drop_eq_getElem_cons hlt, (List.getElem?_eq_some_iff.mp hnext).2]
  have htrue : ¬ e.search.assignment.isSatisfied l = true := fun htrue =>
    hcon.not_mem_of_negate_mem ((hcon.isFalsified_iff l).mp hfalse)
      ((hcon.isSatisfied_iff l).mp htrue)
  unfold decide
  rw [hdrop, assume, if_neg htrue, if_pos hfalse]
  cases e.failAssumption l <;> rfl

/-- Where a search meets a false assumption, its core has the assumption first and then the
decisions above the root that its value rests on, newest first and each once. All of these are
assumptions. No mark was on, and none is afterwards. -/
theorem Reachable.blames (h : Reachable (.searching .deciding) e)
    (hnext : e.control.assumptions[e.search.decisionLevel]? = some l)
    (hfalse : e.search.assignment.isFalsified l = true) :
    ∃ core, unsatCore e.search.arena e.search.assignment l e.analyser.seen =
        .ok (l :: core, e.analyser.seen) ∧
      e.search.arena.Blames e.search.assignment l core ∧ (l :: core).Nodup ∧
      (∀ m ∈ core, m ∈ e.control.assumptions) ∧
      (∀ v : Nat, e.analyser.seen[v]?.getD false = false) ∧
      ∃ e', e.decide = .ok (some (if e.control.restricted then .inconclusive
        else .unsatisfiableUnder (l :: core)), e') ∧ e'.analyser = e.analyser := by
  have hw : e.search.WellFormed := h.orderly.wellFormed.search
  have hclean := h.orderly.wellFormed.clean
  have hcon : e.search.assignment.Consistent := hw.onBoard.consistent
  have hfailed := (hcon.isFalsified_iff l).mp hfalse
  obtain ⟨⟨found, seen⟩, hrun⟩ := unsatCore_total hw.justifies l e.analyser.seen
  obtain ⟨hsize, hoff, core, rfl, hblames⟩ :=
    unsatCore_finds hw.justifies hw.layered hfailed hclean.size hclean.off hrun
  have hseen : seen = e.analyser.seen := by
    refine Array.ext (hsize.trans hclean.size.symm) fun v hv hv' => ?_
    have h₁ := hoff v
    have h₂ := hclean.off v
    rw [Array.getElem?_eq_getElem hv] at h₁
    rw [Array.getElem?_eq_getElem hv'] at h₂
    exact h₁.trans h₂.symm
  subst hseen
  refine ⟨core, hrun, hblames, hblames.nodup hcon hfailed, fun m hm => ?_, hclean.off, ?_⟩
  · obtain ⟨hmem, hlevel, hdecision, -⟩ := (hblames.mem_iff m).mp hm
    obtain ⟨i, hi⟩ := List.mem_iff_getElem?.mp hmem
    rw [hcon.levelOf_eq hi] at hlevel
    have hlt := (List.getElem?_eq_some_iff.mp hnext).1
    exact h.orderly.fits.honours.chosen hi hdecision hlevel
      (Nat.le_trans (e.search.assignment.levelAt_le i) (Nat.le_of_lt hlt))
  · rw [decide_eq_failAssumption hcon hnext hfalse]
    obtain ⟨search, ⟨minimisation, seen, minimiser⟩, control⟩ := e
    obtain ⟨search', hback⟩ := SearchState.backtrack_total hw 0
    refine ⟨⟨search', ⟨minimisation, seen, minimiser⟩, control⟩, ?_, rfl⟩
    dsimp only at hrun hback
    simp only [failAssumption, hrun, hback, bind, Except.bind, pure, Except.pure, Except.map]

/-- The clause makes one assumption false once the other is made, and both are to blame. -/
theorem Reachable.blames_of_withPair :
    ∃ e : Engine Empty, Reachable (.searching .deciding) e ∧
      e.control.assumptions[e.search.decisionLevel]? = some (.make 2 false) ∧
      e.search.assignment.isFalsified (.make 2 false) = true ∧
      e.search.arena.Blames e.search.assignment (.make 2 false) [.make 1 false] := by
  have hresult : (advance 3 .propagating
      ((withPair Options.standard).posed [.make 1 false, .make 2 false])).any
      (fun x => Decidable.decide (x.1 = .deciding ∧
        x.2.control.assumptions[x.2.search.decisionLevel]? = some (.make 2 false) ∧
        x.2.search.assignment.isFalsified (.make 2 false) = true ∧
        (unsatCore x.2.search.arena x.2.search.assignment (.make 2 false)
          x.2.analyser.seen).toOption.map Prod.fst = some [.make 2 false, .make 1 false])) =
      true := by decide +kernel
  obtain ⟨⟨stage, e⟩, hadvance, hx⟩ := (Option.any_eq_true ..).mp hresult
  obtain ⟨rfl, hnext, hfalse, hcore⟩ := of_decide_eq_true hx
  have hposed : Reachable (.searching .propagating)
      ((withPair Options.standard).posed [.make 1 false, .make 2 false]) :=
    .posed (reachable_withPair _) rfl fun l hl => by
      rcases List.mem_pair.mp hl with rfl | rfl <;> decide
  have h := hposed.reaches (reaches_of_advance hadvance)
  obtain ⟨core, hrun, hblames, -⟩ := Reachable.blames h hnext hfalse
  rw [hrun] at hcore
  cases hcore
  exact ⟨e, h, hnext, hfalse, hblames⟩

end Engine

end ClauseLearning
