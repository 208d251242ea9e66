import ClauseLearning.Proofs.Attaching

/-!
# Refusals

Why an addition is refused, and what it leaves. The root facts follow from the constraints that are
present unless decisions are restricted: then some of them only forbid decisions, and an addition
may be refused because of those. A refused addition takes back what it did; facts that still wait
for their notifications are the one thing it does not give back.

* `Session.Lawful.refused`: what is refused contradicts what is present.
* `Session.Reachable.refused_restores`: what a refused addition leaves.
-/

namespace ClauseLearning

variable {κ : Type} [CustomConstraint κ]

namespace Session

theorem ok_of_run_addition {a : Addition} {result : Except Refusal Nat} {s s' : Session κ}
    (h : (a.run).run s = (.ok result, s')) :
    ∃ ls : List Literal, (∀ l ∈ ls, l.var ≠ 0) ∧ ls.map Literal.toDimacs = a.numbers ∧
      (addConstraint (a.descriptions ls)).run
        ⟨s.engine.growAll (a.numbers.map Int.natAbs), s.book⟩ = (.ok result, s') := by
  rw [Addition.run_eq] at h
  obtain ⟨ls, s₁, hls, h⟩ := ok_of_run_bind h
  obtain ⟨rfl, hne, hnumbers⟩ := ok_of_run_literals hls
  exact ⟨ls, hne, hnumbers, h⟩

/-- Unless blocked decisions count as facts, what is refused contradicts what is present; and
nothing is added any more once there is no model. -/
theorem Lawful.refused {a : Addition} {refusal : Refusal} {s s' : Session κ} (h : s.Lawful)
    (hrun : (a.run).run s = (.ok (.error refusal), s')) :
    (refusal = .infeasibleState → ∀ ν, ¬ s.Holds ν) ∧
      (refusal = .triviallyUnsatisfiable → s.engine.control.restricted = false →
        ∀ ν, s.Holds ν → ¬ a.Holds ν) := by
  have hv := h.reachable.valid
  obtain ⟨ls, hne, hnumbers, hrun⟩ := ok_of_run_addition hrun
  have hgrow := idles_growAll hv (a.numbers.map Int.natAbs)
  have hfaithful := hgrow.faithful h.faithful
  rcases addConstraint_spec (hgrow.valid hv) (Addition.proper hne) hrun with
    ⟨hinf, hrefused, -⟩ | ⟨-, ⟨references, hadded, -⟩ | ⟨hrefused, -, hfin⟩⟩
  · cases hrefused
    refine ⟨fun _ ν hν => ?_, nofun⟩
    exact hfaithful.infeasible hinf ν ((hgrow.holds_iff ν).mpr hν)
  · cases hadded
  · cases hrefused
    refine ⟨nofun, fun _ hr ν hν ha => ?_⟩
    obtain ⟨-, -, hnone⟩ := hfin.restores _ rfl
    have hadmits := hfaithful.admits (hgrow.engine.alike.restricted.trans hr) ν
      ((hgrow.holds_iff ν).mpr hν)
    exact hnone ν hadmits ((Addition.holds_iff hne hnumbers ν).mpr ha)

/-- The session after the complement of the copied literal was refused. -/
def refusedChain : Session Empty := (((Addition.clause [-1]).run).run withChain).2

theorem run_refusedChain : ((Addition.clause [-1]).run).run withChain =
    (.ok (.error .triviallyUnsatisfiable), refusedChain) :=
  Prod.ext (by decide +kernel) rfl

/-- The copies contradict the complement of their literal. -/
theorem Lawful.refused_withChain :
    ((Addition.clause [-1]).run).run withChain =
        (.ok (.error .triviallyUnsatisfiable), refusedChain) ∧
      ∀ ν, withChain.Holds ν → ¬ (Addition.clause [-1]).Holds ν :=
  ⟨run_refusedChain,
    (Lawful.refused undisturbed_withChain.lawful run_refusedChain).2 rfl rfl⟩

/-! ## What is left -/

omit [CustomConstraint κ] in
theorem restores_growAll {e : Engine κ} (h : e.WellFormed)
    (hh : e.search.head = e.search.assignment.trues.length) (ns : List Nat) :
    e.search.Restores (e.growAll ns).search := by
  induction ns generalizing e with
  | nil => exact .refl hh
  | cons n ns ih =>
    have hone : e.search.Restores (e.grow n).search := by
      obtain ⟨-, -, -, hs | hs, -⟩ := Engine.grow_spec h n
      · rw [hs]
        exact .refl hh
      · rw [hs]
        exact .grow h.search hh n
    refine hone.trans (ih (Engine.grow_idles h n).wellFormed ?_)
    rw [hone.head, hone.trues]

/-- If nothing waits for its notifications, a refused addition leaves the book, the trail with its
levels and reasons, what waits, the constraints and their counters as they were. -/
theorem Reachable.refused_restores {a : Addition} {refusal : Refusal} {s s' : Session κ}
    (h : s.Reachable) (hh : s.engine.search.head = s.engine.search.assignment.trues.length)
    (hrun : (a.run).run s = (.ok (.error refusal), s')) :
    s'.book = s.book ∧ s.engine.search.Restores s'.engine.search ∧
      s'.engine.search.head = s.engine.search.head ∧ s'.engine.WellFormed ∧
      ∀ {r c c'}, s.engine.search.arena.get? r = some c → s'.engine.search.arena.get? r = some c' →
        c'.kind.falsified = c.kind.falsified := by
  have hv := h.valid
  obtain ⟨ls, hne, -, hrun⟩ := ok_of_run_addition hrun
  have hgrow := idles_growAll hv (a.numbers.map Int.natAbs)
  have hrestores := restores_growAll hv.engine hh (a.numbers.map Int.natAbs)
  obtain ⟨hbook, hw, hall⟩ : s'.book = s.book ∧ s'.engine.WellFormed ∧
      s.engine.search.Restores s'.engine.search := by
    rcases addConstraint_spec (hgrow.valid hv) (Addition.proper hne) hrun with
      ⟨-, -, rfl⟩ | ⟨-, ⟨references, hadded, -⟩ | ⟨hrefused, hbook, hfin⟩⟩
    · exact ⟨rfl, hgrow.engine.wellFormed, hrestores⟩
    · cases hadded
    · cases hrefused
      obtain ⟨-, hrestored, -⟩ := hfin.restores _ rfl
      exact ⟨hbook, hfin.wellFormed, hrestores.trans hrestored⟩
  refine ⟨hbook, hall, hall.head.trans hh.symm, hw, fun hc hc' => ?_⟩
  exact hall.falsified_eq hv.engine.search hw.search hh hc hc'

/-- The complement of the copied literal is propagated before it is refused. The copies that were
counted as false then count as open again. -/
theorem Reachable.refused_restores_withChain :
    ∃ c' : Constraint Empty,
      ((Addition.clause [-1]).run).run withChain =
        (.ok (.error .triviallyUnsatisfiable), refusedChain) ∧
      refusedChain.book = withChain.book ∧
      withChain.engine.search.Restores refusedChain.engine.search ∧
      refusedChain.engine.search.head = 0 ∧
      refusedChain.engine.search.arena.get? ⟨0⟩ = some c' ∧ c'.kind.falsified = 0 := by
  have hc : withChain.engine.search.arena.get? ⟨0⟩ = some ⟨.cardinality copies, .ofHandle 0⟩ := rfl
  have hsome : (refusedChain.engine.search.arena.get? ⟨0⟩).isSome = true := by decide +kernel
  obtain ⟨c', hc'⟩ := Option.isSome_iff_exists.mp hsome
  obtain ⟨hbook, hrestores, hhead, -, hcounters⟩ :=
    Reachable.refused_restores undisturbed_withChain.lawful.reachable rfl run_refusedChain
  exact ⟨c', run_refusedChain, hbook, hrestores, hhead, hc', hcounters hc hc'⟩

end Session

end ClauseLearning
