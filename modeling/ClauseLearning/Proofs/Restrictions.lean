import ClauseLearning.Proofs.Answers

/-!
# Questions that are left open

A query is inconclusive when a restriction of decisions left it open. While every variable may be
decided there is no such query, whatever was restricted, forbidden and removed before: the heap of
decisions then offers every variable that has no value, so a search only runs out of decisions at a
full assignment; and what was derived under a restriction is flagged, and given up when the
restriction is lifted.

* `Engine.Free`: any variable may be decided, and nothing depends on a restriction.
* `Call.Unrestricted`, `Session.History`: histories that leave no restriction in force, and the
  sessions that calls lead to.
* `Session.History.free`: what such a history leaves.
* `Session.History.never_inconclusive`: no query is inconclusive then.
-/

namespace ClauseLearning

variable {κ : Type}

/-! ## Engines -/

theorem SearchState.order_delete (s : SearchState κ) (rs : List Reference) :
    (s.delete rs).order = s.order := by
  obtain ⟨⟨a, w⟩, arena, learned, order, head⟩ := s
  simp only [SearchState.delete]
  split <;> rfl

namespace Engine

/-- Any variable may be decided, and no constraint or root fact holds for a restriction only. -/
structure Free (e : Engine κ) : Prop where
  allowed : e.search.order.allowed = none
  restricted : e.control.restricted = false

theorem free_make (o : Options) : (make o : Engine κ).Free := ⟨rfl, rfl⟩

/-- What is flagged is dropped with everything else. -/
theorem clear_free {e : Engine κ} (h : e.WellFormed) (ha : e.search.order.allowed = none) :
    e.clear.Free := by
  obtain ⟨-, -, hrestricted, -⟩ := clear_spec h
  refine ⟨?_, hrestricted⟩
  obtain ⟨⟨⟨a, w⟩, arena, learned, order, head⟩, analyser, control⟩ := e
  exact h.search.order.restoreAll.2.1.trans ha

theorem allowed_restrictDecisions {e : Engine κ} (h : e.WellFormed) :
    (e.restrictDecisions none).search.order.allowed = none := by
  obtain ⟨⟨board, arena, learned, order, head⟩, analyser, control⟩ := e
  have hw : order.WellFormed board.assignment.cells.size := h.search.order
  have hlifted : ({ order with allowed := none } : DecisionOrder Generator).WellFormed
      board.assignment.cells.size := ⟨hw.valid, hw.numKeys, hw.zero⟩
  exact hlifted.restoreAll.2.1

namespace Free

variable {e e' : Engine κ} (h : e.Free)
include h

theorem keeps (hk : e.Keeps e') : e'.Free :=
  ⟨hk.allowed.mpr h.allowed, (hk.free h.allowed).trans h.restricted⟩

theorem growAll (hw : e.WellFormed) (ns : List Nat) : (e.growAll ns).Free := by
  induction ns generalizing e with
  | nil => exact h
  | cons n ns ih =>
    have hadv := (grow_spec hw n).1
    exact ih (h.keeps hadv.toKeeps) hadv.wellFormed

theorem model (hw : e.WellFormed) : e.model.2.Free := by
  obtain ⟨⟨board, arena, learned, order, head⟩, analyser, control⟩ := e
  have horder : order.WellFormed board.assignment.cells.size := hw.search.order
  obtain ⟨-, hkeys⟩ := select_spec
    (board.assignment.vars.filter fun v => !board.assignment.isAssigned v) horder.valid []
  exact ⟨hkeys.allowed.trans h.allowed, h.restricted⟩

theorem finishes {handle : Nat} {ds : List (Description κ)}
    {result : Except Refusal (List Reference)}
    (hf : Finishes handle ds e.search e.control result e') : e'.Free := by
  refine ⟨?_, hf.alike.restricted.trans h.restricted⟩
  cases result with
  | ok rs => exact (hf.adds rs rfl).allowed.mpr h.allowed
  | error refusal => exact (hf.restores refusal rfl).2.1.allowed.mpr h.allowed

variable [CustomConstraint κ]

theorem remove {rs : List Reference} {handle : Nat} (hw : e.WellFormed)
    (hrun : e.remove rs handle = .ok e') : e'.Free := by
  obtain ⟨search, analyser, control⟩ := e
  obtain ⟨search', hdelete, hret⟩ := ok_of_bind hrun
  cases hret
  obtain ⟨s₁, hback, hdelete⟩ := ok_of_bind hdelete
  obtain ⟨s₂, hforget, hdelete⟩ := ok_of_bind hdelete
  cases hdelete
  obtain ⟨-, hallowed, -⟩ := SearchState.size_backtrack hw.search hback
  obtain ⟨-, -, hthins, -⟩ := SearchState.forgetReasons_spec (hw.search.backtrack hback) hforget
  refine ⟨?_, h.restricted⟩
  rw [SearchState.order_delete, hthins.order, hallowed]
  exact h.allowed

/-- A search that may decide every variable is not left open. -/
theorem solve {τ : Type} [Termination τ] {assumptions : List Literal} {limit limit' : τ}
    {outcome : Outcome} (hw : e.WellFormed) (hne : ∀ l ∈ assumptions, l.var ≠ 0)
    (hrun : e.solve assumptions limit = .ok (outcome, limit', e')) :
    e'.WellFormed ∧ e'.Free ∧ outcome ≠ .inconclusive := by
  rcases solve_spec hw hne hrun with ⟨-, rfl, rfl⟩ | ⟨-, hk, -, hend⟩
  · exact ⟨hw, h, nofun⟩
  · have hfree := h.keeps hk
    refine ⟨hk.wellFormed, hfree, ?_⟩
    rintro rfl
    rcases hend with ⟨hstopped, -⟩ | ⟨hflagged | hrestricted, -⟩
    · cases hstopped
    · rw [hfree.restricted] at hflagged
      cases hflagged
    · exact hrestricted hfree.allowed

end Free

end Engine

/-! ## Calls -/

namespace Session

variable [CustomConstraint κ]

/-- Entries that are added again restrict no decision. -/
theorem attachEntries_free {handle : Nat} {entries entries' : List (BookEntry κ)} {refused : Bool}
    {e e' : Engine κ} (h : e.WellFormed) (hroot : e.search.decisionLevel = 0)
    (hp : ∀ entry ∈ entries, ∀ d ∈ entry.descriptions, d.Proper) (hf : e.Free)
    (hrun : attachEntries handle entries e = .ok ((refused, entries'), e')) : e'.Free := by
  induction entries generalizing handle entries' refused e with
  | nil =>
    cases hrun
    exact hf
  | cons entry entries ih =>
    have hp' : ∀ entry ∈ entries, ∀ d ∈ entry.descriptions, d.Proper := fun entry' hentry =>
      hp entry' (List.mem_cons_of_mem _ hentry)
    unfold attachEntries at hrun
    split at hrun
    · obtain ⟨⟨⟨refused', rest⟩, e₁⟩, hrest, hrun⟩ := ok_of_bind hrun
      cases hrun
      exact ih h hroot hp' hf hrest
    · obtain ⟨⟨result, e₁⟩, hadd, hrun⟩ := ok_of_bind hrun
      have hfinished : e₁ = e ∨
          Engine.Finishes handle entry.descriptions e.search e.control result e₁ := by
        rcases Engine.add_spec_of_root h hroot (hp entry List.mem_cons_self) hadd with
          ⟨-, -, hsame⟩ | ⟨-, hfin⟩
        · exact .inl hsame
        · exact .inr hfin
      have hf₁ : e₁.Free := by
        rcases hfinished with rfl | hfin
        · exact hf
        · exact hf.finishes hfin
      cases result with
      | ok references =>
        obtain ⟨⟨⟨refused', rest⟩, e₂⟩, hrest, hrun⟩ := ok_of_bind hrun
        cases hrun
        rcases hfinished with rfl | hfin
        · exact ih h hroot hp' hf hrest
        · exact ih hfin.wellFormed ((hfin.adds references rfl).decisionLevel_eq.trans hroot) hp' hf₁
            hrest
      | error refusal =>
        cases hrun
        obtain ⟨search, analyser, control⟩ := e₁
        exact ⟨hf₁.allowed, hf₁.restricted⟩

/-- A rebuild under no restriction leaves nothing that depends on one. -/
theorem rebuild_free {s s' : Session κ} (h : s.Valid) (ha : s.engine.search.order.allowed = none)
    (hrun : (rebuild).run s = (.ok (), s')) : s'.engine.Free := by
  obtain ⟨_, s₁, h₁, hrun⟩ := ok_of_run_bind hrun
  cases h₁
  obtain ⟨_, s₂, h₂, hrun⟩ := ok_of_run_bind hrun
  cases h₂
  obtain ⟨⟨refused, entries⟩, s₃, h₃, hrun⟩ := ok_of_run_bind hrun
  obtain ⟨hattach, -⟩ := ok_of_run_ofEngine h₃
  obtain ⟨_, s₄, h₄, hrun⟩ := ok_of_run_bind hrun
  cases h₄
  obtain ⟨hw, hblank, -⟩ := Engine.clear_spec h.engine
  have hf := attachEntries_free hw hblank.decisionLevel h.proper
      (Engine.clear_free h.engine ha) hattach
  cases refused with
  | false =>
    cases hrun
    exact hf
  | true =>
    cases hrun
    obtain ⟨⟨search, analyser, control⟩, book⟩ := s₃
    exact ⟨hf.allowed, hf.restricted⟩

theorem addConstraint_free {ds : List (Description κ)} {result : Except Refusal Nat}
    {s s' : Session κ} (h : s.Valid) (hp : ∀ d ∈ ds, d.Proper) (hf : s.engine.Free)
    (hrun : (addConstraint ds).run s = (.ok result, s')) : s'.engine.Free := by
  rcases addConstraint_spec h hp hrun with ⟨-, -, rfl⟩ |
    ⟨-, ⟨references, -, -, hfin⟩ | ⟨-, -, hfin⟩⟩
  · exact hf
  · exact hf.finishes hfin
  · exact hf.finishes hfin

theorem takeModel_free {model : List Literal} {s s' : Session κ} (h : s.engine.WellFormed)
    (hf : s.engine.Free) (hrun : (takeModel).run s = (.ok model, s')) : s'.engine.Free := by
  obtain ⟨ls, s₁, h₁, hrun⟩ := ok_of_run_bind hrun
  cases h₁
  obtain ⟨_, s₂, h₂, hrun⟩ := ok_of_run_bind hrun
  obtain ⟨hback, -⟩ := ok_of_run_ofEngine h₂
  obtain ⟨e₂, hback, hret⟩ := ok_of_bind hback
  cases hret
  cases hrun
  obtain ⟨hidles, -⟩ := s.engine.model_spec h
  exact (hf.model h).keeps (Engine.backtrack_spec hidles.wellFormed hback).1.toKeeps

section

variable {τ : Type} [Termination τ] {assumptions : List Int} {limit : Book κ → τ}
  {settle : τ → Book κ → Book κ} {result : Except SearchError Answer} {s s' : Session κ}

/-- A query to which every variable may be decided is not left open. -/
theorem ask_free (h : s.Valid) (hf : s.engine.Free)
    (hrun : (ask assumptions limit settle).run s = (.ok result, s')) :
    s'.engine.Free ∧ result ≠ .error .inconclusive := by
  obtain ⟨ls, limit', outcome, e, hls, hsolve, hanswer⟩ := ok_of_run_ask hrun
  have hne := (ok_of_run_literals hls).2.1
  have hv := (idles_growAll h (assumptions.map Int.natAbs)).valid h
  obtain ⟨hw, hfree, hclosed⟩ := (hf.growAll h.engine _).solve hv.engine hne hsolve
  cases outcome with
  | satisfiable =>
    obtain ⟨model, s₁, htake, hret⟩ := ok_of_run_bind hanswer
    cases hret
    exact ⟨takeModel_free hw hfree htake, nofun⟩
  | inconclusive => exact absurd rfl hclosed
  | _ =>
    cases hanswer
    exact ⟨hfree, nofun⟩

end

theorem remove_free {handle : Nat} {s s' : Session κ} (h : s.Valid) (hf : s.engine.Free)
    (hrun : (remove handle).run s = (.ok (), s')) : s'.engine.Free := by
  obtain ⟨_, s₁, h₁, hrun⟩ := ok_of_run_bind hrun
  obtain ⟨hv, hengine⟩ := markRemoved_valid h h₁
  exact rebuild_free hv (hengine ▸ hf.allowed) hrun

/-- Once the restriction is lifted nothing depends on it: what is flagged is built anew. -/
theorem decideAll_free {s s' : Session κ} (h : s.Valid)
    (hrun : (decideAll).run s = (.ok (), s')) : s'.engine.Free := by
  obtain ⟨_, s₁, h₁, hrun⟩ := ok_of_run_bind hrun
  obtain ⟨hback, hbook⟩ := ok_of_run_ofEngine h₁
  obtain ⟨e, hback, hret⟩ := ok_of_bind hback
  have he : e.restrictDecisions none = s₁.engine := (Prod.mk.inj (Except.ok.inj hret)).2
  have hback' := Engine.backtrack_idles h.engine hback
  have hallowed : s₁.engine.search.order.allowed = none := by
    rw [← he]
    exact Engine.allowed_restrictDecisions hback'.wellFormed
  have hv : s₁.Valid := by
    refine Idles.valid ⟨?_, congrArg Book.entries hbook⟩ h
    rw [← he]
    exact hback'.trans (Engine.restrict_idles hback'.wellFormed none)
  obtain ⟨restricted, s₂, h₂, hrun⟩ := ok_of_run_bind hrun
  cases h₂
  dsimp only at hrun
  cases hrestricted : s₁.engine.control.restricted with
  | true =>
    simp only [hrestricted, if_true] at hrun
    exact rebuild_free hv hallowed hrun
  | false =>
    simp only [hrestricted, Bool.false_eq_true, if_false] at hrun
    cases hrun
    exact ⟨hallowed, hrestricted⟩

end Session

namespace Call

/-- Whether the calls so far, newest first, leave every variable to be decided. -/
def Unrestricted : List Call → Prop
  | [] => True
  | decideOnly _ :: _ => False
  | decideAll :: _ => True
  | reset :: _ => True
  | _ :: cs => Unrestricted cs

variable [CustomConstraint κ]

/-- What a call does about restrictions: one sets them, two lift them, and the others keep what is
free of them free. -/
theorem free {c : Call} {cs : List Call} {s s' : Session κ} (h : s.Valid)
    (hrun : (c.run).run s = (.ok (), s')) (hf : Unrestricted cs → s.engine.Free)
    (hc : Unrestricted (c :: cs)) : s'.engine.Free := by
  cases c with
  | newVariables n =>
    obtain ⟨m, hrun⟩ := Session.ok_of_run_discard hrun
    obtain ⟨-, rfl⟩ := Session.ok_of_run_newVariables hrun
    exact (hf hc).keeps (Engine.grow_spec h.engine n).1.toKeeps
  | add a =>
    obtain ⟨result, hrun⟩ := Session.ok_of_run_discard hrun
    rw [Addition.run_eq] at hrun
    obtain ⟨ls, s₁, hls, hrun⟩ := Session.ok_of_run_bind hrun
    obtain ⟨rfl, hne, -⟩ := Session.ok_of_run_literals hls
    exact Session.addConstraint_free ((Session.idles_growAll h _).valid h) (Addition.proper hne)
      ((hf hc).growAll h.engine _) hrun
  | query assumptions shared =>
    obtain ⟨result, hrun⟩ := Session.ok_of_run_discard hrun
    rw [Session.query_eq_ask] at hrun
    exact (Session.ask_free h (hf hc) hrun).1
  | interrupted assumptions polls budget =>
    obtain ⟨result, hrun⟩ := Session.ok_of_run_discard hrun
    exact (Session.ask_free h (hf hc) hrun).1
  | remove handle => exact Session.remove_free h (hf hc) hrun
  | removeSubsumed handle =>
    obtain ⟨entry, -, -, hremove, -⟩ := Session.ok_of_run_removeSubsumed hrun
    exact (hf hc).remove h.engine hremove
  | decideOnly vs => exact hc.elim
  | decideAll => exact Session.decideAll_free h hrun
  | computeImplicant =>
    obtain ⟨ls, hrun⟩ := Session.ok_of_run_discard hrun
    obtain ⟨model, implicant, -, -, -, rfl⟩ := Session.computeImplicant_spec hrun
    obtain ⟨⟨search, analyser, control⟩, book⟩ := s
    exact ⟨(hf hc).allowed, (hf hc).restricted⟩
  | takeEvents =>
    cases hrun
    obtain ⟨⟨search, analyser, control⟩, book⟩ := s
    exact ⟨(hf hc).allowed, (hf hc).restricted⟩
  | requestStop =>
    cases hrun
    exact hf hc
  | reset =>
    cases hrun
    exact Engine.free_make s.book.options

end Call

namespace Session

variable [CustomConstraint κ]

/-- A session with the calls that led to it from a new one, newest first. -/
inductive History : List Call → Session κ → Prop
  | make (o : Options) : History [] (make o)
  | call {cs : List Call} {c : Call} {s s' : Session κ} (h : History cs s)
      (hrun : (c.run).run s = (.ok (), s')) : History (c :: cs) s'

theorem History.reachable {cs : List Call} {s : Session κ} (h : History cs s) : s.Reachable := by
  induction h with
  | make o => exact .make o
  | call _ hrun ih => exact .call ih hrun

theorem History.free {cs : List Call} {s : Session κ} (h : History cs s)
    (hcs : Call.Unrestricted cs) : s.engine.Free := by
  induction h with
  | make o => exact Engine.free_make o
  | call h hrun ih => exact Call.free h.reachable.valid hrun ih hcs

/-- No query is left open while every variable may be decided, whatever happened before. -/
theorem History.never_inconclusive {cs : List Call} {s s' : Session κ} (h : History cs s)
    (hcs : Call.Unrestricted cs) (assumptions : List Int) :
    (∀ shared, (query assumptions shared).run s ≠ (.ok (.error .inconclusive), s')) ∧
      ∀ polls budget,
        (queryInterrupted assumptions polls budget).run s ≠ (.ok (.error .inconclusive), s') := by
  refine ⟨fun shared hrun => ?_, fun polls budget hrun => ?_⟩
  · rw [query_eq_ask] at hrun
    exact (ask_free h.reachable.valid (h.free hcs) hrun).2 rfl
  · exact (ask_free h.reachable.valid (h.free hcs) hrun).2 rfl

/-- A restriction to the first of two variables is lifted again after a query. -/
theorem History.never_inconclusive_after_decideAll :
    ∃ s : Session Empty,
      History [.decideAll, .query [-2] false, .decideOnly [1], .newVariables 2] s ∧
        ∀ s', (query [-1] false).run s ≠ (.ok (.error .inconclusive), s') := by
  have hhistory : ∃ s : Session Empty,
      History [.decideAll, .query [-2] false, .decideOnly [1], .newVariables 2] s := by
    refine ⟨_, .call (.call (.call (.call (.make Options.standard) (Prod.ext ?_ rfl))
      (Prod.ext ?_ rfl)) (Prod.ext ?_ rfl)) (Prod.ext ?_ rfl)⟩
    all_goals decide +kernel
  obtain ⟨s, hs⟩ := hhistory
  exact ⟨s, hs, fun s' => (History.never_inconclusive hs trivial [-1]).1 false⟩

end Session

end ClauseLearning
