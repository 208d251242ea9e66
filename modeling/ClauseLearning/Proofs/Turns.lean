import ClauseLearning.Proofs.Racing

/-!
# Racing one after the other

Contestants that run one after the other take their steps in one of the orders that a race may have.

* `Race.Contestant.Reports`: a contestant that is left alone comes to what a query comes to.
* `Race.run_winner`: the order in which `Race.run` has the steps taken, so what it gives is right.
-/

namespace ClauseLearning

/-! ## Queries on their own -/

namespace Session

variable {κ : Type} [CustomConstraint κ] {s s' : Session κ}

theorem stopRequested_addTo {c : Formula.Constraint} {result : Except Refusal Nat}
    (hrun : (c.addTo).run s = (.ok result, s')) : s'.book.stopRequested = s.book.stopRequested := by
  have hadd : c.addTo = c.addition.run (κ := κ) := by cases c <;> rfl
  rw [hadd] at hrun
  obtain ⟨ls, -, -, hrun⟩ := ok_of_run_addition hrun
  obtain ⟨handle, s₁, h₁, hrun⟩ := ok_of_run_bind hrun
  cases h₁
  obtain ⟨added, s₂, h₂, hrun⟩ := ok_of_run_bind hrun
  obtain ⟨-, hbook⟩ := ok_of_run_ofEngine h₂
  obtain ⟨e₂, book₂⟩ := s₂
  cases hbook
  cases added with
  | ok references =>
    cases hrun
    rfl
  | error refusal =>
    cases hrun
    rfl

theorem stopRequested_addAll {cs : List Formula.Constraint} {result : Except Refusal Unit}
    (hrun : (Formula.addAll cs).run s = (.ok result, s')) :
    s'.book.stopRequested = s.book.stopRequested := by
  induction cs generalizing s with
  | nil =>
    cases hrun
    rfl
  | cons c cs ih =>
    obtain ⟨added, s₁, hadd, hrun⟩ := ok_of_run_bind hrun
    cases added with
    | ok handle => exact (ih hrun).trans (stopRequested_addTo hadd)
    | error refusal =>
      cases hrun
      exact stopRequested_addTo hadd

/-- A query without assumptions and with a budget of its own searches, and turns the outcome into an
answer. -/
theorem run_query {answer' : Answer}
    (hrun : (query [] false).run s = (.ok (.ok answer'), s')) :
    ∃ outcome limit e,
      s.engine.solve [] (⟨s.book.stopRequested, budgetOf false s.book⟩ : QueryLimit) =
        .ok (outcome, limit, e) ∧
      (answer outcome).run ⟨e, { forgetAnswer s.book with sharedBudget := none }⟩ =
        (.ok (.ok answer'), s') := by
  rw [query_eq_ask] at hrun
  obtain ⟨ls, limit, outcome, e, hls, hsolve, hanswer⟩ := ok_of_run_ask hrun
  cases hls
  exact ⟨outcome, limit, e, hsolve, hanswer⟩

end Session

namespace Race

/-- A contestant has the answer of a query, if there is one. -/
def Contestant.Reports (s : PlainSession) (c : Contestant) : Prop :=
  ∀ answer s', (Session.query (κ := Empty) [] false).run s = (.ok (.ok answer), s') →
    c = .answered answer s'.takeEvents.2

theorem Contestant.conclude_of_ok {outcome : Outcome} {answer : Answer} {s s' : PlainSession}
    (hrun : (Session.answer (κ := Empty) outcome).run s = (.ok (.ok answer), s')) :
    conclude outcome s = .answered answer s'.takeEvents.2 := by
  simp only [conclude, hrun]

/-! ## One after the other -/

/-- Some moves lead from one state of a race to another. -/
def Field.Leads (f : Formula) (os : List Options) (withImplicant : Bool) (r r' : Field) : Prop :=
  ∃ moves : List Move, moves.foldl (Field.move f os withImplicant) r = r'

section

variable {f : Formula} {os : List Options} {withImplicant : Bool} {i : Nat} {o : Options}

theorem Field.Leads.refl (r : Field) : Field.Leads f os withImplicant r r := ⟨[], rfl⟩

theorem Field.Leads.trans {r₁ r₂ r₃ : Field} (h : Field.Leads f os withImplicant r₁ r₂)
    (h' : Field.Leads f os withImplicant r₂ r₃) : Field.Leads f os withImplicant r₁ r₃ := by
  obtain ⟨ms, rfl⟩ := h
  obtain ⟨ms', rfl⟩ := h'
  exact ⟨ms ++ ms', List.foldl_append⟩

variable (f withImplicant) {cs : List Contestant} (ho : os[i]? = some o) (hi : i < cs.length)
include ho hi

theorem Field.leads_act (p : Podium Verdict) (c : Contestant) :
    Field.Leads f os withImplicant ⟨p, cs.set i c⟩
      ⟨(c.act f withImplicant i o p).1, cs.set i (c.act f withImplicant i o p).2⟩ := by
  refine ⟨[.act i], ?_⟩
  simp only [List.foldl_cons, List.foldl_nil, Field.move, ho, List.getElem?_set_self hi,
    List.set_set]

/-- A search that nobody stops from outside comes to what a run comes to. -/
theorem Field.leads_search {p : Podium Verdict} (hp : p.isToldToStop i = false) (n : Nat)
    (stage : Stage) (budget : Condition) (s : PlainSession) :
    ∃ c, Field.Leads f os withImplicant ⟨p, cs.set i (.searching stage budget s)⟩ ⟨p, cs.set i c⟩ ∧
      ∀ outcome limit e, Engine.run n stage (⟨false, budget⟩ : QueryLimit) s.engine =
        .ok (outcome, limit, e) → c = .conclude outcome ⟨e, s.book⟩ := by
  induction n generalizing stage budget s with
  | zero =>
    refine ⟨.searching stage budget s, .refl _, fun outcome limit e hrun => ?_⟩
    cases hrun
  | succ n ih =>
    have hact : Field.Leads f os withImplicant ⟨p, cs.set i (.searching stage budget s)⟩
        ⟨p, cs.set i (.search (p.isToldToStop i) stage budget s)⟩ :=
      Field.leads_act f withImplicant ho hi p (.searching stage budget s)
    rw [hp] at hact
    unfold Contestant.search at hact
    unfold Engine.run
    rcases hpoll : Termination.poll (⟨false, budget⟩ : QueryLimit) with ⟨stop, limit⟩
    simp only [hpoll] at hact ⊢
    cases stop with
    | true =>
      refine ⟨.gone, hact, fun outcome limit' e hrun => ?_⟩
      obtain ⟨e', -, hret⟩ := ok_of_bind hrun
      cases hret
      rfl
    | false =>
      have hlimit : ∃ b, stage.announce limit = ⟨false, b⟩ := by
        obtain rfl : (⟨false, (budget.poll fun _ => false).2⟩ : QueryLimit) = limit :=
          congrArg Prod.snd hpoll
        cases stage <;> exact ⟨_, rfl⟩
      obtain ⟨b, hb⟩ := hlimit
      dsimp only at hact ⊢
      rw [hb] at hact ⊢
      cases hstep : s.engine.step stage with
      | error fault =>
        rw [hstep] at hact
        refine ⟨.gone, hact, fun outcome limit' e hrun => ?_⟩
        cases hrun
      | ok result =>
        obtain ⟨next, e⟩ := result
        rw [hstep] at hact
        cases next with
        | error outcome =>
          refine ⟨.conclude outcome ⟨e, s.book⟩, hact, fun outcome' limit' e' hrun => ?_⟩
          cases hrun
          rfl
        | ok stage' =>
          obtain ⟨c, hleads, hc⟩ := ih stage' b ⟨e, s.book⟩
          exact ⟨c, hact.trans hleads, hc⟩

/-- What a contestant does on its own is what a query does. -/
theorem Field.leads_pose {p : Podium Verdict} (hp : p.isToldToStop i = false) {s : PlainSession}
    (hstop : s.book.stopRequested = false) :
    ∃ c, Field.Leads f os withImplicant ⟨p, cs.set i (.pose s)⟩ ⟨p, cs.set i c⟩ ∧ c.Reports s := by
  obtain ⟨engine, book⟩ := s
  have hstop : book.stopRequested = false := hstop
  unfold Contestant.pose
  dsimp only
  split
  · rename_i hinf
    refine ⟨_, .refl _, fun answer s' hquery => ?_⟩
    obtain ⟨outcome, limit, e, hsolve, hanswer⟩ := Session.run_query hquery
    unfold Engine.solve at hsolve
    rw [if_pos hinf] at hsolve
    cases hsolve
    exact Contestant.conclude_of_ok hanswer
  · rename_i hinf
    split
    · rename_i fault hback
      refine ⟨.gone, .refl _, fun answer s' hquery => ?_⟩
      obtain ⟨outcome, limit, e, hsolve, -⟩ := Session.run_query hquery
      unfold Engine.solve at hsolve
      rw [if_neg hinf, hback] at hsolve
      cases hsolve
    · rename_i e₀ hback
      obtain ⟨c, hleads, hdone⟩ := Field.leads_search f withImplicant ho hi hp Engine.maxStages
        .propagating (Session.budgetOf false book) ⟨e₀.posed [], Contestant.opened book⟩
      refine ⟨c, hleads, fun answer s' hquery => ?_⟩
      obtain ⟨outcome, limit, e, hsolve, hanswer⟩ := Session.run_query hquery
      unfold Engine.solve at hsolve
      rw [if_neg hinf, hback, hstop] at hsolve
      obtain rfl := hdone outcome limit e hsolve
      exact Contestant.conclude_of_ok hanswer

/-- A contestant that was let in comes to what it comes to on its own. -/
theorem Field.leads_load {p : Podium Verdict} (hp : p.isToldToStop i = false) :
    ∃ c, Field.Leads f os withImplicant ⟨p, cs.set i .registered⟩ ⟨p, cs.set i c⟩ ∧
      ∀ answer notes s, solve i f (.make o) = (some answer, notes, s) → c = .answered answer s := by
  have hact : Field.Leads f os withImplicant ⟨p, cs.set i .registered⟩ ⟨p, cs.set i (.load f o)⟩ :=
    Field.leads_act f withImplicant ho hi p .registered
  unfold Contestant.load at hact
  unfold solve
  rcases hadd : (f.addTo (κ := Empty)).run (.make o) with ⟨result, s⟩
  rw [hadd] at hact
  rcases result with violation | refusal | ⟨⟨⟩⟩
  · refine ⟨_, hact, fun answer notes s' hsolve => ?_⟩
    cases hsolve
  · refine ⟨_, hact, fun answer notes s' hsolve => ?_⟩
    cases hsolve
    rfl
  · have hstop : s.book.stopRequested = false := by
      obtain ⟨m, s₁, hnew, hadd⟩ := Session.ok_of_run_bind hadd
      obtain ⟨-, rfl⟩ := Session.ok_of_run_newVariables hnew
      exact Session.stopRequested_addAll hadd
    obtain ⟨c, hleads, hreports⟩ := Field.leads_pose f withImplicant ho hi hp hstop
    refine ⟨c, hact.trans hleads, fun answer notes s' hsolve => ?_⟩
    dsimp only at hsolve
    split at hsolve
    · rename_i hquery
      cases hsolve
      exact hreports _ _ hquery
    · cases hsolve

/-- An attempt is made of steps of one contestant. -/
theorem Field.leads_attempt (p : Podium Verdict) :
    ∃ c, Field.Leads f os withImplicant ⟨p, cs.set i .waiting⟩
      ⟨(attempt f withImplicant i o p).1, cs.set i c⟩ := by
  have hact : Field.Leads f os withImplicant ⟨p, cs.set i .waiting⟩ _ :=
    Field.leads_act f withImplicant ho hi p .waiting
  unfold Contestant.act at hact
  unfold attempt
  dsimp only at hact
  cases hregister : p.register i with
  | none =>
    rw [hregister] at hact
    exact ⟨_, hact⟩
  | some p' =>
    rw [hregister] at hact
    obtain ⟨c, hleads, hyes⟩ := Field.leads_load f withImplicant ho hi
      (Podium.isToldToStop_register hregister i)
    rcases hsolve : solve i f (.make o) with ⟨answer, notes, s⟩
    cases answer with
    | none =>
      simp only
      exact ⟨c, hact.trans hleads⟩
    | some answer =>
      obtain rfl := hyes answer notes s hsolve
      simp only
      exact ⟨_, (hact.trans hleads).trans
        (Field.leads_act f withImplicant ho hi p' (.answered answer s))⟩

end

/-- The race in which one contestant comes after the other is one of the orders. -/
theorem Field.leads_attemptAll (f : Formula) (os : List Options) (withImplicant : Bool) (i : Nat)
    (p : Podium Verdict) (cs : List Contestant) (hlength : cs.length = os.length)
    (hwaiting : ∀ j, i ≤ j → ∀ c, cs[j]? = some c → c = .waiting) :
    ∃ cs', Field.Leads f os withImplicant ⟨p, cs⟩
      ⟨(attemptAll f withImplicant i (os.drop i) p).1, cs'⟩ := by
  induction hdrop : os.drop i generalizing i p cs with
  | nil => exact ⟨cs, .refl _⟩
  | cons o rest ih =>
    have hi : i < os.length := by
      by_contra hge
      rw [List.drop_eq_nil_of_le (Nat.le_of_not_lt hge)] at hdrop
      cases hdrop
    have hcons := List.drop_eq_getElem_cons hi
    rw [hdrop] at hcons
    obtain ⟨rfl, hrest⟩ := List.cons.inj hcons
    have hi' : i < cs.length := hlength ▸ hi
    have hself : cs.set i .waiting = cs := by
      rw [← hwaiting i (Nat.le_refl i) cs[i] (List.getElem?_eq_getElem hi'), List.set_getElem_self]
    obtain ⟨c, hfirst⟩ :=
      Field.leads_attempt f withImplicant (List.getElem?_eq_getElem hi) hi' p
    rw [hself] at hfirst
    have hrestWaiting : ∀ j, i + 1 ≤ j → ∀ c', (cs.set i c)[j]? = some c' → c' = .waiting := by
      intro j hj c' hc'
      rw [List.getElem?_set_ne (by omega)] at hc'
      exact hwaiting j (by omega) c' hc'
    obtain ⟨cs', hothers⟩ := ih (i + 1) (attempt f withImplicant i os[i] p).1 (cs.set i c)
      (List.length_set.trans hlength) hrestWaiting hrest.symm
    exact ⟨cs', hfirst.trans hothers⟩

/-- The race in which one contestant comes after the other is a race in some order of steps. -/
theorem run_winner (f : Formula) (os : List Options) (withImplicant interrupted : Bool) :
    ∃ moves : List Move,
      (run f os withImplicant interrupted).winner =
        (Field.after f os withImplicant moves).podium.winner.map (·.1) ∧
      (run f os withImplicant interrupted).verdict =
        (Field.after f os withImplicant moves).verdict := by
  obtain ⟨before, hbefore⟩ : ∃ moves : List Move, Field.after f os withImplicant moves =
      ⟨if interrupted then Podium.empty.interrupt else .empty, os.map fun _ => .waiting⟩ := by
    cases interrupted with
    | true => exact ⟨[.interrupt], rfl⟩
    | false => exact ⟨[], rfl⟩
  have hwaiting : ∀ j, 0 ≤ j → ∀ c, (os.map fun _ => Contestant.waiting)[j]? = some c →
      c = .waiting := by
    intro j _ c hc
    rw [List.getElem?_map] at hc
    obtain ⟨o, -, rfl⟩ := Option.map_eq_some_iff.mp hc
    rfl
  obtain ⟨cs', moves, hmoves⟩ := Field.leads_attemptAll f os withImplicant 0
    (if interrupted then Podium.empty.interrupt else .empty) _ (List.length_map _) hwaiting
  refine ⟨before ++ moves, ?_⟩
  have hafter : (Field.after f os withImplicant (before ++ moves)).podium =
      (attemptAll f withImplicant 0 os
        (if interrupted then Podium.empty.interrupt else .empty)).1 := by
    rw [Field.after, List.foldl_append, ← Field.after, hbefore, hmoves]
    rfl
  rw [Field.verdict, hafter]
  unfold run
  dsimp only
  cases hwinner : (attemptAll f withImplicant 0 os
      (if interrupted then Podium.empty.interrupt else .empty)).1.winner with
  | none => exact ⟨rfl, rfl⟩
  | some w => exact ⟨rfl, rfl⟩

theorem run_right {f : Formula} (hf : f.Built) (os : List Options)
    (withImplicant interrupted : Bool) : (run f os withImplicant interrupted).verdict.Right f := by
  obtain ⟨moves, -, hverdict⟩ := run_winner f os withImplicant interrupted
  rw [hverdict]
  exact (Field.Sound.after f os withImplicant moves).verdict_right hf

end Race

end ClauseLearning
