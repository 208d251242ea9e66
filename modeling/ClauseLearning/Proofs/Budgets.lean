import Mathlib.Data.Prod.Basic
import ClauseLearning.Custom.LazyClause
import ClauseLearning.Proofs.Tallies
import ClauseLearning.Proofs.Telling

/-!
# Budgets of conflicts

The options may allow a query so many conflicts. A query has a budget of its own, or what is left of
the one that it shares with the queries before it; one with a budget of its own ends the shared one.
A query may be asked to stop at any time (`Session.queryStoppable`), and it may be refused; the
other calls come between the queries in any order (`Session.Proceeds`).

* `Session.Budgeted.query`: one query and the budget it draws on.
* `Session.Proceeds.draws`: conflicts and what is left of a shared budget have a constant sum.
* `Session.Proceeds.within_budget`: no query and no run of queries overdraws its budget, and one
  that gives up has used it up.
-/

namespace ClauseLearning

/-! ## Limits -/

/-- The limit of a query that others may ask to stop: `answers` says at which of its polls they
have. -/
structure StoppableLimit where
  answers : Nat → Bool
  asked : Nat
  budget : Condition

instance : Termination StoppableLimit where
  poll limit :=
    let (stop, budget) := limit.budget.poll fun _ => false
    if limit.answers limit.asked then (true, { limit with asked := limit.asked + 1 })
    else (stop, { limit with asked := limit.asked + 1, budget })
  onConflict limit := { limit with budget := limit.budget.onConflict }

/-- A budget of conflicts that has met `m` of `n`, in the limit of a query that is asked to stop, or
is not. -/
theorem QueryLimit.meters (n : Nat) (stopRequested : Bool) :
    Termination.Meters n fun (limit : QueryLimit) m =>
      limit = ⟨stopRequested, .conflicts n m⟩ where
  poll := by
    rintro _ m rfl
    cases stopRequested <;> rfl
  lt_of_poll := by
    rintro _ m rfl hgo
    cases stopRequested with
    | false => exact Nat.lt_of_not_le (of_decide_eq_false hgo)
    | true => cases hgo
  onConflict := by
    rintro _ m rfl
    rfl

theorem StoppableLimit.meters (n : Nat) :
    Termination.Meters n fun (limit : StoppableLimit) m => limit.budget = .conflicts n m where
  poll := by
    rintro ⟨answers, asked, _⟩ m rfl
    show (if answers asked then _ else _ : Bool × StoppableLimit).2.budget = _
    split <;> rfl
  lt_of_poll := by
    rintro ⟨answers, asked, _⟩ m rfl hgo
    have hgo : (if answers asked then _ else _ : Bool × StoppableLimit).1 = false := hgo
    split at hgo
    · cases hgo
    · exact Nat.lt_of_not_le (of_decide_eq_false hgo)
  onConflict := by
    rintro ⟨answers, asked, _⟩ m rfl
    rfl

namespace Session

variable {κ : Type} [CustomConstraint κ]

/-- What a query keeps of its budget. -/
def settleBudget (shared : Bool) (budget : Condition) (book : Book κ) : Book κ :=
  { book with sharedBudget := if shared then some budget else none }

/-- A query that others may ask to stop. -/
def queryStoppable (assumptions : List Int) (answers : Nat → Bool) (shared : Bool) :
    SessionM κ (Except SearchError Answer) :=
  ask assumptions (fun book => (⟨answers, 0, budgetOf shared book⟩ : StoppableLimit))
    fun limit => settleBudget shared limit.budget

/-- The second session comes of the first one by calls none of which is a reset. They may end with a
violation, and computations of prime implicants with a fault. If the session is sharing, the queries
among them do not have budgets of their own. -/
inductive Proceeds (sharing : Bool) (s : Session κ) : Session κ → Prop
  | refl : Proceeds sharing s s
  | call {s₁ s₂ : Session κ} {c : Call} {result : Except Violation Unit} (h : Proceeds sharing s s₁)
      (hreset : c ≠ .reset) (hquery : c.isQuery = false) (hrun : c.run.run s₁ = (result, s₂))
      (hresult : ∀ fault, result = .error (.internal fault) → c = .computeImplicant) :
      Proceeds sharing s s₂
  | addCustom {s₁ s₂ : Session κ} {k : κ} {result : Except Violation (Except Refusal Nat)}
      (h : Proceeds sharing s s₁) (hrun : (addCustom k).run s₁ = (result, s₂))
      (hresult : ∀ fault, result ≠ .error (.internal fault)) : Proceeds sharing s s₂
  | asks {s₁ s₂ : Session κ} {assumptions : List Int} {shared : Bool}
      {result : Except Violation (Except SearchError Answer)} (h : Proceeds sharing s s₁)
      (hshared : sharing = true → shared = true)
      (hrun : (query assumptions shared).run s₁ = (result, s₂))
      (hresult : ∀ fault, result ≠ .error (.internal fault)) : Proceeds sharing s s₂
  | stoppable {s₁ s₂ : Session κ} {assumptions : List Int} {answers : Nat → Bool} {shared : Bool}
      {result : Except Violation (Except SearchError Answer)} (h : Proceeds sharing s s₁)
      (hshared : sharing = true → shared = true)
      (hrun : (queryStoppable assumptions answers shared).run s₁ = (result, s₂))
      (hresult : ∀ fault, result ≠ .error (.internal fault)) : Proceeds sharing s s₂

/-! ## Budgets -/

/-- The options allow `n` conflicts, and the shared budget, if there is one, is of so many. -/
structure Budgeted (n : Nat) (s : Session κ) : Prop where
  timeout : s.book.options.timeout = .conflicts n
  shared : ∀ budget, s.book.sharedBudget = some budget → ∃ m ≤ n, budget = .conflicts n m

/-- What is left of the budget that the next query draws on. -/
def budgetLeft (shared : Bool) (s : Session κ) : Nat :=
  match budgetOf shared s.book with
  | .conflicts budget met => budget - met
  | _ => 0

variable {n : Nat} {s s' : Session κ}

omit [CustomConstraint κ] in
theorem Budgeted.budgetOf_eq (h : s.Budgeted n) (shared : Bool) :
    ∃ m ≤ n, budgetOf shared s.book = .conflicts n m ∧ s.budgetLeft shared = n - m := by
  obtain ⟨m, hm, hbudget⟩ : ∃ m ≤ n, budgetOf shared s.book = .conflicts n m := by
    have hfresh : Condition.ofTimeout s.book.options.timeout = .conflicts n 0 := by
      rw [h.timeout, Condition.ofTimeout]
    unfold budgetOf
    rw [hfresh]
    cases shared with
    | false => exact ⟨0, Nat.zero_le n, rfl⟩
    | true =>
      cases hs : s.book.sharedBudget with
      | none => exact ⟨0, Nat.zero_le n, rfl⟩
      | some budget =>
        obtain ⟨m, hm, rfl⟩ := h.shared budget hs
        exact ⟨m, hm, rfl⟩
  refine ⟨m, hm, hbudget, ?_⟩
  rw [budgetLeft, hbudget]

omit [CustomConstraint κ] in
theorem Budgeted.budgetLeft_le (h : s.Budgeted n) (shared : Bool) : s.budgetLeft shared ≤ n := by
  obtain ⟨m, -, -, hleft⟩ := h.budgetOf_eq shared
  rw [hleft]
  exact Nat.sub_le n m

omit [CustomConstraint κ] in
theorem Budgeted.between (h : s.Budgeted n) (hb : s.Between s') :
    s'.Budgeted n ∧ s'.budgetLeft true = s.budgetLeft true := by
  obtain ⟨ho, hs⟩ := hb.book_eq
  refine ⟨⟨ho ▸ h.timeout, fun budget hbudget => h.shared budget (hs ▸ hbudget)⟩, ?_⟩
  simp only [budgetLeft, budgetOf, ho, hs]

omit [CustomConstraint κ] in
theorem budgeted_make {o : Options} (h : o.timeout = .conflicts n) :
    (make o : Session κ).Budgeted n := ⟨h, nofun⟩

/-! ## One query -/

theorem outcome_of_budgetExceeded {outcome : Outcome}
    (hrun : (answer outcome).run s = (.ok (.error .budgetExceeded), s')) :
    outcome = .budgetExceeded := by
  cases outcome with
  | budgetExceeded => rfl
  | satisfiable =>
    obtain ⟨model, s₁, -, hret⟩ := ok_of_run_bind hrun
    cases hret
  | unsatisfiable =>
    obtain ⟨_, s₁, -, hret⟩ := ok_of_run_bind hrun
    cases hret
  | unsatisfiableUnder core =>
    obtain ⟨_, s₁, -, hret⟩ := ok_of_run_bind hrun
    cases hret
  | inconclusive =>
    obtain ⟨_, s₁, -, hret⟩ := ok_of_run_bind hrun
    cases hret

/-- What a query does to the count of conflicts and to its budget. -/
structure Draws (n : Nat) (shared : Bool) (s s' : Session κ) : Prop where
  budgeted : s'.Budgeted n
  conflicts : s'.statistics.conflicts ≤ s.statistics.conflicts + s.budgetLeft shared
  left : shared = true → s'.budgetLeft true ≤ s.budgetLeft true
  conserves : shared = true → s'.budgetLeft true + s'.statistics.conflicts =
    s.budgetLeft true + s.statistics.conflicts

section

variable {assumptions : List Int} {shared : Bool}
  {result : Except Violation (Except SearchError Answer)}

/-- A query whose limit counts conflicts draws on its budget. If it gives up, its limit asked it to
stop when so much was left. -/
theorem Budgeted.ask (h : s.Budgeted n) {τ : Type} [Termination τ] {met : τ → Nat → Prop}
    (hm : Termination.Meters n met) {limit : Book κ → τ} {budget : τ → Condition}
    (hlimit : ∀ {m}, budgetOf shared s.book = .conflicts n m → met (limit (forgetAnswer s.book)) m)
    (hbudget : ∀ {limit m}, met limit m → budget limit = .conflicts n m)
    (hrun : (ask assumptions limit fun limit => settleBudget shared (budget limit)).run s =
      (result, s'))
    (hresult : ∀ fault, result ≠ .error (.internal fault)) :
    s.Draws n shared s' ∧ (result = .ok (.error .budgetExceeded) →
      ∃ last m, met last m ∧ (Termination.poll last).1 = true ∧
        s'.statistics.conflicts + (n - m) = s.statistics.conflicts + s.budgetLeft shared) := by
  rcases run_ask hrun hresult with ⟨hbetween, v, rfl⟩ |
    ⟨ls, s₁, limit', outcome, e, hbefore, hbook, hsolve, hanswer⟩
  · obtain ⟨hbudgeted, hleft⟩ := h.between hbetween
    have hsame := hbetween.conflicts_eq
    exact ⟨⟨hbudgeted, by omega, fun _ => hleft.le, fun _ => by omega⟩, nofun⟩
  obtain ⟨m, hmn, hof, hleft⟩ := h.budgetOf_eq shared
  obtain ⟨evs, htold, hmet, hle, hstop⟩ := Engine.solve_tells hm (hbook ▸ hlimit hof) hsolve
  generalize hnum : evs.count RestartEvent.conflict = k at hmet hle hstop
  have hafter := searchless_answer outcome _ _ _ hanswer hresult
  have hsearched : e.statistics.conflicts = s₁.statistics.conflicts + k := hnum ▸ htold.conflicts
  have hcount : s'.statistics.conflicts = s.statistics.conflicts + k := by
    rw [hafter.conflicts_eq, ← hbefore.conflicts_eq]
    exact hsearched
  have hmk : m + k ≤ n := by rwa [Nat.max_eq_right hmn] at hle
  have hsettled : (⟨e, settleBudget shared (budget limit') s₁.book⟩ : Session κ).Budgeted n := by
    refine ⟨hbefore.book_eq.1 ▸ h.timeout, fun b hb => ?_⟩
    have hb : (if shared then some (budget limit') else none) = some b := hb
    rw [hbudget hmet] at hb
    split at hb
    · cases hb
      exact ⟨m + k, hmk, rfl⟩
    · cases hb
  obtain ⟨hbudgeted, hleft'⟩ := hsettled.between hafter
  have hnow : shared = true → s'.budgetLeft true = n - (m + k) := by
    rintro rfl
    rw [hleft']
    simp only [budgetLeft, budgetOf, settleBudget, if_true, Option.getD_some, hbudget hmet]
  refine ⟨⟨hbudgeted, by omega, ?_, ?_⟩, ?_⟩
  · rintro rfl
    rw [hnow rfl, hleft]
    omega
  · rintro rfl
    rw [hnow rfl, hleft]
    omega
  · rintro rfl
    obtain ⟨last, hlast, hpoll⟩ := hstop (outcome_of_budgetExceeded hanswer)
    exact ⟨last, m + k, hlast, by rw [hpoll], by omega⟩

/-- A query that gives up without being asked to has used its budget up. -/
theorem Budgeted.query (h : s.Budgeted n) (hrun : (query assumptions shared).run s = (result, s'))
    (hresult : ∀ fault, result ≠ .error (.internal fault)) :
    s.Draws n shared s' ∧
      (result = .ok (.error .budgetExceeded) → s.book.stopRequested = false →
        s'.statistics.conflicts = s.statistics.conflicts + s.budgetLeft shared) := by
  have hlimit : ∀ {m}, budgetOf shared s.book = .conflicts n m →
      (⟨s.book.stopRequested, budgetOf shared (forgetAnswer s.book)⟩ : QueryLimit) =
        ⟨s.book.stopRequested, .conflicts n m⟩ := fun hof => congrArg (QueryLimit.mk _) hof
  obtain ⟨hdraws, hexceeded⟩ := h.ask (QueryLimit.meters n s.book.stopRequested) hlimit
    (fun hmet => congrArg QueryLimit.budget hmet) hrun hresult
  refine ⟨hdraws, fun hout hstop => ?_⟩
  obtain ⟨last, m, rfl, hpoll, hcount⟩ := hexceeded hout
  rw [hstop] at hpoll
  have hused : n ≤ m := of_decide_eq_true hpoll
  omega

theorem Budgeted.queryStoppable (h : s.Budgeted n) {answers : Nat → Bool}
    (hrun : (queryStoppable assumptions answers shared).run s = (result, s'))
    (hresult : ∀ fault, result ≠ .error (.internal fault)) : s.Draws n shared s' :=
  (h.ask (StoppableLimit.meters n) (fun hof => hof) (fun hmet => hmet) hrun hresult).1

end

/-! ## Runs of queries -/

/-- What a run of queries that share their budget does to it: what is counted is taken from it. -/
theorem Proceeds.draws (h : s.Proceeds true s') (hs : s.Budgeted n) :
    s'.Budgeted n ∧ s'.budgetLeft true ≤ s.budgetLeft true ∧
      s'.budgetLeft true + s'.statistics.conflicts =
        s.budgetLeft true + s.statistics.conflicts := by
  have hbetween : ∀ {s₁ s₂ : Session κ}, s₁.Between s₂ → s₁.Budgeted n ∧
      s₁.budgetLeft true ≤ s.budgetLeft true ∧
        s₁.budgetLeft true + s₁.statistics.conflicts =
          s.budgetLeft true + s.statistics.conflicts → s₂.Budgeted n ∧
      s₂.budgetLeft true ≤ s.budgetLeft true ∧
        s₂.budgetLeft true + s₂.statistics.conflicts =
          s.budgetLeft true + s.statistics.conflicts := by
    intro s₁ s₂ hb ⟨hbudgeted, hle, hsum⟩
    obtain ⟨hbudgeted', hleft⟩ := hbudgeted.between hb
    exact ⟨hbudgeted', by rw [hleft]; exact hle, by rw [hleft, hb.conflicts_eq, hsum]⟩
  induction h with
  | refl => exact ⟨hs, Nat.le_refl _, rfl⟩
  | call _ hreset hquery hrun hresult ih =>
    exact hbetween (Call.between hreset hquery hrun hresult) ih
  | addCustom _ hrun hresult ih =>
    exact hbetween (searchless_addConstraint [.custom _] _ _ _ hrun hresult) ih
  | asks _ hshared hrun hresult ih =>
    cases hshared rfl
    obtain ⟨hbudgeted, hle, hsum⟩ := ih
    have hdraws := (hbudgeted.query hrun hresult).1
    exact ⟨hdraws.budgeted, (hdraws.left rfl).trans hle, (hdraws.conserves rfl).trans hsum⟩
  | stoppable _ hshared hrun hresult ih =>
    cases hshared rfl
    obtain ⟨hbudgeted, hle, hsum⟩ := ih
    have hdraws := hbudgeted.queryStoppable hrun hresult
    exact ⟨hdraws.budgeted, (hdraws.left rfl).trans hle, (hdraws.conserves rfl).trans hsum⟩

/-- The book keeps to the options, whatever the queries do. -/
theorem Proceeds.budgeted {sharing : Bool} (h : s.Proceeds sharing s') (hs : s.Budgeted n) :
    s'.Budgeted n := by
  induction h with
  | refl => exact hs
  | call _ hreset hquery hrun hresult ih =>
    exact (ih.between (Call.between hreset hquery hrun hresult)).1
  | addCustom _ hrun hresult ih =>
    exact (ih.between (searchless_addConstraint [.custom _] _ _ _ hrun hresult)).1
  | asks _ _ hrun hresult ih => exact (ih.query hrun hresult).1.budgeted
  | stoppable _ _ hrun hresult ih => exact (ih.queryStoppable hrun hresult).budgeted

/-- Without a reset, and with `n` conflicts allowed: a query with a budget of its own meets at most
`n` conflicts, and so do the queries of a run that share theirs together. A query that gives up
although it was not asked to meets as many as were left, so that no later query of the run meets
any. -/
theorem Proceeds.within_budget {o : Options} (ho : o.timeout = .conflicts n)
    (h : (make o).Proceeds false s) :
    (∀ assumptions result s', ((Session.query assumptions false).run s = (result, s') ∨
        ∃ answers, (Session.queryStoppable assumptions answers false).run s = (result, s')) →
      (∀ fault, result ≠ .error (.internal fault)) →
      s'.statistics.conflicts ≤ s.statistics.conflicts + n) ∧
    (∀ s', s.Proceeds true s' → s'.statistics.conflicts ≤ s.statistics.conflicts + n ∧
      s'.budgetLeft true + s'.statistics.conflicts =
        s.budgetLeft true + s.statistics.conflicts) ∧
    ∀ assumptions shared s', s.book.stopRequested = false →
      (Session.query assumptions shared).run s = (.ok (.error .budgetExceeded), s') →
      s'.statistics.conflicts = s.statistics.conflicts + s.budgetLeft shared ∧
        (shared = true → ∀ s'', s'.Proceeds true s'' →
          s''.statistics.conflicts = s'.statistics.conflicts) := by
  have hs := h.budgeted (budgeted_make ho)
  refine ⟨fun assumptions result s' hrun hresult => ?_, fun s' hrun => ?_,
    fun assumptions shared s' hstop hrun => ?_⟩
  · have hdraws : s.Draws n false s' := by
      rcases hrun with hrun | ⟨answers, hrun⟩
      · exact (hs.query hrun hresult).1
      · exact hs.queryStoppable hrun hresult
    exact hdraws.conflicts.trans (Nat.add_le_add_left (hs.budgetLeft_le false) _)
  · obtain ⟨-, -, hsum⟩ := hrun.draws hs
    have hle := hs.budgetLeft_le true
    exact ⟨by omega, hsum⟩
  · obtain ⟨hdraws, hexceeded⟩ := hs.query hrun nofun
    have hcount := hexceeded rfl hstop
    refine ⟨hcount, ?_⟩
    rintro rfl s'' hlater
    obtain ⟨-, hle, hsum⟩ := hlater.draws hdraws.budgeted
    have hconserved := hdraws.conserves rfl
    omega

/-- The options of a session with one conflict for each query. -/
def oneConflict : Options := { Options.standard with timeout := .conflicts 1 }

/-- A clause with the literal `-1` that is looked at when `2` gets a value. -/
def waiting : LazyClause := .ofLiterals [.make 1 false] (.make 2 true)

/-- A run that shares a single conflict. The waiting clause is violated at the root; after a
removal, the next query gives up at once. -/
theorem Proceeds.within_budget_of_removal :
    ∃ s s₁ s₂ s₃ : Session LazyClause, (make oneConflict).Proceeds false s ∧
      (Session.query [2] true).run s = (.ok (.ok (.unsatisfiable [])), s₁) ∧
      s₁.statistics.conflicts = s.statistics.conflicts + 1 ∧ s.Proceeds true s₂ ∧
      (Session.query [] true).run s₂ = (.ok (.error .budgetExceeded), s₃) ∧
      s₃.statistics.conflicts = s₂.statistics.conflicts + s₂.budgetLeft true ∧
      s₃.statistics.conflicts ≤ s.statistics.conflicts + 1 := by
  let waited : Session LazyClause := ((Session.addCustom waiting).run (make oneConflict)).2
  let s : Session LazyClause := ((Call.add (.clause [1])).run.run waited).2
  let s₁ : Session LazyClause := ((Session.query [2] true).run s).2
  let s₂ : Session LazyClause := ((Call.remove 1).run.run s₁).2
  let s₃ : Session LazyClause := ((Session.query [] true).run s₂).2
  have hwaited : ((Session.addCustom waiting).run (make oneConflict)).1 = .ok (.ok 0) := by
    decide +kernel
  have hadded : ((Call.add (.clause [1])).run.run waited).1 = .ok () := by decide +kernel
  have hmet : ((Session.query [2] true).run s).1 = .ok (.ok (.unsatisfiable [])) := by
    decide +kernel
  have hone : s₁.statistics.conflicts = s.statistics.conflicts + 1 := by decide +kernel
  have hremoved : ((Call.remove 1).run.run s₁).1 = .ok () := by decide +kernel
  have hstopped : ((Session.query [] true).run s₂).1 = .ok (.error .budgetExceeded) := by
    decide +kernel
  have hunasked : s₂.book.stopRequested = false := by decide +kernel
  have hwaited : (Session.addCustom waiting).run (make oneConflict) = (.ok (.ok 0), waited) :=
    Prod.fst_eq_iff.mp hwaited
  have hadded : (Call.add (.clause [1])).run.run waited = (.ok (), s) :=
    Prod.fst_eq_iff.mp hadded
  have hmet : (Session.query [2] true).run s = (.ok (.ok (.unsatisfiable [])), s₁) :=
    Prod.fst_eq_iff.mp hmet
  have hremoved : (Call.remove 1).run.run s₁ = (.ok (), s₂) := Prod.fst_eq_iff.mp hremoved
  have hstopped : (Session.query [] true).run s₂ = (.ok (.error .budgetExceeded), s₃) :=
    Prod.fst_eq_iff.mp hstopped
  clear_value waited s s₁ s₂ s₃
  have hs : (make oneConflict).Proceeds false s :=
    .call (.addCustom .refl hwaited (by nofun)) (by nofun) rfl hadded (by nofun)
  have hs₂ : ∀ {sharing s₀}, Session.Proceeds sharing s₀ s → s₀.Proceeds sharing s₂ := fun h =>
    .call (.asks h (fun _ => rfl) hmet (by nofun)) (by nofun) rfl hremoved (by nofun)
  have hwhole := (Proceeds.within_budget rfl hs).2.1 s₃
    (.asks (hs₂ .refl) (fun _ => rfl) hstopped (by nofun))
  have hexact := (Proceeds.within_budget rfl (hs₂ hs)).2.2 [] true s₃ hunasked hstopped
  exact ⟨s, s₁, s₂, s₃, hs, hmet, hone, hs₂ .refl, hstopped, hexact.1, hwhole.1⟩

end Session

end ClauseLearning
