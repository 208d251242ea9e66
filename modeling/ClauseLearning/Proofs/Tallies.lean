import ClauseLearning.Custom.Catalogue
import ClauseLearning.Proofs.Calls
import ClauseLearning.Proofs.Counting

/-!
# Counters from call to call

A session reports the counters of its engine. No call counts anything down, whatever it ends with;
but a call may end with a rebuild, after which the restarts that were blocked are counted from 0
again. So in the long run every other counter grows, and this one grows as long as there is no
rebuild, which is counted itself.

Most calls do not search (`Session.Searchless`). Then something may be propagated, everything may be
forgotten for a rebuild, and the book may be written, which leaves the conflicts that were counted
and the shared budget alone (`Session.Between`). A query does this before and after its search
(`Session.run_ask`).

The constraints of the caller's own kinds need not keep any of their promises. After an internal
fault of the search there is a new engine, and nothing is said about it.

* `Call.searchless`: any call but a reset or a query.
* `Session.Continues.never_counts_down`: any number of calls.
-/

namespace ClauseLearning

variable {κ : Type}

namespace Statistics

/-- The counters in the long run. Only the count of blocked restarts relies on that there was no
rebuild. -/
structure Accumulates (s t : Statistics) : Prop where
  decisions : s.decisions ≤ t.decisions
  conflicts : s.conflicts ≤ t.conflicts
  restarts : s.restarts ≤ t.restarts
  blockedRestarts : s.rebuilds = t.rebuilds → s.blockedRestarts ≤ t.blockedRestarts
  propagations : s.propagations ≤ t.propagations
  reductions : s.reductions ≤ t.reductions
  simplified : s.simplified ≤ t.simplified
  rebuilds : s.rebuilds ≤ t.rebuilds
  unitsLearned : s.unitsLearned ≤ t.unitsLearned
  deleted : s.deleted ≤ t.deleted

theorem Accrues.accumulates {s t : Statistics} (h : s.Accrues t) : s.Accumulates t :=
  ⟨h.decisions, h.conflicts, h.restarts, fun _ => h.blockedRestarts, h.propagations, h.reductions,
    h.simplified, Nat.le_of_eq h.rebuilds, h.unitsLearned, h.deleted⟩

theorem Accumulates.trans {s t u : Statistics} (h : s.Accumulates t) (h' : t.Accumulates u) :
    s.Accumulates u where
  decisions := h.decisions.trans h'.decisions
  conflicts := h.conflicts.trans h'.conflicts
  restarts := h.restarts.trans h'.restarts
  blockedRestarts hsame := by
    have hst : s.rebuilds = t.rebuilds :=
      Nat.le_antisymm h.rebuilds (hsame ▸ h'.rebuilds)
    exact (h.blockedRestarts hst).trans (h'.blockedRestarts (hst.symm.trans hsame))
  propagations := h.propagations.trans h'.propagations
  reductions := h.reductions.trans h'.reductions
  simplified := h.simplified.trans h'.simplified
  rebuilds := h.rebuilds.trans h'.rebuilds
  unitsLearned := h.unitsLearned.trans h'.unitsLearned
  deleted := h.deleted.trans h'.deleted

/-- A rebuild does not go unnoticed. -/
theorem accumulates_rebuilt (s : Statistics) : s.Accumulates s.rebuilt :=
  { (Accrues.refl s).accumulates with
    rebuilds := Nat.le_succ _
    blockedRestarts := fun hsame => absurd hsame (Nat.succ_ne_self _).symm }

end Statistics

namespace Session

/-! ## Between searches -/

/-- What happens to a session without a search. The options and the shared budget stay. -/
inductive Between (s : Session κ) : Session κ → Prop
  | refl : Between s s
  | propagates {e e' : Engine κ} {book : Book κ} (n : Nat) (h : Between s ⟨e, book⟩)
      (hn : e'.statistics = e.statistics.propagating n) : Between s ⟨e', book⟩
  | rebuilds {e e' : Engine κ} {book : Book κ} (h : Between s ⟨e, book⟩)
      (hcleared : e'.statistics = e.statistics.rebuilt) : Between s ⟨e', book⟩
  | writes {e : Engine κ} {book book' : Book κ} (h : Between s ⟨e, book⟩)
      (ho : book'.options = book.options) (hb : book'.sharedBudget = book.sharedBudget) :
      Between s ⟨e, book'⟩

namespace Between

variable {s s' s'' : Session κ}

theorem trans (h : s.Between s') (h' : s'.Between s'') : s.Between s'' := by
  induction h' with
  | refl => exact h
  | propagates n _ hn ih => exact .propagates n ih hn
  | rebuilds _ hcleared ih => exact .rebuilds ih hcleared
  | writes _ ho hb ih => exact .writes ih ho hb

/-- An engine that counts the same. -/
theorem same {e e' : Engine κ} {book : Book κ} (h : s.Between ⟨e, book⟩)
    (hsame : e'.statistics = e.statistics) : s.Between ⟨e', book⟩ := .propagates 0 h hsame

theorem accumulates (h : s.Between s') : s.statistics.Accumulates s'.statistics := by
  induction h with
  | refl => exact (Statistics.Accrues.refl _).accumulates
  | @propagates e e' book n _ hn ih =>
    refine ih.trans ?_
    show e.statistics.Accumulates e'.statistics
    rw [hn]
    exact (e.statistics.accrues_propagating n).accumulates
  | @rebuilds e e' book _ hcleared ih =>
    refine ih.trans ?_
    show e.statistics.Accumulates e'.statistics
    rw [hcleared]
    exact e.statistics.accumulates_rebuilt
  | writes _ _ _ ih => exact ih

theorem conflicts_eq (h : s.Between s') : s'.statistics.conflicts = s.statistics.conflicts := by
  induction h with
  | refl => rfl
  | propagates n _ hn ih => exact (congrArg Statistics.conflicts hn).trans ih
  | rebuilds _ hcleared ih => exact (congrArg Statistics.conflicts hcleared).trans ih
  | writes _ _ _ ih => exact ih

theorem book_eq (h : s.Between s') :
    s'.book.options = s.book.options ∧ s'.book.sharedBudget = s.book.sharedBudget := by
  induction h with
  | refl => exact ⟨rfl, rfl⟩
  | propagates _ _ _ ih => exact ih
  | rebuilds _ _ ih => exact ih
  | writes _ ho hb ih => exact ⟨ho.trans ih.1, hb.trans ih.2⟩

end Between

/-! ## Steps of a call -/

/-- The call does not search, whatever it ends with but an internal fault. -/
def Searchless {α : Type} (x : SessionM κ α) : Prop :=
  ∀ s result s', x.run s = (result, s') → (∀ fault, result ≠ .error (.internal fault)) →
    s.Between s'

section

variable {α β : Type}

theorem run_modifyBook (f : Book κ → Book κ) (s : Session κ) :
    (modifyBook f).run s = (.ok (), ⟨s.engine, f s.book⟩) := rfl

theorem run_readBook (f : Book κ → α) (s : Session κ) :
    (readBook f).run s = (.ok (f s.book), s) := rfl

/-- A call without its result. -/
theorem run_discard {x : SessionM κ α} {result : Except Violation Unit} {s s' : Session κ}
    (hrun : (Functor.discard x).run s = (result, s'))
    (hresult : ∀ fault, result ≠ .error (.internal fault)) :
    ∃ result', x.run s = (result', s') ∧ ∀ fault, result' ≠ .error (.internal fault) := by
  have hrun : (x >>= fun _ => pure ()).run s = (result, s') := hrun
  rw [run_bind] at hrun
  rcases hx : x.run s with ⟨v | a, s₁⟩
  · rw [hx] at hrun
    cases hrun
    exact ⟨_, rfl, fun fault heq => hresult fault (by cases heq; rfl)⟩
  · rw [hx] at hrun
    cases hrun
    exact ⟨_, rfl, nofun⟩

theorem searchless_pure (a : α) : Searchless (pure a : SessionM κ α) := by
  intro s result s' hrun _
  cases hrun
  exact .refl

theorem searchless_throw (v : Violation) : Searchless (throw v : SessionM κ α) := by
  intro s result s' hrun _
  cases hrun
  exact .refl

/-- A violation ends a call with what was done before. -/
theorem Searchless.bind {x : SessionM κ α} {f : α → SessionM κ β} (hx : Searchless x)
    (hf : ∀ a, Searchless (f a)) : Searchless (x >>= f) := by
  intro s result s' hrun hresult
  rw [run_bind] at hrun
  rcases hfirst : x.run s with ⟨v | a, s₁⟩
  · rw [hfirst] at hrun
    cases hrun
    exact hx s _ s' hfirst fun fault heq => hresult fault (by cases heq; rfl)
  · rw [hfirst] at hrun
    exact (hx s (.ok a) s₁ hfirst nofun).trans (hf a s₁ result s' hrun hresult)

theorem Searchless.discard {x : SessionM κ α} (hx : Searchless x) :
    Searchless (Functor.discard x) :=
  have hbind : Searchless (x >>= fun _ => pure ()) := hx.bind fun _ => searchless_pure ()
  hbind

theorem Searchless.mapM {f : α → SessionM κ β} (hf : ∀ x, Searchless (f x)) (xs : List α) :
    Searchless (xs.mapM f) := by
  induction xs with
  | nil => exact searchless_pure []
  | cons x xs ih =>
    rw [List.mapM_cons]
    exact (hf x).bind fun b => ih.bind fun bs => searchless_pure (b :: bs)

theorem searchless_get : Searchless (get : SessionM κ (Session κ)) := by
  intro s result s' hrun _
  cases hrun
  exact .refl

theorem searchless_liftM (x : Except Violation α) : Searchless (liftM x : SessionM κ α) := by
  intro s result s' hrun _
  cases x <;> cases hrun <;> exact .refl

theorem searchless_modifyBook {f : Book κ → Book κ}
    (hf : ∀ book, (f book).options = book.options ∧ (f book).sharedBudget = book.sharedBudget) :
    Searchless (modifyBook f) := by
  intro s result s' hrun _
  cases hrun
  exact .writes .refl (hf s.book).1 (hf s.book).2

theorem searchless_readBook (f : Book κ → α) : Searchless (readBook f) := by
  intro s result s' hrun _
  cases hrun
  exact .refl

theorem searchless_readEngine (f : Engine κ → α) : Searchless (readEngine f) := by
  intro s result s' hrun _
  cases hrun
  exact .refl

theorem searchless_ofSteadyEngine {f : Engine κ → α × Engine κ}
    (hf : ∀ e, (f e).2.statistics = e.statistics) : Searchless (ofSteadyEngine f) := by
  intro s result s' hrun _
  cases hrun
  exact .same .refl (hf s.engine)

theorem searchless_modifyEngine {f : Engine κ → Engine κ}
    (hf : ∀ e, (f e).statistics = e.statistics) : Searchless (modifyEngine f) :=
  searchless_ofSteadyEngine hf

theorem searchless_ofEngine {f : Engine κ → Except Fault (α × Engine κ)}
    (hf : ∀ e a e', f e = .ok (a, e') → ∃ n, e'.statistics = e.statistics.propagating n) :
    Searchless (ofEngine f) := by
  rintro ⟨engine, book⟩ result s' hrun hresult
  have hrun : ofEngine f ⟨engine, book⟩ = (result, s') := hrun
  unfold ofEngine at hrun
  dsimp only at hrun
  split at hrun
  · rename_i a engine' hcall
    cases hrun
    obtain ⟨n, hn⟩ := hf engine a engine' hcall
    exact .propagates n .refl hn
  · cases hrun
    exact absurd rfl (hresult _)

end

/-! ## Additions and rebuilds -/

/-- A number that denotes no literal makes a variable known all the same. -/
theorem searchless_literal (n : Int) : Searchless (literal n : SessionM κ Literal) := by
  refine .bind (searchless_ofSteadyEngine fun e => e.statistics_grow n.natAbs) fun r => ?_
  cases r with
  | ok l => exact searchless_pure l
  | error e => exact searchless_throw _

theorem searchless_literals (ns : List Int) :
    Searchless (literals ns : SessionM κ (List Literal)) :=
  .mapM searchless_literal ns

theorem searchless_newVariables (n : Nat) : Searchless (newVariables n : SessionM κ Nat) := by
  have hgrow : Searchless (do modifyEngine (·.grow n); readEngine (·.numVariables) :
      SessionM κ Nat) :=
    .bind (searchless_modifyEngine fun e => e.statistics_grow n) fun _ => searchless_readEngine _
  unfold newVariables
  split
  · exact .bind (searchless_throw _) fun _ => hgrow
  · exact hgrow

variable [CustomConstraint κ]

theorem searchless_addConstraint (ds : List (Description κ)) : Searchless (addConstraint ds) := by
  refine .bind (searchless_readBook _) fun handle =>
    .bind (searchless_ofEngine fun e result e' hadd => Engine.add_counts hadd) fun result => ?_
  cases result with
  | error refusal => exact searchless_pure _
  | ok references =>
    exact .bind (searchless_modifyBook fun _ => ⟨rfl, rfl⟩) fun _ => searchless_pure _

/-- Entries that are added again count what they propagate. -/
theorem attachEntries_counts {handle : Nat} {entries : List (BookEntry κ)}
    {result : Bool × List (BookEntry κ)} {e e' : Engine κ}
    (hrun : attachEntries handle entries e = .ok (result, e')) :
    ∃ n, e'.statistics = e.statistics.propagating n := by
  induction entries generalizing handle result e with
  | nil =>
    cases hrun
    exact ⟨0, rfl⟩
  | cons entry entries ih =>
    unfold attachEntries at hrun
    split at hrun
    · obtain ⟨⟨⟨refused, rest⟩, e₁⟩, hrest, hret⟩ := ok_of_bind hrun
      cases hret
      exact ih hrest
    · obtain ⟨⟨added, e₁⟩, hadd, hrun⟩ := ok_of_bind hrun
      obtain ⟨n, hn⟩ := Engine.add_counts hadd
      cases added with
      | ok references =>
        obtain ⟨⟨⟨refused, rest⟩, e₂⟩, hrest, hret⟩ := ok_of_bind hrun
        cases hret
        obtain ⟨m, hm⟩ := ih hrest
        exact ⟨n + m, by rw [hm, hn, Statistics.propagating_propagating]⟩
      | error refusal =>
        cases hrun
        exact ⟨n, hn⟩

theorem searchless_rebuild : Searchless (rebuild : SessionM κ Unit) := by
  have hcleared : Searchless (modifyEngine (·.clear) : SessionM κ Unit) := by
    intro s result s' hrun _
    cases hrun
    exact .rebuilds .refl s.engine.statistics_clear
  refine .bind hcleared fun _ => .bind (searchless_readBook _) fun entries =>
    .bind (searchless_ofEngine fun e result e' hrun => attachEntries_counts hrun) fun result =>
    .bind (searchless_modifyBook fun _ => ⟨rfl, rfl⟩) fun _ => ?_
  split
  · exact searchless_modifyEngine fun e => rfl
  · exact searchless_pure _

/-! ## Removals and restrictions -/

omit [CustomConstraint κ] in
theorem searchless_markRemoved (handle : Nat) :
    Searchless (markRemoved handle : SessionM κ Unit) := by
  refine .bind (searchless_readBook _) fun entry => ?_
  cases entry with
  | none => exact searchless_throw _
  | some entry =>
    dsimp only
    split
    · exact .bind (searchless_throw _) fun _ => searchless_modifyBook fun _ => ⟨rfl, rfl⟩
    · exact searchless_modifyBook fun _ => ⟨rfl, rfl⟩

theorem searchless_removeSubsumed (handle : Nat) :
    Searchless (removeSubsumed handle : SessionM κ Unit) := by
  refine .bind (searchless_readBook _) fun size => ?_
  have hremoved : ∀ references, Searchless
      (ofEngine fun e => do return ((), ← e.remove references handle) : SessionM κ Unit) := by
    refine fun references => searchless_ofEngine fun e a e' hremove => ?_
    obtain ⟨e₁, hremove, hret⟩ := ok_of_bind hremove
    cases hret
    exact ⟨0, Engine.statistics_remove hremove⟩
  have hforgotten : Searchless (do
      markRemoved handle
      let references ← readBook fun book =>
        ((book.entries[handle]?).map (·.references)).getD []
      modifyBook fun book => { book with
        entries := book.entries.modify handle fun entry => { entry with references := [] } }
      ofEngine fun e => do return ((), ← e.remove references handle) : SessionM κ Unit) :=
    .bind (searchless_markRemoved handle) fun _ => .bind (searchless_readBook _) fun references =>
      .bind (searchless_modifyBook fun _ => ⟨rfl, rfl⟩) fun _ => hremoved references
  dsimp only
  split
  · exact .bind (searchless_throw _) fun _ => hforgotten
  · exact hforgotten

theorem searchless_restrictDecisions (vs : Option (List Nat)) :
    Searchless (restrictDecisions vs : SessionM κ Unit) := by
  refine .bind (searchless_ofEngine ?_) fun _ =>
    .bind (searchless_readEngine _) fun restricted => ?_
  · intro e a e' hrestrict
    obtain ⟨e₁, hback, hret⟩ := ok_of_bind hrestrict
    cases hret
    rw [← Engine.statistics_backtrack hback]
    obtain ⟨⟨board, arena, learned, order, head⟩, analyser, control⟩ := e₁
    exact ⟨0, rfl⟩
  · split
    · exact searchless_rebuild
    · exact searchless_pure _

omit [CustomConstraint κ] in
theorem searchless_decisionVariable (v : Nat) :
    Searchless (decisionVariable v : SessionM κ Nat) := by
  unfold decisionVariable
  split
  · exact .bind (searchless_throw _) fun _ => .bind (searchless_literal v) fun _ =>
      searchless_pure _
  · exact .bind (searchless_literal v) fun _ => searchless_pure _

theorem searchless_decideOnly (vs : List Nat) : Searchless (decideOnly vs : SessionM κ Unit) :=
  .bind (.mapM searchless_decisionVariable vs) fun _ => searchless_restrictDecisions _

/-! ## Queries -/

theorem searchless_takeModel : Searchless (takeModel : SessionM κ (List Literal)) := by
  refine .bind (searchless_ofSteadyEngine Engine.statistics_model) fun ls =>
    .bind (searchless_ofEngine fun e a e' hback => ?_) fun _ =>
      .bind (searchless_modifyBook fun _ => ⟨rfl, rfl⟩) fun _ => searchless_pure _
  obtain ⟨e₁, hback, hret⟩ := ok_of_bind hback
  cases hret
  exact ⟨0, Engine.statistics_backtrack hback⟩

/-- Only a question that is left open leads to a rebuild. -/
theorem searchless_answer (outcome : Outcome) :
    Searchless (answer outcome : SessionM κ (Except SearchError Answer)) := by
  cases outcome with
  | satisfiable => exact .bind searchless_takeModel fun _ => searchless_pure _
  | unsatisfiable =>
    exact .bind (searchless_modifyBook fun _ => ⟨rfl, rfl⟩) fun _ => searchless_pure _
  | unsatisfiableUnder core =>
    exact .bind (searchless_modifyBook fun _ => ⟨rfl, rfl⟩) fun _ => searchless_pure _
  | budgetExceeded =>
    exact .bind (searchless_modifyBook fun _ => ⟨rfl, rfl⟩) fun _ => searchless_pure _
  | inconclusive => exact .bind searchless_rebuild fun _ => searchless_pure _

/-- A query searches once, unless its assumptions are no literals. -/
theorem run_ask {τ : Type} [Termination τ] {assumptions : List Int} {limit : Book κ → τ}
    {settle : τ → Book κ → Book κ} {s s' : Session κ}
    {result : Except Violation (Except SearchError Answer)}
    (hrun : (ask assumptions limit settle).run s = (result, s'))
    (hresult : ∀ fault, result ≠ .error (.internal fault)) :
    (s.Between s' ∧ ∃ v, result = .error v) ∨ ∃ ls s₁ limit' outcome e, s.Between s₁ ∧
      s₁.book = forgetAnswer s.book ∧ s₁.engine.solve ls (limit s₁.book) =
        .ok (outcome, limit', e) ∧
      (answer outcome).run ⟨e, settle limit' s₁.book⟩ = (result, s') := by
  unfold ask at hrun
  rw [run_bind] at hrun
  rcases hls : (literals assumptions : SessionM κ (List Literal)).run s with ⟨v | ls, s₁⟩
  · rw [hls] at hrun
    cases hrun
    exact Or.inl ⟨searchless_literals assumptions s _ s' hls fun fault heq =>
      hresult fault (by cases heq; rfl), v, rfl⟩
  · rw [hls] at hrun
    have hbetween := searchless_literals assumptions s _ s₁ hls nofun
    obtain ⟨rfl, -⟩ := ok_of_run_literals hls
    generalize s.engine.growAll (assumptions.map Int.natAbs) = e₁ at *
    dsimp only at hrun
    rw [run_bind, run_modifyBook] at hrun
    dsimp only at hrun
    rw [run_bind, run_readBook] at hrun
    dsimp only at hrun
    rw [run_ofEngine_bind] at hrun
    cases hsolve : e₁.solve ls (limit (forgetAnswer s.book)) with
    | error fault =>
      simp only [hsolve, bind, Except.bind] at hrun
      cases hrun
      exact absurd rfl (hresult fault)
    | ok found =>
      obtain ⟨outcome, limit', e⟩ := found
      simp only [hsolve, bind, Except.bind] at hrun
      exact Or.inr ⟨ls, ⟨e₁, forgetAnswer s.book⟩, limit', outcome, e,
        .writes hbetween rfl rfl, rfl, hsolve, hrun⟩

theorem searchless_computeImplicant :
    Searchless (computeImplicant : SessionM κ (List Literal)) := by
  refine .bind searchless_get fun s => .bind (searchless_liftM s.model) fun model => ?_
  split
  · exact searchless_throw _
  · exact .bind (searchless_modifyEngine fun e => rfl) fun _ =>
      .bind (searchless_modifyBook fun _ => ⟨rfl, rfl⟩) fun _ => searchless_pure _

/-- A computation that fails leaves the session as it was. -/
theorem of_run_computeImplicant {v : Violation} {s s' : Session κ}
    (hrun : (Functor.discard computeImplicant).run s = (.error v, s')) : s' = s := by
  have hrun : (computeImplicant >>= fun _ => pure ()).run s = (.error v, s') := hrun
  rw [run_bind] at hrun
  have hcomputed : computeImplicant.run s = (.error v, s') := by
    rcases hx : computeImplicant.run s with ⟨v' | ls, s₁⟩
    · rw [hx] at hrun
      cases hrun
      rfl
    · rw [hx] at hrun
      cases hrun
  have hcomputed : (liftM s.model >>= _ : SessionM κ _).run s = (.error v, s') := hcomputed
  rw [run_bind] at hcomputed
  cases hmodel : s.model with
  | error v' =>
    rw [hmodel] at hcomputed
    cases hcomputed
    rfl
  | ok model =>
    have hlift : (liftM (.ok model : Except Violation _) : SessionM κ _).run s =
        (.ok model, s) := rfl
    rw [hmodel, hlift] at hcomputed
    dsimp only at hcomputed
    cases hprime : primeImplicant s.book.options.implicant model s.requirements with
    | error fault =>
      rw [hprime] at hcomputed
      cases hcomputed
      rfl
    | ok ls =>
      rw [hprime] at hcomputed
      cases hcomputed

/-- A query counts nothing down. -/
theorem ask_accumulates {τ : Type} [Termination τ] {assumptions : List Int} {limit : Book κ → τ}
    {settle : τ → Book κ → Book κ} {s s' : Session κ} {result : Except Violation Unit}
    (hrun : (Functor.discard (ask assumptions limit settle)).run s = (result, s'))
    (hresult : ∀ fault, result ≠ .error (.internal fault)) :
    s.statistics.Accumulates s'.statistics := by
  obtain ⟨result', hasked, hfaultless⟩ := run_discard hrun hresult
  rcases run_ask hasked hfaultless with ⟨hbetween, -⟩ |
    ⟨ls, s₁, limit', outcome, e, hbetween, -, hsolve, hanswer⟩
  · exact hbetween.accumulates
  · have hsearched := (Engine.solve_accrues hsolve).accumulates
    exact (hbetween.accumulates.trans hsearched).trans
      (searchless_answer outcome _ _ _ hanswer hfaultless).accumulates

end Session

/-! ## Any call -/

namespace Call

/-- Whether a call searches. -/
def isQuery : Call → Bool
  | query .. => true
  | interrupted .. => true
  | _ => false

variable [CustomConstraint κ]

theorem searchless {c : Call} (hreset : c ≠ .reset) (hquery : c.isQuery = false) :
    Session.Searchless (c.run : SessionM κ Unit) := by
  cases c with
  | newVariables n => exact (Session.searchless_newVariables n).discard
  | add a =>
    have hadded : Session.Searchless (a.run : SessionM κ (Except Refusal Nat)) := by
      rw [Addition.run_eq]
      exact (Session.searchless_literals _).bind fun ls => Session.searchless_addConstraint _
    exact hadded.discard
  | query assumptions shared => cases hquery
  | interrupted assumptions polls budget => cases hquery
  | remove handle =>
    exact (Session.searchless_markRemoved handle).bind fun _ => Session.searchless_rebuild
  | removeSubsumed handle => exact Session.searchless_removeSubsumed handle
  | decideOnly vs => exact Session.searchless_decideOnly vs
  | decideAll => exact Session.searchless_restrictDecisions none
  | computeImplicant => exact Session.searchless_computeImplicant.discard
  | takeEvents =>
    rintro ⟨⟨search, analyser, control⟩, book⟩ result s' hrun -
    cases hrun
    exact .same .refl rfl
  | requestStop =>
    intro s result s' hrun _
    cases hrun
    exact .writes .refl rfl rfl
  | reset => exact absurd rfl hreset

/-- The same if a computation of a prime implicant may fail. -/
theorem between {c : Call} (hreset : c ≠ .reset) (hquery : c.isQuery = false) {s s' : Session κ}
    {result : Except Violation Unit} (hrun : c.run.run s = (result, s'))
    (hresult : ∀ fault, result = .error (.internal fault) → c = .computeImplicant) :
    s.Between s' := by
  by_cases hfault : ∃ fault, result = .error (.internal fault)
  · obtain ⟨fault, rfl⟩ := hfault
    cases hresult fault rfl
    rw [Session.of_run_computeImplicant hrun]
    exact .refl
  · exact searchless hreset hquery s result s' hrun (not_exists.mp hfault)

/-- Whatever a call ends with, no counter goes down in the long run, unless everything is forgotten
on purpose. -/
theorem accumulates {c : Call} (hc : c ≠ .reset) {s s' : Session κ} {result : Except Violation Unit}
    (hrun : c.run.run s = (result, s')) (hresult : ∀ fault, result ≠ .error (.internal fault)) :
    s.statistics.Accumulates s'.statistics := by
  cases hquery : c.isQuery with
  | false => exact (searchless hc hquery s result s' hrun hresult).accumulates
  | true =>
    cases c with
    | query assumptions shared =>
      rw [run, Session.query_eq_ask] at hrun
      exact Session.ask_accumulates hrun hresult
    | interrupted assumptions polls budget =>
      rw [run, Session.queryInterrupted] at hrun
      exact Session.ask_accumulates hrun hresult
    | _ => cases hquery

end Call

namespace Session

variable [CustomConstraint κ]

/-- The second session comes of the first one by calls that do not reset it. A call may end with a
violation, after which the session goes on as it was left. -/
inductive Continues (s : Session κ) : Session κ → Prop
  | refl : Continues s s
  | call {s₁ s₂ : Session κ} {c : Call} {result : Except Violation Unit} (h : Continues s s₁)
      (hc : c ≠ .reset) (hrun : (c.run).run s₁ = (result, s₂))
      (hresult : ∀ fault, result ≠ .error (.internal fault)) : Continues s s₂
  | addCustom {s₁ s₂ : Session κ} {k : κ} {result : Except Violation (Except Refusal Nat)}
      (h : Continues s s₁) (hrun : (addCustom k).run s₁ = (result, s₂))
      (hresult : ∀ fault, result ≠ .error (.internal fault)) : Continues s s₂

/-- From any call to any later one, nothing is counted down but the restarts that were blocked, and
those only by a rebuild. -/
theorem Continues.never_counts_down {s s' : Session κ} (h : s.Continues s') :
    s.statistics.Accumulates s'.statistics := by
  induction h with
  | refl => exact (Statistics.Accrues.refl _).accumulates
  | @call s₁ s₂ c result _ hc hrun hresult ih =>
    exact ih.trans (Call.accumulates hc hrun hresult)
  | @addCustom s₁ s₂ k result _ hrun hresult ih =>
    exact ih.trans (searchless_addConstraint [.custom k] s₁ result s₂ hrun hresult).accumulates

theorem Continues.next {c : Call} {result : Except Violation Unit} {s s₁ : Session κ}
    (h : s.Continues s₁) (hc : c ≠ .reset) (hrun : (c.run.run s₁).1 = result)
    (hresult : ∀ fault, result ≠ .error (.internal fault)) : s.Continues (c.run.run s₁).2 :=
  h.call hc (Prod.ext hrun rfl) hresult

/-- Two clauses of the catalogue are added, a call goes wrong, a query learns from a conflict, and a
clause is removed again. -/
theorem Continues.never_counts_down_of_removal :
    ∃ s s' : Session Catalogue, s = make { Options.standard with minimisation := .none } ∧
      s.Continues s' ∧ s'.statistics.decisions = 3 ∧ s'.statistics.conflicts = 1 ∧
      s'.statistics.unitsLearned = 1 ∧ s'.statistics.rebuilds = 1 ∧
      s.statistics.Accumulates s'.statistics := by
  let k : Catalogue := .lazyClause (.ofLiterals [.make 1 true, .make 2 true] (.make 1 true))
  let k' : Catalogue := .lazyClause (.ofLiterals [.make 1 true, .make 2 false] (.make 1 true))
  let s : Session Catalogue := make { Options.standard with minimisation := .none }
  let added : Session Catalogue := ((Session.addCustom k).run s).2
  let added' : Session Catalogue := ((Session.addCustom k').run added).2
  let failed : Session Catalogue := ((Call.add (.clause [3, 0])).run.run added').2
  let asked : Session Catalogue := ((Call.query [] false).run.run failed).2
  let removed : Session Catalogue := ((Call.remove 0).run.run asked).2
  have hadd : ((Session.addCustom k).run s).1 = .ok (.ok 0) := by decide +kernel
  have hadd' : ((Session.addCustom k').run added).1 = .ok (.ok 1) := by decide +kernel
  have hfail : ((Call.add (.clause [3, 0])).run.run added').1 = .error (.literal .zero) := by
    decide +kernel
  have hask : ((Call.query [] false).run.run failed).1 = .ok () := by decide +kernel
  have hremove : ((Call.remove 0).run.run asked).1 = .ok () := by decide +kernel
  have h₁ : s.Continues added := Continues.refl.addCustom (Prod.ext hadd rfl) (by nofun)
  have h₂ : s.Continues added' := h₁.addCustom (Prod.ext hadd' rfl) (by nofun)
  have h₃ := (h₂.next (by nofun) hfail (by nofun)).next (by nofun) hask (by nofun)
  have h₄ : s.Continues removed := h₃.next (by nofun) hremove (by nofun)
  exact ⟨s, removed, rfl, h₄, by decide +kernel, by decide +kernel, by decide +kernel,
    by decide +kernel, h₄.never_counts_down⟩

end Session

end ClauseLearning
