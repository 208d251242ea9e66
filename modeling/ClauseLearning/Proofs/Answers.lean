import ClauseLearning.Proofs.Attaching

/-!
# Answers

What an answer says about the constraints that are present. The answer no is right in every lawful
session, however its queries were stopped. The answer yes relies on every notification, so it is
right as long as the session is undisturbed.

* `Session.Lawful.unsatisfiable_core`: the core of the answer no.
* `Session.Undisturbed.satisfiable_model`: the model of the answer yes.
* `Session.Lawful.refuses`: why an addition is refused.
* `Session.Reachable.refused_restores`: what a refused addition leaves.
-/

namespace ClauseLearning

variable {κ : Type} [CustomConstraint κ]

namespace Session

/-- A query was answered, one of the library or one that might have been stopped from outside. -/
inductive Answers (assumptions : List Int) (a : Answer) (s s' : Session κ) : Prop
  | query (shared : Bool) (hrun : (query assumptions shared).run s = (.ok (.ok a), s'))
  | interrupted (polls : Nat → Bool) (budget : Option Condition)
      (hrun : (queryInterrupted assumptions polls budget).run s = (.ok (.ok a), s'))

/-! ## No -/

theorem ok_of_run_answer_unsatisfiable {outcome : Outcome} {core : List Literal} {s s' : Session κ}
    (h : (answer outcome).run s = (.ok (.ok (.unsatisfiable core)), s')) :
    (outcome = .unsatisfiable ∧ core = [] ∨ outcome = .unsatisfiableUnder core) ∧
      s'.engine = s.engine ∧ s'.book.entries = s.book.entries ∧ s'.core? = some core := by
  cases outcome with
  | satisfiable =>
    obtain ⟨model, s₁, -, h⟩ := ok_of_run_bind h
    cases h
  | unsatisfiable =>
    cases h
    exact ⟨Or.inl ⟨rfl, rfl⟩, rfl, rfl, rfl⟩
  | unsatisfiableUnder core' =>
    cases h
    exact ⟨Or.inr rfl, rfl, rfl, rfl⟩
  | budgetExceeded => cases h
  | inconclusive =>
    obtain ⟨_, s₁, -, h⟩ := ok_of_run_bind h
    cases h

omit [CustomConstraint κ] in
/-- A search that comes to the outcome that there is no model is right about the present
constraints. -/
theorem Faithful.core_of_concludes {s : Session κ} {e : Engine κ} {assumptions core : List Literal}
    {outcome : Outcome} (hf : s.Faithful) (hk : s.engine.Keeps e)
    (hconcludes : (s.engine.under assumptions).Concludes e outcome)
    (houtcome : outcome = .unsatisfiable ∧ core = [] ∨ outcome = .unsatisfiableUnder core) :
    core.Nodup ∧ (∀ l ∈ core, l ∈ assumptions) ∧
      ∀ ν, s.Holds ν → ¬ ∀ l ∈ core, l.holds ν = true := by
  have hadmits : e.control.restricted = false → ∀ ν, s.Holds ν → s.engine.search.Admits ν :=
    fun hr ν hν => hf.admits (hk.restricted_eq_false hr) ν hν
  rcases houtcome with ⟨rfl, rfl⟩ | rfl
  · obtain ⟨hr, -, hnone⟩ := hconcludes
    exact ⟨List.nodup_nil, nofun, fun ν hν => absurd (hadmits hr ν hν) (hnone ν)⟩
  · obtain ⟨hr, hnodup, hsub, hnone⟩ := hconcludes
    exact ⟨hnodup, hsub, fun ν hν => hnone ν (hadmits hr ν hν)⟩

section

variable {τ : Type} [Termination τ] {assumptions : List Int} {limit : Book κ → τ}
  {settle : τ → Book κ → Book κ} {s s' : Session κ}

theorem ask_unsatisfiable {core : List Literal} (h : s.Valid) (hf : s.Faithful)
    (hrun : (ask assumptions limit settle).run s = (.ok (.ok (.unsatisfiable core)), s'))
    (hsettle : ∀ limit book, (settle limit book).entries = book.entries) :
    s'.core? = some core ∧ core.Nodup ∧ (∀ l ∈ core, l.toDimacs ∈ assumptions) ∧
      s'.descriptions = s.descriptions ∧
      ∀ ν, s.Holds ν → ¬ ∀ l ∈ core, l.holds ν = true := by
  obtain ⟨ls, limit', outcome, e, hls, hsolve, hanswer⟩ := ok_of_run_ask hrun
  obtain ⟨-, hne, hnumbers⟩ := ok_of_run_literals hls
  obtain ⟨houtcome, -, hentries, hcore⟩ := ok_of_run_answer_unsatisfiable hanswer
  have hgrow := idles_growAll h (assumptions.map Int.natAbs)
  have hfaithful := hgrow.faithful hf
  have hsame : s'.descriptions = s.descriptions := by
    have hkept : s'.book.entries = s.book.entries :=
      hentries.trans (hsettle limit' (forgetAnswer s.book))
    exact descriptions_congr (by rw [hkept])
  rcases Engine.solve_spec (hgrow.valid h).engine hne hsolve with
    ⟨hinf, rfl, rfl⟩ | ⟨hinf, hk, -, ⟨rfl, -⟩ | ⟨hconcludes, -⟩⟩
  · have hempty : core = [] := by
      rcases houtcome with ⟨-, hcore⟩ | hunder
      · exact hcore
      · cases hunder
    subst hempty
    exact ⟨hcore, List.nodup_nil, nofun, hsame, fun ν hν =>
      absurd ((hgrow.holds_iff ν).mpr hν) (hfaithful.infeasible hinf ν)⟩
  · rcases houtcome with ⟨hno, -⟩ | hno <;> cases hno
  · obtain ⟨hnodup, hsub, hnone⟩ := hfaithful.core_of_concludes hk hconcludes houtcome
    refine ⟨hcore, hnodup, fun l hl => ?_, hsame, fun ν hν => hnone ν ((hgrow.holds_iff ν).mpr hν)⟩
    rw [← hnumbers]
    exact List.mem_map_of_mem (hsub l hl)

end

/-- The core of the answer no has some of the assumptions, none twice, which the constraints
contradict. -/
theorem Lawful.unsatisfiable_core {assumptions : List Int} {core : List Literal} {s s' : Session κ}
    (h : s.Lawful) (hrun : s.Answers assumptions (.unsatisfiable core) s') :
    s'.core? = some core ∧ core.Nodup ∧ (∀ l ∈ core, l.toDimacs ∈ assumptions) ∧
      s'.descriptions = s.descriptions ∧
      ∀ ν, s.Holds ν → ¬ ∀ l ∈ core, l.holds ν = true := by
  cases hrun with
  | query shared hrun =>
    rw [query_eq_ask] at hrun
    exact ask_unsatisfiable h.reachable.valid h.faithful hrun fun _ _ => rfl
  | interrupted polls budget hrun =>
    exact ask_unsatisfiable h.reachable.valid h.faithful hrun fun _ _ => rfl

/-- The clause contradicts two of three assumptions. -/
theorem Lawful.unsatisfiable_core_withChain :
    ∃ s' : Session Empty,
      withChain.Answers [3, 1, -2] (.unsatisfiable [.make 2 false, .make 1 true]) s' ∧
      s'.core? = some [.make 2 false, .make 1 true] ∧
      ∀ ν, withChain.Holds ν → ¬ ∀ l ∈ [Literal.make 2 false, .make 1 true], l.holds ν = true := by
  have hanswer : ((query [3, 1, -2] false).run withChain).1 =
      .ok (.ok (.unsatisfiable [.make 2 false, .make 1 true])) := by decide +kernel
  have hrun := Answers.query false (Prod.ext hanswer rfl)
  obtain ⟨hcore, -, -, -, hnone⟩ := Lawful.unsatisfiable_core undisturbed_withChain.lawful hrun
  exact ⟨_, hrun, hcore, hnone⟩

/-! ## Yes -/

theorem ok_of_run_answer_satisfiable {outcome : Outcome} {model : List Literal} {s s' : Session κ}
    (h : (answer outcome).run s = (.ok (.ok (.satisfiable model)), s')) :
    outcome = .satisfiable ∧ (takeModel).run s = (.ok model, s') := by
  cases outcome with
  | satisfiable =>
    obtain ⟨model', s₁, h₁, h⟩ := ok_of_run_bind h
    cases h
    exact ⟨rfl, h₁⟩
  | unsatisfiable => cases h
  | unsatisfiableUnder core => cases h
  | budgetExceeded => cases h
  | inconclusive =>
    obtain ⟨_, s₁, -, h⟩ := ok_of_run_bind h
    cases h

/-- A model that is sorted by variable has a literal for each of them. -/
theorem vars_sortByVariable {ls : List Literal} {n : Nat}
    (h : (ls.map Literal.var).Perm (List.range' 1 n)) :
    (sortByVariable ls).map Literal.var = List.range' 1 n := by
  have hsorted : (sortByVariable ls).Pairwise fun l m => l.var ≤ m.var := by
    have hpair := @List.pairwise_mergeSort _ (fun l m : Literal => decide (l.var ≤ m.var))
      (fun l m k hlm hmk => by
        simp only [decide_eq_true_eq] at hlm hmk ⊢
        omega)
      (fun l m => by
        simp only [Bool.or_eq_true, decide_eq_true_eq]
        omega) ls
    exact hpair.imp fun hlm => of_decide_eq_true hlm
  have hperm : ((sortByVariable ls).map Literal.var).Perm (List.range' 1 n) :=
    ((List.mergeSort_perm ls _).map Literal.var).trans h
  have hrange : (List.range' 1 n).Pairwise (· ≤ ·) := List.pairwise_le_range'
  exact hperm.eq_of_pairwise (fun v w _ _ hvw hwv => Nat.le_antisymm hvw hwv)
    (List.pairwise_map.mpr hsorted) hrange

omit [CustomConstraint κ] in
/-- The literals of a model are those of the trail and one for every other variable. -/
theorem vars_model {e : Engine κ} (h : e.WellFormed) :
    (e.model.1.map Literal.var).Perm (List.range' 1 e.numVariables) := by
  obtain ⟨-, -, ls, hmodel, hvars⟩ := e.model_spec h
  have hcon := h.search.onBoard.consistent
  rw [hmodel, List.map_append, hvars]
  have hassigned : (e.search.assignment.trues.map Literal.var).Perm
      (e.search.assignment.vars.filter fun v => e.search.assignment.isAssigned v) := by
    have hnodup : e.search.assignment.vars.Nodup := List.nodup_range'
    refine (List.perm_ext_iff_of_nodup hcon.nodup_var (hnodup.filter _)).mpr fun v => ?_
    rw [List.mem_filter, ← hcon.isAssigned_iff v]
    refine ⟨fun hv => ⟨?_, hv⟩, fun hv => hv.2⟩
    exact SearchState.subset_vars h.search ((hcon.isAssigned_iff v).mp hv)
  refine (hassigned.append_right _).trans ?_
  exact List.filter_append_perm _ _

/-- The model of a search that satisfied every attached constraint. -/
theorem Faithful.model_of_satisfied {s s' : Session κ} {e : Engine κ} {book : Book κ}
    {model : List Literal}
    (hf : s.Faithful) (hinf : s.engine.control.infeasible = false) (hk : s.engine.Keeps e)
    (hentries : book.entries = s.book.entries) (hsatisfied : e.search.Satisfied)
    (htake : (takeModel).run ⟨e, book⟩ = (.ok model, s')) :
    s'.model = .ok model ∧ model.map Literal.var = List.range' 1 s'.numVariables ∧
      s.numVariables ≤ s'.numVariables ∧ (∀ l ∈ e.search.assignment.trues, l ∈ model) ∧
      s'.descriptions = s.descriptions ∧ ∀ ν, (∀ l ∈ model, l.holds ν = true) → s.Holds ν := by
  obtain ⟨hidles, -, rfl, hmodel, hnum⟩ := takeModel_spec hk.wellFormed htake
  obtain ⟨-, -, rest, hliterals, -⟩ := e.model_spec hk.wellFormed
  have hmem : ∀ l ∈ e.search.assignment.trues, l ∈ sortByVariable e.model.1 := by
    intro l hl
    apply (List.mergeSort_perm _ _).mem_iff.mpr
    rw [hliterals]
    exact List.mem_append_left _ hl
  refine ⟨?_, ?_, ?_, hmem, descriptions_congr (by rw [hidles.entries, hentries]), fun ν hν => ?_⟩
  · rw [Session.model, hmodel]
  · rw [Session.numVariables, hnum]
    exact vars_sortByVariable (vars_model hk.wellFormed)
  · rw [Session.numVariables, Session.numVariables, hnum]
    exact Nat.sub_le_sub_right hk.size 1
  · refine holds_iff.mpr fun entry hentry hpresent => ?_
    obtain ⟨i, hi⟩ := List.mem_iff_getElem?.mp hentry
    rw [Array.getElem?_toList] at hi
    have hcovers := (hf.covers hinf i entry hi hpresent).retains hk.retains
    have htrues : ∀ l ∈ e.search.assignment.trues, l.holds ν = true := fun l hl => hν l (hmem l hl)
    refine hcovers ν (fun l hl => htrues l (Assignment.mem_trues_of_mem_roots hl)) ?_
    intro r c hc hlearned _
    exact hsatisfied ν htrues hc hlearned

section

variable {τ : Type} [Termination τ] {assumptions : List Int} {limit : Book κ → τ}
  {settle : τ → Book κ → Book κ} {s s' : Session κ}

theorem ask_satisfiable {model : List Literal} (h : s.Valid) (hf : s.Faithful) (hu : s.UpToDate)
    (hrun : (ask assumptions limit settle).run s = (.ok (.ok (.satisfiable model)), s'))
    (hsettle : ∀ limit book, (settle limit book).entries = book.entries) :
    s'.model = .ok model ∧ model.map Literal.var = List.range' 1 s'.numVariables ∧
      (∀ n ∈ assumptions, ∃ l ∈ model, l.toDimacs = n) ∧ s'.descriptions = s.descriptions ∧
      ∀ ν, (∀ l ∈ model, l.holds ν = true) → s.Holds ν := by
  obtain ⟨ls, limit', outcome, e, hls, hsolve, hanswer⟩ := ok_of_run_ask hrun
  obtain ⟨-, hne, hnumbers⟩ := ok_of_run_literals hls
  obtain ⟨rfl, htake⟩ := ok_of_run_answer_satisfiable hanswer
  have hgrow := idles_growAll h (assumptions.map Int.natAbs)
  rcases Engine.solve_spec (hgrow.valid h).engine hne hsolve with
    ⟨-, hno, -⟩ | ⟨hinf, hk, -, ⟨hno, -⟩ | ⟨hassumed, hleaves⟩⟩
  · cases hno
  · cases hno
  obtain ⟨-, hsatisfied⟩ := hleaves (hgrow.upToDate hu hinf)
  have hkept : (settle limit' (forgetAnswer s.book)).entries = s.book.entries :=
    hsettle limit' (forgetAnswer s.book)
  obtain ⟨hmodel, hvars, -, hmem, hsame, hholds⟩ :=
    (hgrow.faithful hf).model_of_satisfied hinf hk hkept hsatisfied htake
  refine ⟨hmodel, hvars, fun n hn => ?_, hsame, fun ν hν => (hgrow.holds_iff ν).mp (hholds ν hν)⟩
  rw [← hnumbers] at hn
  obtain ⟨l, hl, hln⟩ := List.mem_map.mp hn
  exact ⟨l, hmem l (hassumed l hl), hln⟩

end

/-- The model of the answer yes has every variable once, in order, makes the assumptions true and
satisfies the constraints. -/
theorem Undisturbed.satisfiable_model {assumptions : List Int} {model : List Literal}
    {s s' : Session κ} (h : s.Undisturbed) (hrun : s.Answers assumptions (.satisfiable model) s') :
    s'.model = .ok model ∧ model.map Literal.var = List.range' 1 s'.numVariables ∧
      (∀ n ∈ assumptions, ∃ l ∈ model, l.toDimacs = n) ∧ s'.descriptions = s.descriptions ∧
      ∀ ν, (∀ l ∈ model, l.holds ν = true) → s.Holds ν := by
  have hv := h.lawful.reachable.valid
  cases hrun with
  | query shared hrun =>
    rw [query_eq_ask] at hrun
    exact ask_satisfiable hv h.lawful.faithful h.upToDate hrun fun _ _ => rfl
  | interrupted polls budget hrun =>
    exact ask_satisfiable hv h.lawful.faithful h.upToDate hrun fun _ _ => rfl

/-- The session after a query that is stopped before a conflict on the first level is handled. -/
def stoppedChain : Session Empty := ((queryInterrupted [-2] (Nat.ble 3) none).run withChain).2

theorem run_stoppedChain : (queryInterrupted [-2] (Nat.ble 3) none).run withChain =
    (.ok (.error .budgetExceeded), stoppedChain) :=
  Prod.ext (by decide +kernel) rfl

theorem undisturbed_stoppedChain : stoppedChain.Undisturbed := by
  refine .call (c := .interrupted [-2] (Nat.ble 3) none) undisturbed_withChain
    (run_discard_of_ok run_stoppedChain) trivial ?_
  rintro ⟨ls, s₁, last, e, hls, hstops, hloses⟩
  cases hls
  exact hstops.not_abandons (n := 4) rfl (by decide +kernel) hloses

/-- A query that is answered after the stop. Its model satisfies both constraints. -/
theorem Undisturbed.satisfiable_model_of_stopped :
    ∃ s' : Session Empty, ∃ model : List Literal,
      stoppedChain.Answers [1] (.satisfiable model) s' ∧ s'.model = .ok model ∧
      model.map Literal.var = List.range' 1 s'.numVariables ∧
      s'.descriptions = [.atLeast copies.literals 2, .clause consequence.literals] ∧
      ∀ ν, (∀ l ∈ model, l.holds ν = true) → stoppedChain.Holds ν := by
  -- The model itself is not computed here: it is sorted by a recursion that is well-founded.
  have hyes : (match ((query [1] false).run stoppedChain).1 with
      | .ok (.ok (.satisfiable _)) => true
      | .ok (.ok (.unsatisfiable _)) => false
      | .ok (.error _) => false
      | .error _ => false) = true := by decide +kernel
  obtain ⟨model, hanswer⟩ : ∃ model,
      ((query [1] false).run stoppedChain).1 = .ok (.ok (.satisfiable model)) := by
    split at hyes
    · exact ⟨_, ‹_›⟩
    all_goals cases hyes
  have hrun := Answers.query false (Prod.ext hanswer rfl)
  obtain ⟨hmodel, hvars, -, hsame, hholds⟩ :=
    Undisturbed.satisfiable_model undisturbed_stoppedChain hrun
  exact ⟨_, model, hrun, hmodel, hvars, hsame, hholds⟩

end Session

end ClauseLearning
