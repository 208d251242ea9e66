import ClauseLearning.Proofs.Greedy

/-!
# Implicants without a literal too many

A literal is kept because its variable is mandatory, or because without it there would be too little
of something that is counted. Later on only more is dropped, so what was needed once is needed in
the end. All strategies keep the same literals if they try them in the same order, so this is shown
once.

* `keepNeeded_needs`: why a literal is there.
* `keepNeeded_prime`: in whatever order the literals of a model are tried.
* `Quadratic.implicant_prime`, `CounterBased.implicant_prime`,
  `WatcherBased.implicantInOrder_prime`: the strategies.
* `primeImplicant_prime`: there is a result, whatever the strategy, and it is a prime implicant.
-/

namespace ClauseLearning

open Requirement

/-- A part of a model has no literal too many if each one is of a mandatory variable or needed. -/
theorem IsPrimeImplicant.of_needs {model ls : List Literal} {rs : List Requirement}
    (hvars : (model.map Literal.var).Nodup) (hsub : ls ⊆ model) (hnodup : ls.Nodup)
    (hmeets : MeetsAll ls rs)
    (hneeds : ∀ l ∈ ls, isMandatory (mandatoryTable rs) l.var = true ∨
      Needs rs (fun m => decide (m ∈ ls)) l) : IsPrimeImplicant model rs ls := by
  refine ⟨hsub, hnodup, hmeets, fun l hl hmet => ?_⟩
  rcases hneeds l hl with hmandatory | hneed
  · obtain ⟨vs, hr, hv⟩ := (isMandatory_mandatoryTable rs l.var).mp hmandatory
    have hkept := hmet _ hr
    simp only [isMet, List.all_eq_true, Bool.or_eq_true, decide_eq_true_eq,
      List.mem_filter] at hkept
    obtain ⟨m, ⟨hm, hne⟩, hmv⟩ : ∃ m, (m ∈ ls ∧ m ≠ l) ∧ m.var = l.var := by
      rcases hkept l.var hv with hm | hm
      · exact ⟨_, hm, Literal.var_make _ _⟩
      · exact ⟨_, hm, Literal.var_make _ _⟩
    exact hne (List.inj_on_of_nodup_map hvars (hsub hm) (hsub hl) hmv)
  · refine hneed (hmet.counts.mono fun m hm => ?_)
    simpa using hm

/-- The order of the literals does not matter. -/
theorem IsPrimeImplicant.perm {model ls ls' : List Literal} {rs : List Requirement}
    (h : IsPrimeImplicant model rs ls) (hperm : ls'.Perm ls) : IsPrimeImplicant model rs ls' := by
  have hmem : ∀ l, l ∈ ls' ↔ l ∈ ls := fun _ => hperm.mem_iff
  refine ⟨fun l hl => h.subset ((hmem l).mp hl), hperm.nodup_iff.mpr h.nodup, ?_,
    fun l hl hmet => ?_⟩
  · simpa only [MeetsAll, hmem] using h.meets
  · refine h.minimal l ((hmem l).mp hl) ?_
    simpa only [MeetsAll, List.mem_filter, hmem] using hmet

/-! ## What is kept -/

/-- What is kept is of a mandatory variable or needed in the end. -/
theorem keepNeeded_needs {rs : List Requirement} {ls : List Literal} (kept : List Literal) :
    ∀ l ∈ keepNeeded rs kept ls, isMandatory (mandatoryTable rs) l.var = true ∨
      Needs rs (fun m => decide (m ∈ kept ++ keepNeeded rs kept ls)) l := by
  induction ls generalizing kept with
  | nil => exact nofun
  | cons l ls ih =>
    unfold keepNeeded
    split
    · rename_i hkept
      have hrest := ih (kept ++ [l])
      simp only [List.append_assoc, List.singleton_append] at hrest
      refine List.forall_mem_cons.mpr ⟨hkept.imp_right fun hfew hcounts => hfew ?_, hrest⟩
      -- Without the literal no more is there than when it was tried.
      refine hcounts.mono fun m hm => ?_
      simp only [List.mem_append, List.mem_cons, Bool.and_eq_true, decide_eq_true_eq] at hm ⊢
      obtain ⟨hm | rfl | hm, hne⟩ := hm
      · exact Or.inl hm
      · exact absurd rfl hne
      · exact Or.inr ((keepNeeded_sublist rs _ ls).subset hm)
    · exact ih kept

theorem keepNeeded_prime {order model : List Literal} {rs : List Requirement}
    (hm : MeetsAll model rs) (hvars : (model.map Literal.var).Nodup) (horder : order.Perm model) :
    IsPrimeImplicant model rs (keepNeeded rs [] order) := by
  obtain ⟨hsub, hmeets⟩ := keepNeeded_meets hm horder
  have hnodup := (horder.nodup_iff.mpr (hvars.of_map _)).sublist (keepNeeded_sublist rs [] order)
  exact .of_needs hvars hsub hnodup hmeets (keepNeeded_needs [])

/-! ## The strategies -/

theorem Quadratic.implicant_prime {model : List Literal} {rs : List Requirement}
    (hm : MeetsAll model rs) (hvars : (model.map Literal.var).Nodup)
    (hknown : ∀ r ∈ rs, ∀ l ∈ r.listed, l.var ∈ model.map Literal.var) :
    ∃ ls, implicant model rs = .ok ls ∧ IsPrimeImplicant model rs ls :=
  ⟨_, implicant_eq (hvars.of_map _) hknown, keepNeeded_prime hm hvars (.refl model)⟩

theorem CounterBased.implicant_prime {model : List Literal} {rs : List Requirement}
    (hm : MeetsAll model rs) (hvars : (model.map Literal.var).Nodup) :
    IsPrimeImplicant model rs (implicant model rs) := by
  rw [implicant_eq hm (hvars.of_map _)]
  exact keepNeeded_prime hm hvars (.refl model)

theorem WatcherBased.implicantInOrder_prime {order model : List Literal} {rs : List Requirement}
    (hm : MeetsAll model rs) (hvars : (model.map Literal.var).Nodup) (horder : order.Perm model) :
    IsPrimeImplicant model rs (implicantInOrder order model rs) :=
  (keepNeeded_prime hm hvars horder).perm (implicantInOrder_perm hm (hvars.of_map _) horder)

/-- Of a model that meets requirements over its own variables, every strategy leaves a prime
implicant. -/
theorem primeImplicant_prime (strategy : ImplicantStrategy) {model : List Literal}
    {rs : List Requirement} (hm : MeetsAll model rs) (hvars : (model.map Literal.var).Nodup)
    (hknown : ∀ r ∈ rs, ∀ l ∈ r.listed, l.var ∈ model.map Literal.var) :
    ∃ ls, primeImplicant strategy model rs = .ok ls ∧ IsPrimeImplicant model rs ls := by
  cases strategy with
  | quadratic => exact Quadratic.implicant_prime hm hvars hknown
  | counterBased => exact ⟨_, rfl, CounterBased.implicant_prime hm hvars⟩
  | watcherBased => exact ⟨_, rfl, WatcherBased.implicantInOrder_prime hm hvars model.reverse_perm⟩

section

variable {κ : Type} [CustomConstraint κ]

/-- What is counted for a constraint are literals of it. -/
theorem Description.listed_subset {d : Description κ} {r : Requirement}
    (hr : ofDescription? d = some r) : r.listed ⊆ d.literals := by
  cases d with
  | clause ls =>
    simp only [ofDescription?] at hr
    split at hr
    · cases hr
    · cases hr
      exact List.Subset.refl ls
  | atLeast ls degree =>
    cases hr
    exact List.Subset.refl ls
  | parity ls even =>
    cases hr
    exact List.nil_subset _
  | custom c =>
    cases hr
    exact List.nil_subset _

/-- Of a model that satisfies some constraints over its variables, too. -/
theorem primeImplicant_of_holds (strategy : ImplicantStrategy) {model : List Literal}
    {ds : List (Description κ)} (hvars : (model.map Literal.var).Nodup)
    (hknown : ∀ d ∈ ds, ∀ l ∈ d.literals, l.var ∈ model.map Literal.var)
    (hholds : ∀ d ∈ ds, d.Holds (Valuation.ofModel model)) :
    ∃ ls, primeImplicant strategy model (ds.filterMap ofDescription?) = .ok ls ∧
      IsPrimeImplicant model (ds.filterMap ofDescription?) ls := by
  refine primeImplicant_prime strategy (meetsAll_of_holds hvars hknown hholds) hvars ?_
  intro r hr l hl
  obtain ⟨d, hd, hr⟩ := List.mem_filterMap.mp hr
  exact hknown d hd l (Description.listed_subset hr hl)

end

end ClauseLearning
