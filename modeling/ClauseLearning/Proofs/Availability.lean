import ClauseLearning.Proofs.Primes
import ClauseLearning.Proofs.WatcherBounds

/-!
# Implicants of an earlier model

A model stays after constraints and variables were added, so what is required of an implicant may
name variables that the model does not know. Counters and watchers take no notice of them. Repeated
checks look up their literals, which are not in the table, and stop with a fault once they come to
them. They do not come to them as long as an earlier requirement is not met; then no literal can be
dropped, and the implicant is the model.

* `Requirement.Overreaches`: when repeated checks come to an unknown literal.
* `Quadratic.implicant_cases`: what they do if they do, and if they do not.
-/

namespace ClauseLearning

open Requirement

/-- Of the elements with a property there is a first one. -/
theorem exists_first {α : Type} {p : α → Prop} {xs : List α} (h : ∃ x ∈ xs, p x) :
    ∃ before x after, xs = before ++ x :: after ∧ p x ∧ ∀ y ∈ before, ¬ p y := by
  classical
  obtain ⟨x, hx, hp⟩ := h
  have hfound : (xs.find? fun x => decide (p x)).isSome :=
    List.find?_isSome.mpr ⟨x, hx, decide_eq_true hp⟩
  obtain ⟨y, hy⟩ := Option.isSome_iff_exists.mp hfound
  obtain ⟨hpy, before, after, rfl, hbefore⟩ := List.find?_eq_some_iff_append.mp hy
  exact ⟨before, y, after, rfl, of_decide_eq_true hpy, by simpa using hbefore⟩

/-! ## What a requirement may name -/

namespace Requirement

/-- All literals that are counted are of variables of the model. -/
def Within (model : List Literal) (r : Requirement) : Prop :=
  ∀ l ∈ r.listed, l.var ∈ model.map Literal.var

instance (model : List Literal) : DecidablePred (Within model) := fun r =>
  inferInstanceAs (Decidable (∀ l ∈ r.listed, l.var ∈ model.map Literal.var))

/-- Some requirement is not within the model, and those before the first one that is not are met
without some literal of the model whose variable is not mandatory. -/
def Overreaches (model : List Literal) (rs : List Requirement) : Prop :=
  (∃ r ∈ rs, ¬ r.Within model) ∧ ∃ l ∈ model, isMandatory (mandatoryTable rs) l.var = false ∧
    Counts (rs.takeWhile fun r => decide (r.Within model)) fun m => decide (m ∈ model ∧ m ≠ l)

instance (model : List Literal) (rs : List Requirement) : Decidable (Overreaches model rs) :=
  inferInstanceAs (Decidable (_ ∧ ∃ l ∈ model, _ ∧ _))

/-- The table of a model of the variables `1..n` has no room for any other. -/
theorem size_truthTable_of_vars {model : List Literal} {n : Nat}
    (hvars : model.map Literal.var = List.range' 1 n) :
    (truthTable model).size = if n = 0 then 0 else 2 * (n + 1) := by
  induction n generalizing model with
  | zero =>
    rw [List.map_eq_nil_iff.mp hvars]
    rfl
  | succ n ih =>
    rw [List.range'_concat, Nat.one_mul] at hvars
    obtain ⟨ms, ls, rfl, hms, hls⟩ := List.map_eq_append_iff.mp hvars
    obtain ⟨l, rfl, hl⟩ := List.map_eq_singleton_iff.mp hls
    rw [size_truthTable_concat, ih hms, hl, if_neg (Nat.succ_ne_zero n)]
    split <;> omega

theorem size_truthTable_le_iff {model : List Literal} {n : Nat}
    (hvars : model.map Literal.var = List.range' 1 n) {l : Literal} (hl : l.var ≠ 0) :
    (truthTable model).size ≤ l.code ↔ l.var ∉ model.map Literal.var := by
  rw [size_truthTable_of_vars hvars, hvars, List.mem_range'_1]
  rw [Literal.var] at hl ⊢
  split <;> omega

end Requirement

/-! ## Repeated checks -/

/-- A literal that was dropped and put back. -/
theorem LiteralTable.set_set_of_getD {t : LiteralTable Bool} {l : Literal}
    (h : t.getD l false = true) : (t.set l false).set l true = t := by
  have hlt : l.code < t.entries.size := lt_size_of_getD h
  have hget : t.entries[l.code] = true := by
    rwa [getD, get?, Array.getElem?_eq_getElem hlt, Option.getD_some] at h
  refine congrArg LiteralTable.mk ?_
  rw [set, Array.setIfInBounds_setIfInBounds, Array.setIfInBounds_def, dif_pos hlt, ← hget,
    Array.set_getElem_self]

namespace Quadratic

variable {table : LiteralTable Bool} {before after rs : List Requirement} {r : Requirement}

theorem countTrue_of_missing {ls : List Literal} (h : ∃ l ∈ ls, table.size ≤ l.code) :
    ∃ l ∈ ls, table.size ≤ l.code ∧
      countTrue table ls = .error (.outOfBounds table.size l.code) := by
  induction ls with
  | nil => exact absurd h nofun
  | cons l ls ih =>
    rcases Nat.lt_or_ge l.code table.size with hl | hl
    · have hget : table.get? l = some table.entries[l.code] := Array.getElem?_eq_getElem hl
      have hrest : ∃ m ∈ ls, table.size ≤ m.code := by
        obtain ⟨m, hm, hcode⟩ := h
        rcases List.mem_cons.mp hm with rfl | hm
        · exact absurd hl (Nat.not_lt.mpr hcode)
        · exact ⟨m, hm, hcode⟩
      obtain ⟨m, hm, hcode, hrun⟩ := ih hrest
      refine ⟨m, List.mem_cons_of_mem l hm, hcode, ?_⟩
      simp only [countTrue, hget, hrun]
      rfl
    · have hget : table.get? l = none := Array.getElem?_eq_none hl
      refine ⟨l, List.mem_cons_self, hl, ?_⟩
      simp only [countTrue, hget]

theorem meetsAll_of_missing (after : List Requirement) (h : ∃ l ∈ r.listed, table.size ≤ l.code) :
    ∃ l ∈ r.listed, table.size ≤ l.code ∧
      meetsAll table (r :: after) = .error (.outOfBounds table.size l.code) := by
  cases r with
  | mandatory vs => exact absurd h nofun
  | atLeast ls degree =>
    obtain ⟨l, hl, hcode, hcount⟩ : ∃ l ∈ ls, table.size ≤ l.code ∧
        countTrue table ls = .error (.outOfBounds table.size l.code) := countTrue_of_missing h
    refine ⟨l, hl, hcode, ?_⟩
    rw [meetsAll, hcount]
    rfl

/-- The requirements before are looked at first. -/
theorem meetsAll_append (h : ∀ r' ∈ before, ∀ l ∈ r'.listed, l.code < table.size) :
    meetsAll table (before ++ after) =
      if Counts before fun l => table.getD l false then meetsAll table after else .ok false := by
  induction before with
  | nil => rw [if_pos (show Counts [] _ from nofun), List.nil_append]
  | cons r rs ih =>
    obtain ⟨hr, hrs⟩ := List.forall_mem_cons.mp h
    simp only [counts_cons]
    cases r with
    | mandatory vs =>
      rw [List.cons_append, meetsAll, ih hrs]
      simp [CounterBased.degree]
    | atLeast ls degree =>
      obtain ⟨n, hn⟩ : ∃ n, countTrue table ls = .ok n := countTrue_total hr
      rw [List.cons_append, meetsAll, hn, ok_bind, ih hrs, countTrue_eq hn]
      by_cases hle : degree ≤ ls.countP fun l => table.getD l false
      · simp [CounterBased.degree, listed, hle]
      · simp [CounterBased.degree, listed, hle]
        rfl

/-- Literals that cannot be dropped leave the table as it is. -/
theorem dropEach_append {mandatory : Array Bool} {tried ls : List Literal}
    (htrue : ∀ l ∈ tried, table.getD l false = true)
    (hunmet : ∀ l ∈ tried, isMandatory mandatory l.var = false →
      meetsAll (table.set l false) rs = .ok false) :
    dropEach mandatory rs (tried ++ ls) table = dropEach mandatory rs ls table := by
  induction tried with
  | nil => rfl
  | cons l tried ih =>
    obtain ⟨hl, htrue⟩ := List.forall_mem_cons.mp htrue
    obtain ⟨hlunmet, hunmet⟩ := List.forall_mem_cons.mp hunmet
    rw [List.cons_append, dropEach]
    split
    · exact ih htrue hunmet
    · rename_i hfree
      dsimp only
      rw [hlunmet (Bool.eq_false_iff.mpr hfree), ok_bind, LiteralTable.set_set_of_getD hl]
      exact ih htrue hunmet

/-- What repeated checks come to if some requirement names a literal that is not in the table. -/
theorem implicant_of_missing {model : List Literal}
    (hknown : ∀ r' ∈ before, ∀ l ∈ r'.listed, l.code < (truthTable model).size)
    (hmissing : ∃ l ∈ r.listed, (truthTable model).size ≤ l.code)
    (hrs : rs = before ++ r :: after) :
    if ∃ l ∈ model, isMandatory (mandatoryTable rs) l.var = false ∧
        Counts before (fun m => decide (m ∈ model ∧ m ≠ l)) then
      ∃ l ∈ r.listed, (truthTable model).size ≤ l.code ∧
        implicant model rs = .error (.outOfBounds (truthTable model).size l.code)
    else implicant model rs = .ok model := by
  have htrue : ∀ l ∈ model, (truthTable model).getD l false = true :=
    fun l => (getD_truthTable model l).mpr
  have hless : ∀ l ∈ model, ∀ m, ((truthTable model).set l false).getD m false =
      decide (m ∈ model ∧ m ≠ l) := by
    intro l hl m
    rw [LiteralTable.getD_set, Bool.eq_iff_iff, decide_eq_true_eq, ← getD_truthTable]
    by_cases hml : l = m
    · simp [hml, hml ▸ size_truthTable hl]
    · simp [hml, Ne.symm hml]
  have hmeets : ∀ l ∈ model, meetsAll ((truthTable model).set l false) rs =
      if Counts before fun m => decide (m ∈ model ∧ m ≠ l) then
        meetsAll ((truthTable model).set l false) (r :: after) else .ok false := by
    intro l hl
    rw [hrs, meetsAll_append (by rwa [LiteralTable.size_set])]
    simp only [hless l hl]
  -- Without these literals some requirement is not met before an unknown literal is looked up.
  have hunmet : ∀ tried ⊆ model, (∀ l ∈ tried, ¬ (isMandatory (mandatoryTable rs) l.var = false ∧
      Counts before fun m => decide (m ∈ model ∧ m ≠ l))) → ∀ ls,
        dropEach (mandatoryTable rs) rs (tried ++ ls) (truthTable model) =
          dropEach (mandatoryTable rs) rs ls (truthTable model) := by
    intro tried hsub hstuck ls
    refine dropEach_append (fun l hl => htrue l (hsub hl)) fun l hl hfree => ?_
    rw [hmeets l (hsub hl), if_neg fun hcounts => hstuck l hl ⟨hfree, hcounts⟩]
  split
  · rename_i hdropped
    obtain ⟨tried, l, rest, hmodel, ⟨hfree, hcounts⟩, htried⟩ := exists_first hdropped
    have hl : l ∈ model := hmodel ▸ List.mem_append_right _ List.mem_cons_self
    have hsize := LiteralTable.size_set (truthTable model) l false
    have hmeets := hmeets l hl
    rw [if_pos hcounts] at hmeets
    rw [← hsize] at hmissing
    obtain ⟨m, hm, hcode, hfault⟩ := meetsAll_of_missing after hmissing
    rw [hsize] at hcode hfault
    refine ⟨m, hm, hcode, ?_⟩
    have hrun := hunmet tried (fun m hm => hmodel ▸ List.mem_append_left _ hm) htried (l :: rest)
    rw [← hmodel, dropEach, if_neg (Bool.eq_false_iff.mp hfree)] at hrun
    dsimp only at hrun
    rw [hmeets, hfault] at hrun
    rw [implicant, hrun]
    rfl
  · rename_i hstuck
    have hdrop := hunmet model (List.Subset.refl _) (fun l hl h => hstuck ⟨l, hl, h⟩) []
    rw [List.append_nil] at hdrop
    rw [implicant, hdrop]
    exact congrArg Except.ok (List.filter_eq_self.mpr htrue)

/-- Repeated checks leave a part of the model, unless they come to a literal of a variable that it
does not know. -/
theorem implicant_cases {model : List Literal} {n : Nat}
    (hvars : model.map Literal.var = List.range' 1 n) (hne : ∀ r ∈ rs, ∀ l ∈ r.listed, l.var ≠ 0) :
    if Overreaches model rs then ∃ l : Literal, l.var ∉ model.map Literal.var ∧
      implicant model rs = .error (.outOfBounds (2 * (model.length + 1)) l.code)
    else ∃ ls, implicant model rs = .ok ls ∧ ls ⊆ model := by
  have hnodup : model.Nodup := .of_map _ (hvars ▸ List.nodup_range')
  by_cases hall : ∀ r ∈ rs, r.Within model
  · rw [if_neg fun h => by
      obtain ⟨r, hr, hout⟩ := h.1
      exact hout (hall r hr)]
    exact ⟨_, implicant_eq hnodup hall, (keepNeeded_sublist rs [] model).subset⟩
  · simp only [not_forall, exists_prop] at hall
    obtain ⟨before, r, after, hrs, hout, hbefore⟩ := exists_first hall
    have hwithin : ∀ r' ∈ before, r'.Within model := fun r' hr' => not_not.mp (hbefore r' hr')
    have hfirst : (rs.takeWhile fun r => decide (r.Within model)) = before := by
      rw [hrs, List.takeWhile_append_of_pos fun r' hr' => decide_eq_true (hwithin r' hr'),
        List.takeWhile_cons_of_neg (by simpa using hout), List.append_nil]
    obtain ⟨l, hl, hlout⟩ : ∃ l ∈ r.listed, l.var ∉ model.map Literal.var := by
      simpa only [Within, not_forall, exists_prop] using hout
    have hr : r ∈ rs := hrs ▸ List.mem_append_right _ List.mem_cons_self
    have hrun := implicant_of_missing
      (fun r' hr' l hl => size_truthTable_of_var (hwithin r' hr' l hl))
      ⟨l, hl, (size_truthTable_le_iff hvars (hne r hr l hl)).mpr hlout⟩ hrs
    simp only [Overreaches, hall, true_and, hfirst]
    split
    · rename_i hdropped
      rw [if_pos hdropped] at hrun
      obtain ⟨k, hk, -⟩ := hdropped
      obtain ⟨m, hm, hcode, hfault⟩ := hrun
      have hlength : model.length = n := by
        rw [← List.length_map (f := Literal.var), hvars, List.length_range']
      have hn : n ≠ 0 := hlength ▸ Nat.ne_of_gt (List.length_pos_of_mem hk)
      refine ⟨m, (size_truthTable_le_iff hvars (hne r hr m hm)).mp hcode, ?_⟩
      rw [hfault, size_truthTable_of_vars hvars, if_neg hn, hlength]
    · rename_i hstuck
      rw [if_neg hstuck] at hrun
      exact ⟨model, hrun, List.Subset.refl model⟩

end Quadratic

/-! ## The other strategies -/

theorem WatcherBased.State.tryAll_subset (isTrue : LiteralTable Bool) (rs : Array Requirement)
    (order : List Literal) (s : State) : s.tryAll isTrue rs order ⊆ order := by
  induction order generalizing s with
  | nil => exact List.Subset.refl []
  | cons l ls ih =>
    unfold tryAll
    split
    · exact List.subset_cons_of_subset l (ih s)
    · split
      · exact List.cons_subset_cons l (ih _)
      · exact List.subset_cons_of_subset l (ih _)

theorem WatcherBased.implicant_subset (model : List Literal) (rs : List Requirement) :
    implicant model rs ⊆ model :=
  List.append_subset.mpr ⟨List.filter_subset_self _,
    fun _ hl => List.mem_reverse.mp (State.tryAll_subset _ _ _ _ hl)⟩

/-- Every strategy leaves a part of a model, whatever is required, but for repeated checks that come
to a literal of a variable that the model does not know. -/
theorem primeImplicant_cases (strategy : ImplicantStrategy) {model : List Literal}
    {rs : List Requirement} {n : Nat} (hvars : model.map Literal.var = List.range' 1 n)
    (hne : ∀ r ∈ rs, ∀ l ∈ r.listed, l.var ≠ 0) :
    if strategy = .quadratic ∧ Overreaches model rs then
      ∃ l : Literal, l.var ∉ model.map Literal.var ∧
        primeImplicant strategy model rs = .error (.outOfBounds (2 * (model.length + 1)) l.code)
    else ∃ ls, primeImplicant strategy model rs = .ok ls ∧ ls ⊆ model := by
  cases strategy with
  | quadratic => simpa only [true_and, primeImplicant] using Quadratic.implicant_cases hvars hne
  | counterBased => exact ⟨_, rfl, (CounterBased.keep_sublist ..).subset⟩
  | watcherBased => exact ⟨_, rfl, WatcherBased.implicant_subset model rs⟩

/-! ## Models of sessions -/

namespace Session

variable {κ : Type} [CustomConstraint κ]

/-- A model that is there has one literal for each variable up to some number. -/
def Modelled (s : Session κ) : Prop :=
  ∀ model, s.book.model = some model → ∃ n, model.map Literal.var = List.range' 1 n

theorem ask_modelled {τ : Type} [Termination τ] {assumptions : List Int} {limit : Book κ → τ}
    {settle : τ → Book κ → Book κ} {result : Except SearchError Answer} {s s' : Session κ}
    (h : s.Valid) (hrun : (ask assumptions limit settle).run s = (.ok result, s'))
    (hsettle : ∀ limit book, (settle limit book).model = book.model) : s'.Modelled := by
  obtain ⟨ls, limit', outcome, e, hls, hsolve, hanswer⟩ := ok_of_run_ask hrun
  obtain ⟨-, hne, -⟩ := ok_of_run_literals hls
  have hgrow := idles_growAll h (assumptions.map Int.natAbs)
  have hnone : ∀ {s' : Session κ},
      s'.book.model = (settle limit' (forgetAnswer s.book)).model → s'.Modelled := by
    intro s' hsame model hmodel
    rw [hsame, hsettle] at hmodel
    cases hmodel
  cases outcome with
  | satisfiable =>
    obtain ⟨model, s₁, htake, hanswer⟩ := ok_of_run_bind hanswer
    cases hanswer
    rcases Engine.solve_spec (hgrow.valid h).engine hne hsolve with ⟨-, hno, -⟩ | ⟨-, hk, -⟩
    · cases hno
    · obtain ⟨-, -, rfl, hmodel, -⟩ := takeModel_spec hk.wellFormed htake
      rintro _ hsome
      cases hmodel.symm.trans hsome
      exact ⟨_, vars_sortByVariable (vars_model hk.wellFormed)⟩
  | inconclusive =>
    obtain ⟨_, s₁, hbuilt, hanswer⟩ := ok_of_run_bind hanswer
    cases hanswer
    exact hnone (rebuild_model hbuilt)
  | unsatisfiable =>
    cases hanswer
    exact hnone rfl
  | unsatisfiableUnder core =>
    cases hanswer
    exact hnone rfl
  | budgetExceeded =>
    cases hanswer
    exact hnone rfl

theorem Reachable.modelled {s : Session κ} (h : s.Reachable) : s.Modelled := by
  induction h with
  | make o => exact nofun
  | @call c s s' h hrun ih =>
    by_cases hforgets : c.Forgets
    · cases c with
      | query assumptions shared =>
        obtain ⟨result, hrun⟩ := ok_of_run_discard hrun
        rw [query_eq_ask] at hrun
        exact ask_modelled h.valid hrun fun _ _ => rfl
      | interrupted assumptions polls budget =>
        obtain ⟨result, hrun⟩ := ok_of_run_discard hrun
        exact ask_modelled h.valid hrun fun _ _ => rfl
      | reset =>
        cases hrun
        exact nofun
      | _ => exact hforgets.elim
    · intro model hmodel
      rw [(Call.relaxes h.valid hrun hforgets).1] at hmodel
      exact ih model hmodel

/-- Whenever a model is there, a prime implicant of the constraints that are present now can be
computed, which is a part of the model, whatever was added since the query. The exception are
repeated checks that look up a literal of a variable that was not known to the query. No other
access is out of bounds, and no counter runs out. -/
theorem Reachable.implicant_available {s : Session κ} {model : List Literal} (h : s.Reachable)
    (hmodel : s.model = .ok model) :
    (if s.book.options.implicant = .quadratic ∧ Overreaches model s.requirements then
      ∃ l : Literal, l.var ∉ model.map Literal.var ∧ ((computeImplicant).run s).1 =
        .error (.internal (.outOfBounds (2 * (model.length + 1)) l.code))
    else ∃ ls, ((computeImplicant).run s).1 = .ok ls ∧ ls ⊆ model) ∧
      Checked.primeImplicant s.book.options.implicant model s.requirements =
        primeImplicant s.book.options.implicant model s.requirements := by
  obtain ⟨n, hvars⟩ : ∃ n, model.map Literal.var = List.range' 1 n := by
    refine h.modelled model ?_
    unfold Session.model at hmodel
    split at hmodel
    · rename_i hsome
      cases hmodel
      exact hsome
    · cases hmodel
  have hne : ∀ r ∈ s.requirements, ∀ l ∈ r.listed, l.var ≠ 0 := by
    intro r hr l hl
    obtain ⟨d, hd, hr⟩ := List.mem_filterMap.mp hr
    exact (h.standing.described hd l (Description.listed_subset hr hl)).1
  have hcases := primeImplicant_cases s.book.options.implicant hvars hne
  refine ⟨?_, Checked.primeImplicant_eq _ (.of_map _ (hvars ▸ List.nodup_range')) _⟩
  split
  · rename_i hover
    rw [if_pos hover] at hcases
    obtain ⟨l, hl, hfault⟩ := hcases
    exact ⟨l, hl, by rw [run_computeImplicant_eq hmodel, hfault]⟩
  · rename_i hover
    rw [if_neg hover] at hcases
    obtain ⟨ls, hls, hsub⟩ := hcases
    refine ⟨sortByVariable ls, run_computeImplicant hmodel hls, fun l hl => ?_⟩
    exact hsub ((List.mergeSort_perm _ _).mem_iff.mp hl)

/-- A session with a model of one variable. -/
def withModel : Session Empty :=
  ((Call.query [] false).run.run
    ((Call.newVariables 1).run.run (make { Options.standard with implicant := .quadratic })).2).2

/-- Here a constraint about another variable is present, too. -/
def withOldModel : Session Empty := ((Call.add (.clause [2])).run.run withModel).2

theorem reachable_withOldModel : withOldModel.Reachable := by
  have hknown : ((Call.newVariables 1).run.run
      (make { Options.standard with implicant := .quadratic } : Session Empty)).1 = .ok () := rfl
  have hquery : ((Call.query [] false).run.run ((Call.newVariables 1).run.run
      (make { Options.standard with implicant := .quadratic } : Session Empty)).2).1 = .ok () := by
    decide +kernel
  have hadd : ((Call.add (.clause [2])).run.run withModel).1 = .ok () := by decide +kernel
  have h₁ : withModel.Reachable := .call (.call (.make _) (Prod.ext hknown rfl))
      (Prod.ext hquery rfl)
  exact .call h₁ (Prod.ext hadd rfl)

/-- Repeated checks look the literal of the new variable up at once. -/
theorem Reachable.implicant_available_of_growth :
    withOldModel.Reachable ∧ withOldModel.model = .ok [.make 1 false] ∧
      ∃ l : Literal, l.var ≠ 1 ∧
        ((computeImplicant).run withOldModel).1 = .error (.internal (.outOfBounds 4 l.code)) := by
  have hmodel : withOldModel.model = .ok [.make 1 false] := by decide +kernel
  have hover : withOldModel.book.options.implicant = .quadratic ∧
      Overreaches [.make 1 false] withOldModel.requirements := by decide +kernel
  obtain ⟨hcases, -⟩ := Reachable.implicant_available reachable_withOldModel hmodel
  rw [if_pos hover] at hcases
  obtain ⟨l, hl, hfault⟩ := hcases
  exact ⟨reachable_withOldModel, hmodel, l, by simpa using hl, hfault⟩

end Session

end ClauseLearning
