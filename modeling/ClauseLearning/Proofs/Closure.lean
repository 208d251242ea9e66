import ClauseLearning.Proofs.Invariant

/-!
# Naive propagation

Without watches and counters, propagation goes through all constraints again and again: whatever
one of them forces under the true literals (`Kind.Forces`) becomes true, until nothing is forced any
more. The order does not matter, unless some constraint is violated on the way.

* `Arena.Completes.confluent`: if one exhaustive run violates no constraint, then no other does, and
  all make the same literals true.
* `Arena.exists_completes`: exhaustive runs exist.
* `Arena.deduces_of_explained`: literals that constraints explain one after the other are a run,
  up to the first violated constraint.
-/

namespace ClauseLearning

variable {κ : Type}

theorem numFalse_lt {ts us : List Literal} (h : ∀ l ∈ ts, l ∈ us) {ls : List Literal} {l : Literal}
    (hl : l ∈ ls) (hts : -l ∉ ts) (hus : -l ∈ us) : numFalse ts ls < numFalse us ls := by
  obtain ⟨front, back, rfl⟩ := List.append_of_mem hl
  have hfront := numFalse_mono h front
  have hback := numFalse_mono h back
  simp only [numFalse, List.countP_append, List.countP_cons, hts, hus, decide_false, decide_true,
    Bool.false_eq_true, if_false, if_true] at hfront hback ⊢
  omega

theorem Functional.concat {ts : List Literal} (h : Functional ts) {l : Literal}
    (hl : l.var ∉ ts.map Literal.var) : Functional (ts ++ [l]) := by
  have hmem : ∀ {x}, x ∈ ts ++ [l] → x ∈ l :: ts := (List.perm_append_singleton l ts).mem_iff.mp
  exact fun x hx y hy => h.cons hl x (hmem hx) y (hmem hy)

namespace Kind

/-- What a constraint forces: a clause the last literal that is not false, a cardinality constraint
with no false literal to spare every literal without a value, and a parity constraint its last
variable without a value. -/
def Forces : Kind κ → List Literal → Literal → Prop
  | .clause c, trues, l =>
    l.var ∉ trues.map Literal.var ∧ l ∈ c.literals ∧ ∀ m ∈ c.literals, m ≠ l → -m ∈ trues
  | .cardinality c, trues, l =>
    l.var ∉ trues.map Literal.var ∧ l ∈ c.literals ∧
      numFalse trues c.literals = c.literals.length - c.degree
  | .parity c, trues, l =>
    l.var ∉ trues.map Literal.var ∧ l.var ∈ c.vars ∧
      (∀ v ∈ c.vars, v ≠ l.var → v ∈ trues.map Literal.var) ∧ c.IsRight (l :: trues)
  | .custom _, _, _ => False

namespace Forces

variable {k k' : Kind κ} {ts us : List Literal} {l : Literal}

theorem unassigned (h : k.Forces ts l) : l.var ∉ ts.map Literal.var := by
  cases k with
  | clause c => exact h.1
  | cardinality c => exact h.1
  | parity c => exact h.1
  | custom c => exact h.elim

theorem known (h : k.Forces ts l) {size : Nat} (hw : k.WellFormed size) : l.Known size := by
  cases k with
  | clause c => exact hw.2 l h.2.1
  | cardinality c => exact hw.2 l h.2.1
  | parity c => exact hw.2 l.var h.2.1
  | custom c => exact h.elim

theorem similar (h : k.Forces ts l) (hs : k.Similar k') : k'.Forces ts l := by
  cases k <;> cases k'
  case clause.clause c d =>
    have hmem := fun m => List.Perm.mem_iff (a := m) hs
    exact ⟨h.1, (hmem l).mp h.2.1, fun m hm => h.2.2 m ((hmem m).mpr hm)⟩
  case cardinality.cardinality c d =>
    obtain ⟨hlits, hdegree⟩ := hs
    exact ⟨h.1, hlits ▸ h.2.1, hlits ▸ hdegree ▸ h.2.2⟩
  case parity.parity c d =>
    obtain ⟨hvars, hodd⟩ := hs
    refine ⟨h.1, hvars.mem_iff.mp h.2.1, fun v hv => h.2.2.1 v (hvars.mem_iff.mpr hv), ?_⟩
    exact (Parity.isRight_perm hvars hodd _).mpr h.2.2.2
  case custom.custom c d => exact h.elim
  all_goals exact hs.elim

end Forces

/-! ## More true literals -/

namespace Violated

variable {k k' : Kind κ} {ts us : List Literal}

theorem similar (h : k.Violated ts) (hs : k.Similar k') : k'.Violated ts := by
  cases k <;> cases k'
  case clause.clause c d => exact fun m hm => h m ((List.Perm.mem_iff hs).mpr hm)
  case cardinality.cardinality c d =>
    obtain ⟨hlits, hdegree⟩ := hs
    simp only [Violated, Cardinality.slack, hlits, hdegree] at h ⊢
    exact h
  case parity.parity c d =>
    obtain ⟨hvars, hodd⟩ := hs
    refine ⟨fun v hv => h.1 v (hvars.mem_iff.mpr hv), fun hright => h.2 ?_⟩
    exact (Parity.isRight_perm hvars hodd _).mp hright
  case custom.custom c d => exact h.elim
  all_goals exact hs.elim

/-- What is violated stays violated. -/
theorem mono (h : k.Violated ts) (hus : Functional us) (hsub : ∀ l ∈ ts, l ∈ us) :
    k.Violated us := by
  cases k with
  | clause c => exact fun l hl => hsub _ (h l hl)
  | cardinality c => exact Nat.lt_of_lt_of_le h (numFalse_mono hsub c.literals)
  | parity c =>
    refine ⟨fun v hv => ?_, fun hright => h.2 ((Parity.isRight_congr hus hsub h.1).mp hright)⟩
    obtain ⟨l, hl, rfl⟩ := List.mem_map.mp (h.1 v hv)
    exact List.mem_map.mpr ⟨l, hsub l hl, rfl⟩
  | custom c => exact h.elim

end Violated

end Kind

/-- With the other value of the last variable the parity is wrong. -/
theorem Parity.not_isRight_of_negate_mem {c : Parity} (hvars : c.vars.Nodup) {ts us : List Literal}
    {l : Literal} (hl : l.var ∈ c.vars) (hnew : l.var ∉ ts.map Literal.var)
    (hrest : ∀ v ∈ c.vars, v ≠ l.var → v ∈ ts.map Literal.var) (hright : c.IsRight (l :: ts))
    (hus : Functional us) (hsub : ∀ m ∈ ts, m ∈ us) (hneg : -l ∈ us) : ¬ c.IsRight us := by
  have hagree : ∀ v ∈ c.vars, v ≠ l.var →
      decide (Literal.make v true ∈ l :: ts) = decide (Literal.make v true ∈ us) := by
    intro v hv hvl
    have hne : Literal.make v true ≠ l := by
      rintro rfl
      exact hvl (Literal.var_make v true).symm
    rw [decide_eq_decide, mem_make_congr hus hsub (hrest v hv hvl)]
    simp [hne]
  have hdiff : decide (Literal.make l.var true ∈ l :: ts) ≠
      decide (Literal.make l.var true ∈ us) := by
    have hmake : Literal.make l.var true ∉ ts := fun hm =>
      hnew (List.mem_map.mpr ⟨_, hm, Literal.var_make _ _⟩)
    rw [ne_eq, decide_eq_decide, List.mem_cons]
    cases hpos : l.isPositive with
    | true =>
      have hself : Literal.make l.var true = l := by rw [← hpos, Literal.make_var_isPositive]
      have hnot : l ∉ us := fun hmem => hus.not_mem_negate hmem hneg
      simp [hself, hnot]
    | false =>
      have hself : Literal.make l.var true = -l := by
        apply Literal.ext_var
        · rw [Literal.var_make, Literal.var_negate]
        · rw [Literal.isPositive_make, Literal.isPositive_negate, hpos]
          rfl
      rw [hself] at hmake ⊢
      simp [hmake, hneg, Literal.negate_ne]
  have hflip := countP_parity_ne hvars hl hdiff hagree
  intro hwrong
  rw [IsRight] at hright hwrong
  rw [hright, hwrong] at hflip
  exact (Bool.eq_not_self _).mp hflip

namespace Kind

variable {k : Kind κ} {ts us : List Literal} {l : Literal}

/-- What was forced once is true later, or still forced, or the constraint is violated. -/
theorem Forces.persists (h : k.Forces ts l) {size : Nat} (hw : k.WellFormed size)
    (hus : Functional us) (hsub : ∀ m ∈ ts, m ∈ us) :
    l ∈ us ∨ k.Violated us ∨ k.Forces us l := by
  by_cases hl : l ∈ us
  · exact Or.inl hl
  have hvar : ∀ {v}, v ∈ ts.map Literal.var → v ∈ us.map Literal.var := by
    intro v hv
    obtain ⟨m, hm, rfl⟩ := List.mem_map.mp hv
    exact List.mem_map.mpr ⟨m, hsub m hm, rfl⟩
  -- The literal is false or has no value.
  by_cases hassigned : l.var ∈ us.map Literal.var
  · have hneg : -l ∈ us := (Literal.mem_or_negate_mem hassigned).resolve_left hl
    refine Or.inr (Or.inl ?_)
    cases k with
    | clause c =>
      intro m hm
      by_cases hml : m = l
      · rw [hml]
        exact hneg
      · exact hsub _ (h.2.2 m hm hml)
    | cardinality c =>
      obtain ⟨hnew, hmem, hspent⟩ := h
      have hts : -l ∉ ts := fun hm => hnew (List.mem_map.mpr ⟨-l, hm, Literal.var_negate l⟩)
      have hlt := numFalse_lt hsub hmem hts hneg
      rw [hspent] at hlt
      exact hlt
    | parity c =>
      obtain ⟨hnew, hmem, hrest, hright⟩ := h
      refine ⟨fun v hv => ?_, c.not_isRight_of_negate_mem hw.1 hmem hnew hrest hright hus hsub hneg⟩
      by_cases hvl : v = l.var
      · rw [hvl]
        exact hassigned
      · exact hvar (hrest v hv hvl)
    | custom c => exact h
  · refine Or.inr ?_
    cases k with
    | clause c =>
      exact Or.inr ⟨hassigned, h.2.1, fun m hm hml => hsub _ (h.2.2 m hm hml)⟩
    | cardinality c =>
      have hle := numFalse_mono hsub c.literals
      rw [h.2.2] at hle
      rcases Nat.lt_or_eq_of_le hle with hlt | heq
      · exact Or.inl hlt
      · exact Or.inr ⟨hassigned, h.2.1, heq.symm⟩
    | parity c =>
      obtain ⟨-, hmem, hrest, hright⟩ := h
      refine Or.inr ⟨hassigned, hmem, fun v hv hvl => hvar (hrest v hv hvl), ?_⟩
      have hfun : Functional (l :: us) := by
        intro x hx y hy
        refine hus.concat hassigned x ?_ y ?_
        · exact (List.perm_append_singleton l us).mem_iff.mpr hx
        · exact (List.perm_append_singleton l us).mem_iff.mpr hy
      refine (Parity.isRight_congr hfun (fun m hm => ?_) fun v hv => ?_).mpr hright
      · rcases List.mem_cons.mp hm with rfl | hm
        · exact List.mem_cons_self
        · exact List.mem_cons_of_mem _ (hsub m hm)
      · by_cases hvl : v = l.var
        · rw [hvl]
          exact List.mem_cons_self
        · exact List.mem_cons_of_mem _ (hrest v hv hvl)
    | custom c => exact Or.inl h

/-- What a constraint explains it forces, unless it is violated already. -/
theorem Explains.forces (h : k.Explains ts l) (hl : l.var ∉ ts.map Literal.var) :
    k.Forces ts l ∨ k.Violated ts := by
  cases k with
  | clause c =>
    obtain ⟨rfl, hrest⟩ := h
    refine Or.inl ⟨hl, List.mem_cons_self, fun m hm hne => ?_⟩
    rcases List.mem_cons.mp hm with rfl | hm
    · exact absurd rfl hne
    · exact hrest m hm
  | cardinality c =>
    rcases Nat.lt_or_eq_of_le h.2 with hlt | heq
    · exact Or.inr hlt
    · exact Or.inl ⟨hl, h.1, heq.symm⟩
  | parity c => exact Or.inl ⟨hl, h.1, h.2.1, h.2.2⟩
  | custom c => exact h.elim

end Kind

/-! ## Runs -/

namespace Arena

/-- Literals become true one after the other, each forced by some constraint. -/
inductive Deduces (s : Arena κ) (ts : List Literal) : List Literal → Prop
  | refl : s.Deduces ts ts
  | step {us : List Literal} {r : Reference} {c : Constraint κ} {l : Literal}
    (run : s.Deduces ts us) (alive : s.get? r = some c) (forces : c.kind.Forces us l) :
    s.Deduces ts (us ++ [l])

/-- Nothing is forced any more. -/
def Exhausted (s : Arena κ) (us : List Literal) : Prop :=
  ∀ r c l, s.get? r = some c → ¬ c.kind.Forces us l

/-- Some constraint is violated. -/
def Clashes (s : Arena κ) (us : List Literal) : Prop :=
  ∃ r c, s.get? r = some c ∧ c.kind.Violated us

/-- Naive propagation from `ts` ends with `us`: everything that was forced became true. -/
def Completes (s : Arena κ) (ts us : List Literal) : Prop := s.Deduces ts us ∧ s.Exhausted us

theorem Clashes.mono {s : Arena κ} {ts us : List Literal} (h : s.Clashes ts)
    (hus : Functional us) (hsub : ∀ l ∈ ts, l ∈ us) : s.Clashes us := by
  obtain ⟨r, c, hc, hv⟩ := h
  exact ⟨r, c, hc, hv.mono hus hsub⟩

/-- Constraints that differ in the order of their literals only clash alike. -/
theorem Agree.clashes_iff {s s' : Arena κ} (h : s.Agree s') {ts : List Literal} :
    s'.Clashes ts ↔ s.Clashes ts := by
  constructor
  · rintro ⟨r, c', hc', hv⟩
    obtain ⟨c, hc, hk, -⟩ := h.of_alive hc'
    exact ⟨r, c, hc, hv.similar hk.symm⟩
  · rintro ⟨r, c, hc, hv⟩
    obtain ⟨c', hc', hk, -⟩ := h.alive hc
    exact ⟨r, c', hc', hv.similar hk⟩

theorem Agree.exhausted {s s' : Arena κ} (h : s.Agree s') {ts : List Literal}
    (he : s'.Exhausted ts) : s.Exhausted ts := by
  intro r c l hc hf
  obtain ⟨c', hc', hk, -⟩ := h.alive hc
  exact he r c' l hc' (hf.similar hk)

namespace Deduces

variable {s : Arena κ} {ts us vs : List Literal} {size : Nat}

theorem subset (h : s.Deduces ts us) : ∀ l ∈ ts, l ∈ us := by
  induction h with
  | refl => exact fun l hl => hl
  | step _ _ _ ih => exact fun l hl => List.mem_append_left _ (ih l hl)

theorem functional (h : s.Deduces ts us) (hts : Functional ts) : Functional us := by
  induction h with
  | refl => exact hts
  | step _ _ hf ih => exact ih.concat hf.unassigned

/-- A run never leaves a list under which nothing is forced and nothing violated. -/
theorem subset_of_exhausted (h : s.Deduces ts us)
    (hw : ∀ r c, s.get? r = some c → c.kind.WellFormed size) (hvs : Functional vs)
    (hsub : ∀ l ∈ ts, l ∈ vs) (hex : s.Exhausted vs) (hno : ¬ s.Clashes vs) :
    ∀ l ∈ us, l ∈ vs := by
  induction h with
  | refl => exact hsub
  | @step us r c l _ hc hf ih =>
    intro m hm
    rcases List.mem_append.mp hm with hm | hm
    · exact ih m hm
    · rw [List.mem_singleton.mp hm]
      rcases hf.persists (hw r c hc) hvs ih with hl | hv | hf'
      · exact hl
      · exact absurd ⟨r, c, hc, hv⟩ hno
      · exact absurd hf' (hex r c l hc)

theorem nodup_var (h : s.Deduces ts us) (hts : (ts.map Literal.var).Nodup) :
    (us.map Literal.var).Nodup := by
  induction h with
  | refl => exact hts
  | step _ _ hf ih =>
    rw [List.map_append, List.map_singleton, List.nodup_append]
    refine ⟨ih, List.pairwise_singleton _ _, fun v hv w hw => ?_⟩
    rw [List.mem_singleton.mp hw]
    rintro rfl
    exact hf.unassigned hv

theorem var_lt (h : s.Deduces ts us) (hw : ∀ r c, s.get? r = some c → c.kind.WellFormed size)
    (hts : ∀ l ∈ ts, l.var < size) : ∀ l ∈ us, l.var < size := by
  induction h with
  | refl => exact hts
  | step _ hc hf ih =>
    intro m hm
    rcases List.mem_append.mp hm with hm | hm
    · exact ih m hm
    · rw [List.mem_singleton.mp hm]
      exact (hf.known (hw _ _ hc)).2

/-- No run makes more literals true than there are variables. -/
theorem length_le (h : s.Deduces ts us) (hw : ∀ r c, s.get? r = some c → c.kind.WellFormed size)
    (hnodup : (ts.map Literal.var).Nodup) (hts : ∀ l ∈ ts, l.var < size) : us.length ≤ size := by
  have hsub : us.map Literal.var ⊆ List.range size := by
    intro v hv
    obtain ⟨l, hl, rfl⟩ := List.mem_map.mp hv
    exact List.mem_range.mpr (h.var_lt hw hts l hl)
  have hle := (List.Nodup.subperm (h.nodup_var hnodup) hsub).length_le
  rwa [List.length_map, List.length_range] at hle

end Deduces

/-- The order in which literals are made true does not matter. -/
theorem Completes.confluent {s : Arena κ} {ts us vs : List Literal} {size : Nat}
    (hu : s.Completes ts us) (hv : s.Completes ts vs)
    (hw : ∀ r c, s.get? r = some c → c.kind.WellFormed size) (hts : Functional ts)
    (hno : ¬ s.Clashes us) : ¬ s.Clashes vs ∧ ∀ l, l ∈ us ↔ l ∈ vs := by
  have hfu := hu.1.functional hts
  have hfv := hv.1.functional hts
  have hsub := hv.1.subset_of_exhausted hw hfu hu.1.subset hu.2 hno
  have hno' : ¬ s.Clashes vs := fun hc => hno (hc.mono hfu hsub)
  have hsub' := hu.1.subset_of_exhausted hw hfv hv.1.subset hv.2 hno'
  exact ⟨hno', fun l => ⟨hsub' l, hsub l⟩⟩

/-- Naive propagation comes to an end. -/
theorem exists_completes {s : Arena κ} {ts us : List Literal} {size : Nat}
    (hw : ∀ r c, s.get? r = some c → c.kind.WellFormed size)
    (hnodup : (ts.map Literal.var).Nodup) (hts : ∀ l ∈ ts, l.var < size) (h : s.Deduces ts us) :
    ∃ vs, s.Completes ts vs := by
  by_cases hex : s.Exhausted us
  · exact ⟨us, h, hex⟩
  · simp only [Exhausted, not_forall, not_not] at hex
    obtain ⟨r, c, l, hc, hf⟩ := hex
    have hlen := (h.step hc hf).length_le hw hnodup hts
    exact exists_completes hw hnodup hts (h.step hc hf)
termination_by size - us.length
decreasing_by
  rw [List.length_append, List.length_singleton] at hlen ⊢
  omega

/-- Literals that constraints explain one after the other are a run, or a constraint is violated on
the way. -/
theorem deduces_of_explained {s : Arena κ} {us : List Literal} {m : Nat} (hm : m ≤ us.length)
    (hnew : ∀ {i l}, m ≤ i → us[i]? = some l → l.var ∉ (us.take i).map Literal.var ∧
      ∃ r c k, s.get? r = some c ∧ c.kind.Similar k ∧ k.Explains (us.take i) l) :
    s.Deduces (us.take m) us ∨ ∃ n, s.Deduces (us.take m) (us.take n) ∧ s.Clashes (us.take n) := by
  have hstep : ∀ d, m + d ≤ us.length → s.Deduces (us.take m) (us.take (m + d)) ∨
      ∃ n, s.Deduces (us.take m) (us.take n) ∧ s.Clashes (us.take n) := by
    intro d
    induction d with
    | zero => exact fun _ => Or.inl .refl
    | succ d ih =>
      intro hd
      rcases ih (by omega) with hrun | hclash
      · have hlt : m + d < us.length := by omega
        obtain ⟨hvar, r, c, k, hc, hsim, hexp⟩ :=
          hnew (Nat.le_add_right m d) (List.getElem?_eq_getElem hlt)
        rcases hexp.forces hvar with hf | hv
        · left
          rw [← Nat.add_assoc, List.take_add_one, List.getElem?_eq_getElem hlt]
          exact hrun.step hc (hf.similar hsim.symm)
        · exact Or.inr ⟨m + d, hrun, r, c, hc, hv.similar hsim.symm⟩
      · exact Or.inr hclash
  have hall := hstep (us.length - m) (by omega)
  rwa [Nat.add_sub_cancel' hm, List.take_length] at hall

end Arena

end ClauseLearning
