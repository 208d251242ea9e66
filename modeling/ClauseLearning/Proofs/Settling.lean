import ClauseLearning.Proofs.Explanation

/-!
# Constraints that have seen the trail

A visit may reorder the literals of a constraint and count a report, but the constraint stays the
same one (`Kind.Similar`). A constraint that was notified of everything in a part of the trail is
settled on it (`Kind.Settled`): no watch of a clause is false there unless the clause is true, a
cardinality constraint counted every false literal, and a parity constraint with an assigned watch
is decided.

* `Settled.holds`: when every variable has a value, a settled constraint is satisfied.
* `Constraint.holds_of_isSatisfied`: so is a constraint that says it is.
-/

namespace ClauseLearning

variable {κ : Type}

/-- No two of the literals are about one variable. -/
def Functional (trues : List Literal) : Prop := ∀ l ∈ trues, ∀ m ∈ trues, l.var = m.var → l = m

theorem Assignment.Consistent.functional {a : Assignment} (h : a.Consistent) : Functional a.trues :=
  fun _ hl _ hm hv => h.eq_of_var hl hm hv

theorem Functional.cons {ts : List Literal} (h : Functional ts) {l : Literal}
    (hl : l.var ∉ ts.map Literal.var) : Functional (l :: ts) := by
  intro x hx y hy hxy
  rcases List.mem_cons.mp hx with hxl | hxt
  · rcases List.mem_cons.mp hy with hyl | hyt
    · exact hxl.trans hyl.symm
    · exact absurd (List.mem_map.mpr ⟨y, hyt, hxl ▸ hxy.symm⟩) hl
  · rcases List.mem_cons.mp hy with hyl | hyt
    · exact absurd (List.mem_map.mpr ⟨x, hxt, hyl ▸ hxy⟩) hl
    · exact h x hxt y hyt hxy

theorem Functional.not_mem_negate {ts : List Literal} (h : Functional ts) {l : Literal}
    (hl : l ∈ ts) : -l ∉ ts := fun hn =>
  Literal.negate_ne l (h _ hn _ hl (Literal.var_negate l))

namespace Parity

theorem mem_make_congr {ts us : List Literal} (hus : Functional us) (hsub : ∀ l ∈ ts, l ∈ us)
    {v : Nat} (hv : v ∈ ts.map Literal.var) :
    Literal.make v true ∈ us ↔ Literal.make v true ∈ ts := by
  constructor
  · intro hm
    obtain ⟨l, hl, rfl⟩ := List.mem_map.mp hv
    have := hus _ hm _ (hsub l hl) (Literal.var_make _ _)
    rwa [this]
  · exact fun hm => hsub _ hm

/-- More true literals do not matter once every variable of the constraint has a value. -/
theorem isRight_congr {c : Parity} {ts us : List Literal} (hus : Functional us)
    (hsub : ∀ l ∈ ts, l ∈ us) (hall : ∀ v ∈ c.vars, v ∈ ts.map Literal.var) :
    c.IsRight us ↔ c.IsRight ts := by
  have hcount : c.vars.countP (fun v => decide (Literal.make v true ∈ us)) =
      c.vars.countP (fun v => decide (Literal.make v true ∈ ts)) := by
    apply List.countP_congr
    intro v hv
    simp only [decide_eq_true_eq]
    exact mem_make_congr hus hsub (hall v hv)
  rw [IsRight, IsRight, hcount]

theorem countP_eq_of_holds {c : Parity} {ts : List Literal} {ν : Valuation}
    (hν : ∀ l ∈ ts, l.holds ν = true) (hall : ∀ v ∈ c.vars, v ∈ ts.map Literal.var) :
    c.vars.countP (fun v => decide (Literal.make v true ∈ ts)) = c.vars.countP ν := by
  apply List.countP_congr
  intro v hv
  rw [mem_iff_of_holds (hall v hv) fun l hl _ => hν l hl]

end Parity

namespace Kind

/-! ## What a constraint asks of the board -/

/-- The literals that the constraint waits for, each as often as it has a watcher there. -/
def watched : Kind κ → List Literal
  | .clause c => [-c.first, -c.second]
  | .cardinality c => c.literals.map (-·)
  | .parity c => [Literal.make c.first true, -Literal.make c.first true,
      Literal.make c.second true, -Literal.make c.second true]
  | .custom _ => []

/-- How often the constraint counts that `l` became false. -/
def reports (l : Literal) : Kind κ → Nat
  | .cardinality c => c.literals.count l
  | _ => 0

/-- How many reports the constraint counted. -/
def falsified : Kind κ → Nat
  | .cardinality c => c.falsified
  | _ => 0

/-- A true literal with which the constraint need not be visited. -/
def Blocks (l : Literal) : Kind κ → Prop
  | .clause c => l ∈ c.literals
  | _ => False

/-- No more reports were counted than there may be. -/
def Within : Kind κ → Prop
  | .cardinality c => c.falsified ≤ c.slack
  | _ => True

/-- The constraint is true as far as its watches tell: it was notified of all that is in `seen`,
where `told` says how often it counted a report of a variable. -/
def Settled (trues seen : List Literal) (told : Nat → Nat) : Kind κ → Prop
  | .clause c => ∀ w ∈ [c.first, c.second], -w ∈ seen → ∃ l ∈ c.literals, l ∈ trues
  | .cardinality c =>
    (∀ x ∈ seen, told x.var = c.literals.count (-x)) ∧ numFalse seen c.literals ≤ c.slack
  | .parity c => ∀ w ∈ [c.first, c.second], w ∈ seen.map Literal.var →
      (∀ v ∈ c.vars, v ∈ trues.map Literal.var) ∧ c.IsRight trues
  | .custom _ => True

/-! ## The same constraint -/

/-- The same constraint up to the order of its literals and the reports it counted. -/
def Similar : Kind κ → Kind κ → Prop
  | .clause c, .clause d => c.literals.Perm d.literals
  | .cardinality c, .cardinality d => c.literals = d.literals ∧ c.degree = d.degree
  | .parity c, .parity d => c.vars.Perm d.vars ∧ c.odd = d.odd
  | .custom c, .custom d => c = d
  | _, _ => False

namespace Similar

theorem refl (k : Kind κ) : k.Similar k := by
  cases k with
  | clause c => exact List.Perm.refl _
  | cardinality c => exact ⟨rfl, rfl⟩
  | parity c => exact ⟨List.Perm.refl _, rfl⟩
  | custom c => exact rfl

theorem trans {k₁ k₂ k₃ : Kind κ} (h : k₁.Similar k₂) (h' : k₂.Similar k₃) : k₁.Similar k₃ := by
  cases k₁ with
  | clause c =>
    cases k₂ with
    | clause d =>
      cases k₃ with
      | clause e => exact List.Perm.trans h h'
      | _ => exact h'.elim
    | _ => exact h.elim
  | cardinality c =>
    cases k₂ with
    | cardinality d =>
      cases k₃ with
      | cardinality e => exact ⟨h.1.trans h'.1, h.2.trans h'.2⟩
      | _ => exact h'.elim
    | _ => exact h.elim
  | parity c =>
    cases k₂ with
    | parity d =>
      cases k₃ with
      | parity e => exact ⟨h.1.trans h'.1, h.2.trans h'.2⟩
      | _ => exact h'.elim
    | _ => exact h.elim
  | custom c =>
    cases k₂ with
    | custom d =>
      cases k₃ with
      | custom e => exact Eq.trans h h'
      | _ => exact h'.elim
    | _ => exact h.elim

theorem symm {k k' : Kind κ} (h : k.Similar k') : k'.Similar k := by
  cases k <;> cases k'
  case clause.clause => exact List.Perm.symm h
  case cardinality.cardinality => exact ⟨h.1.symm, h.2.symm⟩
  case parity.parity => exact ⟨h.1.symm, h.2.symm⟩
  case custom.custom => exact Eq.symm h
  all_goals exact h.elim

variable {k k' : Kind κ} (h : k.Similar k')
include h

theorem holds_iff (ν : Valuation) : k'.Holds ν ↔ k.Holds ν := by
  cases k <;> cases k'
  case clause.clause c d =>
    simp only [Holds]
    constructor
    · rintro ⟨l, hl, hν⟩
      exact ⟨l, (List.Perm.mem_iff h).mpr hl, hν⟩
    · rintro ⟨l, hl, hν⟩
      exact ⟨l, (List.Perm.mem_iff h).mp hl, hν⟩
  case cardinality.cardinality c d => simp only [Holds, h.1, h.2]
  case parity.parity c d => simp only [Holds, h.1.countP_eq, h.2]
  case custom.custom c d => exact Iff.rfl
  all_goals exact h.elim

theorem wellFormed {size : Nat} (hw : k.WellFormed size) : k'.WellFormed size := by
  cases k <;> cases k'
  case clause.clause c d =>
    refine ⟨((List.Perm.map _ h).nodup_iff).mp hw.1, fun l hl => hw.2 l ?_⟩
    exact (List.Perm.mem_iff h).mpr hl
  case cardinality.cardinality c d =>
    obtain ⟨hlits, hdegree⟩ := h
    refine ⟨hdegree ▸ hlits ▸ hw.1, fun l hl => hw.2 l (hlits ▸ hl)⟩
  case parity.parity c d =>
    refine ⟨h.1.nodup_iff.mp hw.1, fun v hv => hw.2 v (h.1.mem_iff.mpr hv)⟩
  case custom.custom c d => exact hw.elim
  all_goals exact h.elim

theorem reports_eq (l : Literal) : k'.reports l = k.reports l := by
  cases k <;> cases k'
  case cardinality.cardinality c d => simp only [reports, h.1]
  case clause.clause c d => rfl
  case parity.parity c d => rfl
  case custom.custom c d => rfl
  all_goals exact h.elim

theorem blocks {l : Literal} (hb : k.Blocks l) : k'.Blocks l := by
  cases k <;> cases k'
  case clause.clause c d => exact (List.Perm.mem_iff h).mp hb
  all_goals first | exact hb.elim | exact h.elim

end Similar

/-! ## Settled constraints -/

namespace Settled

variable {k : Kind κ} {trues seen : List Literal} {told : Nat → Nat}

theorem mono (h : k.Settled trues seen told) {us : List Literal} (hus : Functional us)
    (hsub : ∀ l ∈ trues, l ∈ us) : k.Settled us seen told := by
  cases k with
  | clause c =>
    intro w hw hs
    obtain ⟨l, hl, hlt⟩ := h w hw hs
    exact ⟨l, hl, hsub l hlt⟩
  | cardinality c => exact h
  | parity c =>
    intro w hw hs
    obtain ⟨hall, hright⟩ := h w hw hs
    refine ⟨fun v hv => ?_, (Parity.isRight_congr hus hsub hall).mpr hright⟩
    obtain ⟨l, hl, hlv⟩ := List.mem_map.mp (hall v hv)
    exact List.mem_map.mpr ⟨l, hsub l hl, hlv⟩
  | custom c => trivial

theorem congr_told (h : k.Settled trues seen told) {told' : Nat → Nat}
    (ht : ∀ x ∈ seen, told' x.var = told x.var) : k.Settled trues seen told' := by
  cases k with
  | cardinality c => exact ⟨fun x hx => (ht x hx).trans (h.1 x hx), h.2⟩
  | clause c => exact h
  | parity c => exact h
  | custom c => exact h

/-- A constraint that does not wait for a literal need not be notified of it. -/
theorem concat (h : k.Settled trues seen told) {p : Literal} (hp : p ∉ k.watched)
    (hnot : p ∉ seen) (ht : told p.var = 0) : k.Settled trues (seen ++ [p]) told := by
  cases k with
  | clause c =>
    intro w hw hs
    rcases List.mem_append.mp hs with hs | hs
    · exact h w hw hs
    · exfalso
      apply hp
      rw [← List.mem_singleton.mp hs]
      simpa [watched] using List.mem_map.mpr ⟨w, hw, rfl⟩
  | cardinality c =>
    have hcount : c.literals.count (-p) = 0 := by
      rw [List.count_eq_zero]
      intro hmem
      apply hp
      rw [← Literal.negate_negate p]
      exact List.mem_map.mpr ⟨-p, hmem, rfl⟩
    refine ⟨?_, ?_⟩
    · intro x hx
      rcases List.mem_append.mp hx with hx | hx
      · exact h.1 x hx
      · rw [List.mem_singleton.mp hx, ht, hcount]
    · have heq : numFalse (seen ++ [p]) c.literals = numFalse seen c.literals := by
        apply List.countP_congr
        intro l hl
        have hne : -l ≠ p := by
          rintro rfl
          exact hp (List.mem_map.mpr ⟨l, hl, rfl⟩)
        simp [hne]
      rw [heq]
      exact h.2
  | parity c =>
    intro w hw hs
    rw [List.map_append] at hs
    rcases List.mem_append.mp hs with hs | hs
    · exact h w hw hs
    · exfalso
      apply hp
      have hv : w = p.var := by simpa using hs
      have hmake : p = Literal.make w true ∨ p = -Literal.make w true := by
        cases hpos : p.isPositive with
        | true =>
          left
          rw [hv, ← hpos, Literal.make_var_isPositive]
        | false =>
          right
          apply Literal.ext_var
          · rw [Literal.var_negate, Literal.var_make, hv]
          · rw [Literal.isPositive_negate, Literal.isPositive_make, hpos]
            rfl
      simp only [List.mem_cons, List.not_mem_nil, or_false] at hw
      simp only [watched, List.mem_cons, List.not_mem_nil, or_false]
      rcases hw with rfl | rfl
      · rcases hmake with hm | hm
        · exact Or.inl hm
        · exact Or.inr (Or.inl hm)
      · rcases hmake with hm | hm
        · exact Or.inr (Or.inr (Or.inl hm))
        · exact Or.inr (Or.inr (Or.inr hm))
  | custom c => trivial

/-- When every variable has a value and was seen to, the constraint is satisfied. -/
theorem holds (h : k.Settled trues trues told) {size : Nat} (hw : k.WellFormed size)
    (hall : ∀ v, v ≠ 0 → v < size → v ∈ trues.map Literal.var)
    {ν : Valuation} (hν : ∀ l ∈ trues, l.holds ν = true) : k.Holds ν := by
  have hvalue : ∀ l : Literal, l.Known size → l ∈ trues ∨ -l ∈ trues := fun l hl =>
    Literal.mem_or_negate_mem (hall l.var hl.1 hl.2)
  cases k with
  | clause c =>
    have hfirst : c.first ∈ c.literals := List.mem_cons_self
    rcases hvalue c.first (hw.2 _ hfirst) with hl | hl
    · exact ⟨c.first, hfirst, hν _ hl⟩
    · obtain ⟨l, hl, hlt⟩ := h c.first List.mem_cons_self hl
      exact ⟨l, hl, hν l hlt⟩
  | cardinality c =>
    have hsum := countP_add_countP_not (fun l : Literal => l.holds ν) c.literals
    have hfalse : c.literals.countP (fun l => !l.holds ν) ≤ numFalse trues c.literals := by
      apply List.countP_mono_left
      intro l hl hlν
      rcases hvalue l (hw.2 l hl) with hm | hm
      · rw [hν l hm] at hlν
        cases hlν
      · simpa using hm
    have hslack := h.2
    have hdegree := hw.1
    simp only [Holds, Valuation.count, Cardinality.slack] at hsum hslack ⊢
    omega
  | parity c =>
    have hfirst : c.first ∈ c.vars := List.mem_cons_self
    have hassigned := hall c.first (hw.2 _ hfirst).1 (hw.2 _ hfirst).2
    obtain ⟨hvars, hright⟩ := h c.first List.mem_cons_self hassigned
    rw [Parity.IsRight, Parity.countP_eq_of_holds hν hvars] at hright
    exact hright
  | custom c => trivial

end Settled

end Kind

/-! ## Constraints that nothing was decided of -/

namespace Kind

/-- None of the variables has a value. -/
def Fresh (trues : List Literal) : Kind κ → Prop
  | .clause c => ∀ l ∈ c.literals, l.var ∉ trues.map Literal.var
  | .cardinality c => ∀ l ∈ c.literals, l.var ∉ trues.map Literal.var
  | .parity c => ∀ v ∈ c.vars, v ∉ trues.map Literal.var
  | .custom _ => False

theorem Fresh.subset {k : Kind κ} {ts us : List Literal} (h : k.Fresh us)
    (hsub : ∀ l ∈ ts, l ∈ us) : k.Fresh ts := by
  have hvar : ∀ v, v ∉ us.map Literal.var → v ∉ ts.map Literal.var := by
    intro v hv hmem
    obtain ⟨l, hl, hlv⟩ := List.mem_map.mp hmem
    exact hv (List.mem_map.mpr ⟨l, hsub l hl, hlv⟩)
  cases k with
  | clause c => exact fun l hl => hvar _ (h l hl)
  | cardinality c => exact fun l hl => hvar _ (h l hl)
  | parity c => exact fun v hv => hvar _ (h v hv)
  | custom c => exact h.elim

/-- A constraint that nothing was decided of is settled on whatever there is. -/
theorem settled_of_fresh {k : Kind κ} {trues seen : List Literal} {told : Nat → Nat}
    (h : k.Fresh seen) (ht : ∀ x ∈ seen, told x.var = 0) : k.Settled trues seen told := by
  cases k with
  | clause c =>
    intro w hw hs
    have hmem : w ∈ c.literals := by
      rcases List.mem_pair.mp hw with rfl | rfl
      · exact List.mem_cons_self
      · exact List.mem_cons_of_mem _ List.mem_cons_self
    exact absurd (List.mem_map.mpr ⟨-w, hs, Literal.var_negate w⟩) (h w hmem)
  | cardinality c =>
    have hnot : ∀ l ∈ c.literals, -l ∉ seen := fun l hl hs =>
      h l hl (List.mem_map.mpr ⟨-l, hs, Literal.var_negate l⟩)
    refine ⟨fun x hx => ?_, ?_⟩
    · rw [ht x hx, eq_comm, List.count_eq_zero]
      intro hmem
      exact h (-x) hmem (List.mem_map.mpr ⟨x, hx, (Literal.var_negate x).symm⟩)
    · have hzero : numFalse seen c.literals = 0 :=
        List.countP_eq_zero.mpr fun l hl => by simpa using hnot l hl
      rw [hzero]
      exact Nat.zero_le _
  | parity c =>
    intro w hw hs
    have hmem : w ∈ c.vars := by
      rcases List.mem_pair.mp hw with rfl | rfl
      · exact List.mem_cons_self
      · exact List.mem_cons_of_mem _ List.mem_cons_self
    exact absurd hs (h w hmem)
  | custom c => exact h.elim

end Kind

/-! ## Constraints that are satisfied for good -/

theorem Constraint.holds_of_isSatisfied [CustomConstraint κ] {a : Assignment} (h : a.Consistent)
    {c : Constraint κ} {size : Nat} (hw : c.kind.WellFormed size) (hs : c.isSatisfied a = true)
    {ν : Valuation} (hν : ∀ l ∈ a.trues, l.holds ν = true) : c.kind.Holds ν := by
  obtain ⟨k, metadata⟩ := c
  cases k with
  | clause k =>
    obtain ⟨l, hl, hsat⟩ := List.any_eq_true.mp hs
    exact ⟨l, hl, hν l ((h.isSatisfied_iff l).mp hsat)⟩
  | cardinality k =>
    have hle : k.degree ≤ k.literals.countP a.isSatisfied := of_decide_eq_true hs
    refine Nat.le_trans hle (List.countP_mono_left fun l _ hsat => ?_)
    exact hν l ((h.isSatisfied_iff l).mp hsat)
  | parity k =>
    simp only [isSatisfied, Parity.isSatisfied, Bool.and_eq_true, List.all_eq_true,
      beq_iff_eq] at hs
    obtain ⟨hall, hright⟩ := hs
    have hvars : ∀ v ∈ k.vars, v ∈ a.trues.map Literal.var := fun v hv =>
      (h.isAssigned_iff v).mp (hall v hv)
    have hcount : k.vars.countP (fun v => a.isSatisfied (Literal.make v true)) =
        k.vars.countP ν := by
      rw [← Parity.countP_eq_of_holds hν hvars]
      apply List.countP_congr
      intro v _
      rw [h.isSatisfied_iff, decide_eq_true_eq]
    rw [hcount] at hright
    exact hright
  | custom k => exact hw.elim

end ClauseLearning
