import ClauseLearning.Constraint.Basic
import ClauseLearning.Proofs.Trail

/-!
# What constraints say, and why literals follow from them

`Kind.Holds` is the meaning of an attached constraint. The search relies on it in two places. A
literal that a constraint forced is explained by false literals before it (`Kind.Explains`), and a
constraint in conflict is violated by the trail (`Kind.Violated`). Both are said of lists of true
literals, so they do not depend on how watches move.

* `Constraint.reason_of_explains`: what `reason` lists is false before the literal and implies it.
* `Constraint.reason_of_violated`: what `reason` lists of a conflict is false, against the
  constraint.
-/

namespace ClauseLearning

variable {κ : Type}

/-- A variable that the assignment has a cell for. -/
def Literal.Known (size : Nat) (l : Literal) : Prop := l.var ≠ 0 ∧ l.var < size

theorem Literal.Known.negate {size : Nat} {l : Literal} (h : l.Known size) : (-l).Known size := by
  simpa [Literal.Known] using h

theorem Literal.Known.mono {size size' : Nat} (hle : size ≤ size') {l : Literal}
    (h : l.Known size) : l.Known size' := ⟨h.1, Nat.lt_of_lt_of_le h.2 hle⟩

/-- How many of the literals are false. -/
def numFalse (trues ls : List Literal) : Nat := ls.countP fun l => decide (-l ∈ trues)

theorem numFalse_mono {ts us : List Literal} (h : ∀ l ∈ ts, l ∈ us) (ls : List Literal) :
    numFalse ts ls ≤ numFalse us ls := by
  apply List.countP_mono_left
  intro l _ hl
  simp only [decide_eq_true_eq] at hl ⊢
  exact h _ hl

namespace Parity

/-- The number of true variables is as the constraint says. -/
def IsRight (c : Parity) (trues : List Literal) : Prop :=
  (c.vars.countP (fun v => decide (Literal.make v true ∈ trues)) % 2 == 1) = c.odd

end Parity

namespace Kind

def Holds (ν : Valuation) : Kind κ → Prop
  | .clause c => ∃ l ∈ c.literals, l.holds ν = true
  | .cardinality c => c.degree ≤ ν.count c.literals
  | .parity c => (c.vars.countP ν % 2 == 1) = c.odd
  | .custom _ => True

/-- What attaching a constraint relies on. No constraint from outside is well formed. -/
def WellFormed (size : Nat) : Kind κ → Prop
  | .clause c => (c.literals.map Literal.var).Nodup ∧ ∀ l ∈ c.literals, l.Known size
  | .cardinality c => c.degree ≤ c.literals.length ∧ ∀ l ∈ c.literals, l.Known size
  | .parity c => c.vars.Nodup ∧ ∀ v ∈ c.vars, v ≠ 0 ∧ v < size
  | .custom _ => False

/-- The constraint forces `l` once the literals in `before` are true. -/
def Explains : Kind κ → List Literal → Literal → Prop
  | .clause c, before, l => c.first = l ∧ ∀ m ∈ c.second :: c.rest, -m ∈ before
  | .cardinality c, before, l => l ∈ c.literals ∧ c.slack ≤ numFalse before c.literals
  | .parity c, before, l =>
    l.var ∈ c.vars ∧ (∀ v ∈ c.vars, v ≠ l.var → v ∈ before.map Literal.var) ∧
      c.IsRight (l :: before)
  | .custom _, _, _ => False

/-- The constraint has no model in which the literals in `trues` are true. -/
def Violated : Kind κ → List Literal → Prop
  | .clause c, trues => ∀ l ∈ c.literals, -l ∈ trues
  | .cardinality c, trues => c.slack < numFalse trues c.literals
  | .parity c, trues => (∀ v ∈ c.vars, v ∈ trues.map Literal.var) ∧ ¬ c.IsRight trues
  | .custom _, _ => False

theorem WellFormed.mono {size size' : Nat} (hle : size ≤ size') {k : Kind κ}
    (h : k.WellFormed size) : k.WellFormed size' := by
  cases k with
  | clause c => exact ⟨h.1, fun l hl => (h.2 l hl).mono hle⟩
  | cardinality c => exact ⟨h.1, fun l hl => (h.2 l hl).mono hle⟩
  | parity c => exact ⟨h.1, fun v hv => ⟨(h.2 v hv).1, Nat.lt_of_lt_of_le (h.2 v hv).2 hle⟩⟩
  | custom c => exact h

end Kind

/-! ## Counting -/

theorem countP_add_countP_not {α : Type} (p : α → Bool) (xs : List α) :
    xs.countP p + xs.countP (fun x => !p x) = xs.length := by
  induction xs with
  | nil => rfl
  | cons x xs ih =>
    simp only [List.countP_cons, List.length_cons]
    cases p x with
    | false => simp only [Bool.false_eq_true, if_false, Bool.not_false, if_true]; omega
    | true => simp only [Bool.not_true, Bool.false_eq_true, if_false, if_true]; omega

/-- Literals that are false under a valuation cannot be among those that hold. -/
theorem Valuation.count_add_countP_le {ν : Valuation} {p : Literal → Bool} {ls : List Literal}
    (h : ∀ l ∈ ls, p l = true → l.holds ν = false) : ν.count ls + ls.countP p ≤ ls.length := by
  have hsum := countP_add_countP_not (fun l : Literal => l.holds ν) ls
  have hle : ls.countP p ≤ ls.countP (fun l => !l.holds ν) := by
    apply List.countP_mono_left
    intro l hl hp
    rw [h l hl hp]
    rfl
  simp only [Valuation.count] at hsum ⊢
  omega

/-- Changing the value of one variable changes the parity. -/
theorem countP_parity_ne {vs : List Nat} (hvs : vs.Nodup) {f g : Nat → Bool} {v : Nat} (hv : v ∈ vs)
    (hne : f v ≠ g v) (hrest : ∀ w ∈ vs, w ≠ v → f w = g w) :
    (vs.countP f % 2 == 1) = !(vs.countP g % 2 == 1) := by
  have hperm := List.perm_cons_erase hv
  have heq : (vs.erase v).countP f = (vs.erase v).countP g := by
    apply List.countP_congr
    intro w hw
    obtain ⟨hwv, hw⟩ := (List.Nodup.mem_erase_iff hvs).mp hw
    rw [hrest w hw hwv]
  rw [hperm.countP_eq f, hperm.countP_eq g, List.countP_cons, List.countP_cons, heq]
  cases hf : f v <;> cases hg : g v <;>
    simp_all only [ne_eq, not_true_eq_false, Bool.false_eq_true, if_false, if_true,
      not_false_eq_true, reduceCtorEq]
  · rcases Nat.mod_two_eq_zero_or_one ((vs.erase v).countP g) with h | h <;>
      simp [Nat.add_mod, h]
  · rcases Nat.mod_two_eq_zero_or_one ((vs.erase v).countP g) with h | h <;>
      simp [Nat.add_mod, h]

/-! ## Reasons -/

namespace Parity

/-- The values that the true literals give are those of every valuation under which they hold. -/
theorem mem_iff_of_holds {ν : Valuation} {trues : List Literal} {v : Nat}
    (hmem : v ∈ trues.map Literal.var) (hν : ∀ l ∈ trues, l.var = v → l.holds ν = true) :
    decide (Literal.make v true ∈ trues) = ν v := by
  obtain ⟨l, hl, hlv⟩ := List.mem_map.mp hmem
  have hholds := hν l hl hlv
  by_cases hm : Literal.make v true ∈ trues
  · have := hν _ hm (Literal.var_make v true)
    simp only [Literal.holds, Literal.var_make, Literal.isPositive_make, beq_iff_eq] at this
    simp [hm, this]
  · have hp : l.isPositive = false := by
      cases hp : l.isPositive with
      | false => rfl
      | true =>
        exfalso
        apply hm
        rw [← hlv, ← hp, Literal.make_var_isPositive]
        exact hl
    simp only [Literal.holds, hlv, hp, beq_iff_eq] at hholds
    simp [hm, hholds]

theorem mem_reason_iff {a : Assignment} (h : a.Consistent) (c : Parity) (p : Option Literal)
    (m : Literal) :
    m ∈ c.reason a p ↔ m.var ∈ c.vars ∧ -m ∈ a.trues ∧ ∀ q ∈ p, q.var ≠ m.var := by
  unfold reason
  rw [List.mem_filterMap]
  constructor
  · rintro ⟨v, hv, hm⟩
    split at hm
    · cases hm
    · rename_i hp
      obtain ⟨l, hl, rfl⟩ := Option.map_eq_some_iff.mp hm
      obtain ⟨hmem, rfl⟩ := h.satisfiedLiteral?_eq.mp hl
      rw [Literal.negate_negate, Literal.var_negate]
      refine ⟨hv, hmem, ?_⟩
      rintro q rfl
      simpa using hp
  · rintro ⟨hv, hm, hp⟩
    refine ⟨m.var, hv, ?_⟩
    have hany : ¬ (p.any fun q => q.var == m.var) = true := by
      cases p with
      | none => simp
      | some q => simpa using hp q rfl
    rw [if_neg hany, h.satisfiedLiteral?_eq.mpr ⟨hm, Literal.var_negate m⟩]
    simp

theorem mem_reason_some_iff {a : Assignment} (h : a.Consistent) (c : Parity) {i : Nat}
    {p : Literal}
    (hbefore : ∀ v ∈ c.vars, v ≠ p.var → v ∈ (a.trues.take i).map Literal.var) (m : Literal) :
    m ∈ c.reason a (some p) ↔ m.var ∈ c.vars ∧ m.var ≠ p.var ∧ -m ∈ a.trues.take i := by
  rw [c.mem_reason_iff h]
  constructor
  · rintro ⟨hv, hm, hp⟩
    have hne : m.var ≠ p.var := (hp p rfl).symm
    obtain ⟨x, hx, hxv⟩ := List.mem_map.mp (hbefore m.var hv hne)
    have : x = -m := h.eq_of_var (List.mem_of_mem_take hx) hm (by simpa using hxv)
    exact ⟨hv, hne, this ▸ hx⟩
  · rintro ⟨hv, hne, hm⟩
    refine ⟨hv, List.mem_of_mem_take hm, ?_⟩
    intro q hq
    cases hq
    exact hne.symm

/-- The parity leaves one value for a variable once the others have theirs. -/
theorem holds_of_isRight {c : Parity} (hvars : c.vars.Nodup) {l : Literal} (hl : l.var ∈ c.vars)
    {before : List Literal} (hne : ∀ x ∈ before, x.var ≠ l.var)
    (hbefore : ∀ v ∈ c.vars, v ≠ l.var → v ∈ before.map Literal.var)
    (hright : c.IsRight (l :: before)) {ν : Valuation} (hν : (c.vars.countP ν % 2 == 1) = c.odd)
    (hholds : ∀ x ∈ before, x.var ∈ c.vars → x.holds ν = true) : l.holds ν = true := by
  by_contra hlν
  have hagree : ∀ v ∈ c.vars, v ≠ l.var → decide (Literal.make v true ∈ l :: before) = ν v := by
    intro v hv hvl
    have hml : Literal.make v true ≠ l := by
      rintro rfl
      exact hvl (Literal.var_make v true).symm
    rw [← Parity.mem_iff_of_holds (hbefore v hv hvl) fun x hx hxv => hholds x hx (hxv ▸ hv)]
    simp [hml]
  have hdiff : decide (Literal.make l.var true ∈ l :: before) ≠ ν l.var := by
    have hmake : Literal.make l.var true ∉ before := fun hmem => hne _ hmem (Literal.var_make _ _)
    have hself : Literal.make l.var true = l ↔ l.isPositive = true := by
      constructor
      · intro heq
        rw [← heq, Literal.isPositive_make]
      · intro hp
        rw [← hp, Literal.make_var_isPositive]
    simp only [Literal.holds, beq_iff_eq] at hlν
    simp only [List.mem_cons, hmake, or_false, hself]
    intro heq
    apply hlν
    rw [← heq, Bool.decide_eq_true]
  have hflip := countP_parity_ne hvars hl hdiff hagree
  have hcount : c.vars.countP (fun v => ν v) = c.vars.countP ν := rfl
  rw [IsRight, hflip, hcount, hν] at hright
  cases hodd : c.odd <;> simp [hodd] at hright

end Parity

namespace Cardinality

theorem mem_reason_some_iff {a : Assignment} (h : a.Consistent) (c : Cardinality) {i : Nat}
    {p : Literal} (hi : a.trues[i]? = some p) (m : Literal) :
    m ∈ c.reason a (some p) ↔ m ∈ c.literals ∧ -m ∈ a.trues.take i := by
  simp only [reason, List.mem_filter, Bool.and_eq_true, decide_eq_true_eq, h.isFalsified_iff,
    h.position?_eq hi, Option.getD_some, and_congr_right_iff]
  intro _
  constructor
  · rintro ⟨hm, hlt⟩
    obtain ⟨j, hj⟩ := List.mem_iff_getElem?.mp hm
    have hpos := h.position?_eq hj
    rw [Literal.var_negate] at hpos
    rw [hpos, Option.getD_some] at hlt
    exact mem_take_iff.mpr ⟨j, hlt, hj⟩
  · intro hm
    obtain ⟨j, hlt, hj⟩ := mem_take_iff.mp hm
    have hpos := h.position?_eq hj
    rw [Literal.var_negate] at hpos
    rw [hpos, Option.getD_some]
    exact ⟨List.mem_of_getElem? hj, hlt⟩

theorem mem_reason_none_iff {a : Assignment} (h : a.Consistent) (c : Cardinality) (m : Literal) :
    m ∈ c.reason a none ↔ m ∈ c.literals ∧ -m ∈ a.trues := by
  simp [reason, h.isFalsified_iff]

/-- As many literals as may be false leave no choice for the others. -/
theorem holds_of_slack_le {c : Cardinality} {ν : Valuation} (hν : c.degree ≤ ν.count c.literals)
    {trues : List Literal} (hfalse : ∀ m ∈ c.literals, -m ∈ trues → m.holds ν = false)
    (hslack : c.slack ≤ numFalse trues c.literals) {l : Literal} (hl : l ∈ c.literals)
    (hn : -l ∉ trues) : l.holds ν = true := by
  by_contra hlν
  have hsum := countP_add_countP_not (fun m : Literal => m.holds ν) c.literals
  have hlt : numFalse trues c.literals < c.literals.countP (fun m => !m.holds ν) := by
    unfold numFalse
    have hsub : ∀ m ∈ c.literals, decide (-m ∈ trues) = true → (!m.holds ν) = true := by
      intro m hm hmt
      rw [hfalse m hm (of_decide_eq_true hmt)]
      rfl
    obtain ⟨front, back, hsplit⟩ := List.append_of_mem hl
    rw [hsplit] at hsub ⊢
    have hfront : front.countP (fun m => decide (-m ∈ trues)) ≤ front.countP
        (fun m => !m.holds ν) :=
      List.countP_mono_left fun m hm => hsub m (List.mem_append_left _ hm)
    have hback : back.countP (fun m => decide (-m ∈ trues)) ≤ back.countP (fun m => !m.holds ν) :=
      List.countP_mono_left fun m hm =>
        hsub m (List.mem_append_right _ (List.mem_cons_of_mem _ hm))
    have hlfalse : l.holds ν = false := by simpa using hlν
    simp only [List.countP_append, List.countP_cons, hn, hlfalse, decide_false, Bool.false_eq_true,
      if_false, Bool.not_false, if_true]
    omega
  have hlen : 0 < c.literals.length := List.length_pos_of_mem hl
  simp only [Valuation.count, slack] at hν hslack hsum
  omega

end Cardinality

namespace Constraint

variable [CustomConstraint κ]

/-- The literals that explain `l` were false before it, and together they imply it. -/
theorem reason_of_explains {a : Assignment} (h : a.Consistent) {c : Constraint κ} {i size : Nat}
    {l : Literal} (hwf : c.kind.WellFormed size) (hi : a.trues[i]? = some l)
    (he : c.kind.Explains (a.trues.take i) l) :
    (∀ m ∈ c.reason a (some l), -m ∈ a.trues.take i) ∧
      ∀ ν, c.kind.Holds ν → (∀ m ∈ c.reason a (some l), m.holds ν = false) → l.holds ν = true := by
  obtain ⟨k, metadata⟩ := c
  cases k with
  | clause k =>
    obtain ⟨hfirst, hrest⟩ := he
    refine ⟨hrest, ?_⟩
    rintro ν ⟨m, hm, hmν⟩ hfalse
    rcases List.mem_cons.mp hm with rfl | hm
    · rwa [← hfirst]
    · rw [hfalse m hm] at hmν
      cases hmν
  | cardinality k =>
    obtain ⟨hl, hslack⟩ := he
    refine ⟨fun m hm => ((k.mem_reason_some_iff h hi m).mp hm).2, ?_⟩
    intro ν hν hfalse
    refine k.holds_of_slack_le hν (fun m hm hmt => hfalse m ?_) hslack hl ?_
    · exact (k.mem_reason_some_iff h hi m).mpr ⟨hm, hmt⟩
    · intro hmem
      exact h.not_mem_of_negate_mem (List.mem_of_mem_take hmem) (List.mem_of_getElem? hi)
  | parity k =>
    obtain ⟨hl, hbefore, hright⟩ := he
    have hreason := k.mem_reason_some_iff h hbefore
    refine ⟨fun m hm => ((hreason m).mp hm).2.2, ?_⟩
    intro ν hν hfalse
    refine k.holds_of_isRight hwf.1 hl (fun x hx => h.var_ne_of_mem_take hi hx) hbefore hright hν
      (fun x hx hxv => ?_)
    have := hfalse (-x) ((hreason (-x)).mpr
      ⟨by simpa using hxv, by simpa using h.var_ne_of_mem_take hi hx, by simpa using hx⟩)
    simpa using this
  | custom k => exact he.elim

/-- The literals of a conflict are false, and no valuation under which they are satisfies the
constraint. -/
theorem reason_of_violated {a : Assignment} (h : a.Consistent) {c : Constraint κ}
    (hv : c.kind.Violated a.trues) :
    (∀ m ∈ c.reason a none, -m ∈ a.trues) ∧
      ∀ ν, c.kind.Holds ν → ∃ m ∈ c.reason a none, m.holds ν = true := by
  obtain ⟨k, metadata⟩ := c
  cases k with
  | clause k => exact ⟨hv, fun ν hν => hν⟩
  | cardinality k =>
    refine ⟨fun m hm => ((k.mem_reason_none_iff h m).mp hm).2, ?_⟩
    intro ν hν
    by_contra hnone
    have hle := Valuation.count_add_countP_le (ν := ν)
      (p := fun m => decide (-m ∈ a.trues)) fun m hm hmt => by
        by_contra hmν
        exact hnone ⟨m, (k.mem_reason_none_iff h m).mpr ⟨hm, of_decide_eq_true hmt⟩,
          by simpa using hmν⟩
    simp only [Kind.Violated, numFalse, Cardinality.slack] at hv
    simp only [Kind.Holds] at hν
    omega
  | parity k =>
    obtain ⟨hall, hright⟩ := hv
    refine ⟨fun m hm => ((k.mem_reason_iff h none m).mp hm).2.1, ?_⟩
    intro ν hν
    by_contra hnone
    apply hright
    have hcount : k.vars.countP (fun v => decide (Literal.make v true ∈ a.trues)) =
        k.vars.countP ν := by
      apply List.countP_congr
      intro v hv
      rw [Parity.mem_iff_of_holds (hall v hv)]
      intro x hx hxv
      by_contra hxν
      refine hnone ⟨-x, (k.mem_reason_iff h none (-x)).mpr ⟨?_, ?_, ?_⟩, by simpa using hxν⟩
      · rwa [Literal.var_negate, hxv]
      · rwa [Literal.negate_negate]
      · intro q hq
        cases hq
    rw [Parity.IsRight, hcount]
    exact hν
  | custom k => exact hv.elim

end Constraint

end ClauseLearning
