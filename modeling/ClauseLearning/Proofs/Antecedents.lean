import ClauseLearning.Proofs.Shrinking
import Mathlib.Logic.Relation

/-!
# What a value rests on

The reason of a value names others that were there before. Those above the root are its antecedents
(`Arena.Antecedent`), and walks along reasons are walks along antecedents: they go down the trail,
so they end, at a decision or where nothing is left but root facts.

* `Justifies.of_antecedent`: an antecedent is further down the trail.
* `Arena.reaches_iff`: what a walk reaches is where it starts, or is one step from what it reaches.
-/

namespace ClauseLearning

variable {κ : Type} [CustomConstraint κ] {s : Arena κ} {a : Assignment}

namespace Arena

/-- The value of `w` is named in the reason of the value of `v`, and is no root fact. -/
def Antecedent (s : Arena κ) (a : Assignment) (v w : Nat) : Prop :=
  a.levelOf w ≠ 0 ∧ ∃ reason, s.reasonOf a v = .ok (some reason) ∧ ∃ m ∈ reason, m.var = w

/-- The value of `w` is found from that of `v` by following reasons back, above the root. -/
def Reaches (s : Arena κ) (a : Assignment) : Nat → Nat → Prop :=
  Relation.ReflTransGen (s.Antecedent a)

theorem Antecedent.of_reason {v w : Nat} {reason : List Literal}
    (h : s.reasonOf a v = .ok (some reason)) :
    s.Antecedent a v w ↔ a.levelOf w ≠ 0 ∧ ∃ m ∈ reason, m.var = w := by
  constructor
  · rintro ⟨hlevel, found, hfound, hm⟩
    rw [h] at hfound
    cases hfound
    exact ⟨hlevel, hm⟩
  · exact fun ⟨hlevel, hm⟩ => ⟨hlevel, reason, h, hm⟩

theorem Antecedent.not_of_none {v w : Nat} (h : s.reasonOf a v = .ok none) :
    ¬ s.Antecedent a v w := by
  rintro ⟨-, reason, hreason, -⟩
  rw [h] at hreason
  cases hreason

theorem reaches_iff {v w : Nat} :
    s.Reaches a v w ↔ w = v ∨ ∃ u, s.Reaches a v u ∧ s.Antecedent a u w := by
  constructor
  · intro h
    rcases h.cases_tail with rfl | ⟨u, hu, hstep⟩
    · exact Or.inl rfl
    · exact Or.inr ⟨u, hu, hstep⟩
  · rintro (rfl | ⟨u, hu, hstep⟩)
    · exact .refl
    · exact hu.tail hstep

theorem reason?_ne_none {v : Nat} {reason : List Literal}
    (h : s.reasonOf a v = .ok (some reason)) : a.reason? v ≠ none := by
  intro hr
  simp only [reasonOf, hr] at h
  cases h

/-- A variable whose reason can be looked up is assigned. -/
theorem Justifies.mem_of_reasonOf (h : s.Justifies a) {v : Nat} {reason : List Literal}
    (hrun : s.reasonOf a v = .ok (some reason)) :
    ∃ (i : Nat) (l : Literal), a.trues[i]? = some l ∧ l.var = v := by
  unfold reasonOf at hrun
  split at hrun
  · rename_i r p hr hp
    obtain ⟨hmem, hv⟩ := h.consistent.satisfiedLiteral?_eq.mp hp
    obtain ⟨i, hi⟩ := List.mem_iff_getElem?.mp hmem
    exact ⟨i, p, hi, hv⟩
  · cases hrun

/-- An antecedent is further down the trail. -/
theorem Justifies.of_antecedent (h : s.Justifies a) {i : Nat} {l : Literal}
    (hl : a.trues[i]? = some l) {w : Nat} (hw : s.Antecedent a l.var w) :
    ∃ (j : Nat) (m : Literal), j < i ∧ a.trues[j]? = some m ∧ m.var = w := by
  obtain ⟨-, reason, hreason, m, hm, rfl⟩ := hw
  obtain ⟨hbefore, -⟩ := h.reasonOf_spec hl hreason
  obtain ⟨j, hj, hget⟩ := mem_take_iff.mp (hbefore m hm)
  exact ⟨j, -m, hj, hget, Literal.var_negate m⟩

end Arena

end ClauseLearning
