import ClauseLearning.Assignment

/-!
# Valuations

A valuation gives every variable a value. It is what constraints are about: a literal holds or not
under a valuation, and a partial assignment stands for all valuations that agree with it.
-/

namespace ClauseLearning

abbrev Valuation := Nat → Bool

namespace Literal

def holds (ν : Valuation) (l : Literal) : Bool := ν l.var == l.isPositive

@[simp] theorem holds_negate (ν : Valuation) (l : Literal) : (-l).holds ν = !l.holds ν := by
  simp only [holds, var_negate, isPositive_negate]
  cases ν l.var <;> cases l.isPositive <;> rfl

end Literal

namespace Valuation

/-- How many of the literals hold, a literal that occurs twice counting twice. -/
def count (ν : Valuation) (ls : List Literal) : Nat := ls.countP (·.holds ν)

theorem count_negate (ν : Valuation) (ls : List Literal) :
    ν.count ls + ν.count (ls.map (-·)) = ls.length := by
  induction ls with
  | nil => rfl
  | cons l ls ih =>
    simp only [count, List.map_cons, List.countP_cons, Literal.holds_negate,
      List.length_cons] at ih ⊢
    cases l.holds ν with
    | false => simp only [Bool.not_false, Bool.false_eq_true, if_true, if_false]; omega
    | true => simp only [Bool.not_true, Bool.false_eq_true, if_true, if_false]; omega

/-- The valuation gives every assigned variable the value it has. -/
def Extends (ν : Valuation) (a : Assignment) : Prop :=
  ∀ v c, a.cell? v = some c → ν v = c.value

theorem Extends.holds {ν : Valuation} {a : Assignment} (h : ν.Extends a) {l : Literal}
    (hl : a.isSatisfied l = true) : l.holds ν = true := by
  cases hc : a.cell? l.var with
  | none => simp [Assignment.isSatisfied, hc] at hl
  | some c =>
    simp only [Assignment.isSatisfied, hc] at hl
    simpa [Literal.holds, h _ _ hc] using hl

end Valuation

end ClauseLearning
