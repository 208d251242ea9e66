import ClauseLearning.Word

/-!
# Variables and literals

A literal is packed into one number, twice its variable plus one if it is negative, so that
negation changes the lowest bit only and the number indexes tables directly. Outside, literals
are signed numbers whose absolute value is the variable (the DIMACS convention).

* `Literal.negate_negate`, `Literal.var_negate`: negation is an involution on the variable.
* `Literal.toDimacs_ofDimacs`: reading a signed number back gives the number.
-/

namespace ClauseLearning

/-- A variable or its negation. Variables are numbered from 1; number 0 names no variable. -/
structure Literal where
  code : Nat
  deriving DecidableEq, Repr, Inhabited, Hashable

/-- Why a signed number denotes no literal. -/
inductive Literal.Error
  /-- Zero ends a list of literals and is none itself. -/
  | zero
  /-- The packed form has 32 bits. -/
  | tooLarge
  deriving DecidableEq, Repr

namespace Literal

def Error.message : Error → String
  | .zero => "0 is not a valid Dimacs literal"
  | .tooLarge => "attempt to multiply with overflow"

def make (v : Nat) (positive : Bool) : Literal :=
  ⟨2 * v + if positive then 0 else 1⟩

/-- The literal with a given code, of which the low 32 bits count. -/
def ofCode (code : Nat) : Literal := ⟨code % Word.bound32⟩

def var (l : Literal) : Nat := l.code / 2

def isPositive (l : Literal) : Bool := l.code % 2 == 0

def isNegative (l : Literal) : Bool := !l.isPositive

def negate (l : Literal) : Literal :=
  if l.code % 2 = 0 then ⟨l.code + 1⟩ else ⟨l.code - 1⟩

instance : Neg Literal := ⟨negate⟩

/-- The literal written as a non-zero signed number, if its code fits into 32 bits. -/
def ofDimacs (n : Int) : Except Error Literal :=
  if n = 0 then .error .zero
  else if 2 * n.natAbs + 1 < Word.bound32 then .ok (make n.natAbs (decide (0 < n)))
  else .error .tooLarge

def toDimacs (l : Literal) : Int :=
  if l.isPositive then l.var else -(l.var : Int)

/-- Literals are ordered by code: by variable, the positive one first. -/
def le (l m : Literal) : Bool := decide (l.code ≤ m.code)

instance : ToString Literal := ⟨fun l => toString l.toDimacs⟩

/-! ## Laws of negation -/

@[simp] theorem var_negate (l : Literal) : (-l).var = l.var := by
  show (negate l).var = l.var
  cases l with
  | mk code =>
    by_cases h : code % 2 = 0
    · simp [negate, var, h]; omega
    · simp [negate, var, h]; omega

@[simp] theorem negate_negate (l : Literal) : -(-l) = l := by
  show negate (negate l) = l
  cases l with
  | mk code =>
    by_cases h : code % 2 = 0
    · have h1 : ¬ (code + 1) % 2 = 0 := by omega
      simp [negate, h, h1]
    · have h1 : (code - 1) % 2 = 0 := by omega
      have h2 : code - 1 + 1 = code := by omega
      simp [negate, h, h1, h2]

@[simp] theorem isPositive_negate (l : Literal) : (-l).isPositive = !l.isPositive := by
  show (negate l).isPositive = !l.isPositive
  cases l with
  | mk code =>
    by_cases h : code % 2 = 0
    · have h1 : ¬ (code + 1) % 2 = 0 := by omega
      simp [negate, isPositive, h, h1]
    · have h1 : (code - 1) % 2 = 0 := by omega
      simp [negate, isPositive, h, h1]

theorem negate_ne (l : Literal) : -l ≠ l := by
  intro h
  have := isPositive_negate l
  rw [h] at this
  cases hp : l.isPositive <;> simp [hp] at this

/-! ## Packing -/

@[simp] theorem var_make (v : Nat) (b : Bool) : (make v b).var = v := by
  show (2 * v + if b then 0 else 1) / 2 = v
  split <;> omega

@[simp] theorem isPositive_make (v : Nat) (b : Bool) : (make v b).isPositive = b := by
  cases b
  · simp [make, isPositive]
  · simp [make, isPositive]

theorem make_var_isPositive (l : Literal) : make l.var l.isPositive = l := by
  cases l with
  | mk code =>
    by_cases h : code % 2 = 0
    · simp [make, var, isPositive, h]; omega
    · simp [make, var, isPositive, h]; omega

/-- A literal is determined by its variable and its sign. -/
theorem ext_var {l m : Literal} (hv : l.var = m.var) (hp : l.isPositive = m.isPositive) :
    l = m := by
  rw [← make_var_isPositive l, ← make_var_isPositive m, hv, hp]

theorem toDimacs_ofDimacs {n : Int} {l : Literal} (h : ofDimacs n = .ok l) : l.toDimacs = n := by
  unfold ofDimacs at h
  split at h
  · cases h
  · split at h
    · cases h
      by_cases hn : 0 < n
      · simp only [toDimacs, var_make, isPositive_make, hn, decide_true, if_true]
        omega
      · simp only [toDimacs, var_make, isPositive_make, hn, decide_false, Bool.false_eq_true,
          if_false]
        omega
    · cases h

end Literal

end ClauseLearning
