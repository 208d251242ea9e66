/-!
# The shortest decimal of a double

A finite double is `m · 2 ^ q`. The reals that round to it form an interval around it, which holds
its ends if `m` is even. A decimal `d · 10 ^ s` reads back if it lies in the interval. The grids of
`1, 2, … 17` significant digits are tried in turn, on each the two neighbours of the value; the
first grid with a neighbour that reads back gives the digits, of two the nearer, and of two equally
near the larger.

Everything is computed on natural numbers: fractions are compared by cross multiplication.
-/

namespace ClauseLearning.Decimal

/-- The number `digits · 10 ^ exponent`. -/
structure Digits where
  digits : Nat
  exponent : Int
  deriving DecidableEq, Repr

/-- A positive binary number `m · 2 ^ q`, and whether it is the least of its binary exponent, so
that the next smaller number is only half as far away as the next larger one. -/
structure Binary where
  m : Nat
  q : Int
  isLeast : Bool
  deriving DecidableEq, Repr

/-- A fraction with a positive denominator. -/
structure Ratio where
  num : Nat
  den : Nat
  deriving Repr

namespace Ratio

def scale (base : Nat) (e : Int) (r : Ratio) : Ratio :=
  if 0 ≤ e then ⟨r.num * base.pow e.toNat, r.den⟩ else ⟨r.num, r.den * base.pow (-e).toNat⟩

def lt (r s : Ratio) : Bool := decide (r.num * s.den < s.num * r.den)

def le (r s : Ratio) : Bool := decide (r.num * s.den ≤ s.num * r.den)

/-- The distance of two fractions. -/
def dist (r s : Ratio) : Ratio :=
  ⟨(r.num * s.den - s.num * r.den) + (s.num * r.den - r.num * s.den), r.den * s.den⟩

end Ratio

namespace Binary

def value (x : Binary) : Ratio := Ratio.scale 2 x.q ⟨x.m, 1⟩

/-- The lower end of the interval of numbers that round to `x`. -/
def lower (x : Binary) : Ratio :=
  if x.isLeast then Ratio.scale 2 (x.q - 2) ⟨4 * x.m - 1, 1⟩
  else Ratio.scale 2 (x.q - 1) ⟨2 * x.m - 1, 1⟩

/-- The upper end of the interval of numbers that round to `x`. -/
def upper (x : Binary) : Ratio := Ratio.scale 2 (x.q - 1) ⟨2 * x.m + 1, 1⟩

/-- The fraction rounds to `x`. -/
def readsBack (x : Binary) (r : Ratio) : Bool :=
  if x.m % 2 = 0 then x.lower.le r && r.le x.upper else x.lower.lt r && r.lt x.upper

end Binary

/-- How many decimal digits a number has; zero has none. -/
def numDigits (n : Nat) : Nat := if n = 0 then 0 else (Nat.toDigits 10 n).length

/-- The least `k ≥ 1` with `r · 10 ^ k ≥ 1`, for a fraction below one. -/
def leadingZeros (r : Ratio) : Nat → Nat → Nat
  | 0, k => k
  | fuel + 1, k => if r.den ≤ r.num * Nat.pow 10 k then k else leadingZeros r fuel (k + 1)

/-- The `e` with `10 ^ (e - 1) ≤ r < 10 ^ e`. -/
def magnitude (r : Ratio) : Int :=
  if r.den ≤ r.num then numDigits (r.num / r.den) else 1 - (leadingZeros r 400 1 : Nat)

def Digits.value (d : Digits) : Ratio := Ratio.scale 10 d.exponent ⟨d.digits, 1⟩

/-- The neighbour of the value on the grid of `10 ^ s` that reads back, if there is one. -/
def onGrid? (x : Binary) (s : Int) : Option Digits :=
  let r := x.value
  let scaled := Ratio.scale 10 (-s) r
  let below : Digits := ⟨scaled.num / scaled.den, s⟩
  let above : Digits := ⟨scaled.num / scaled.den + 1, s⟩
  match x.readsBack below.value, x.readsBack above.value with
  | true, true => if (r.dist below.value).lt (r.dist above.value) then some below else some above
  | true, false => some below
  | false, true => some above
  | false, false => none

/-- The value written exactly. -/
def exact (x : Binary) : Digits :=
  if 0 ≤ x.q then ⟨x.m * Nat.pow 2 x.q.toNat, 0⟩ else ⟨x.m * Nat.pow 5 (-x.q).toNat, x.q⟩

/-- The shortest decimal that reads back. -/
def shortest (x : Binary) : Digits :=
  let e := magnitude x.value
  ((List.range' 1 17).findSome? fun n : Nat => onGrid? x (e - n)).getD (exact x)

/-- What the search returns reads back. -/
theorem readsBack_onGrid {x : Binary} {s : Int} {d : Digits} (h : onGrid? x s = some d) :
    x.readsBack d.value = true := by
  unfold onGrid? at h
  dsimp only at h
  split at h
  · split at h <;> (cases h; assumption)
  · cases h; assumption
  · cases h; assumption
  · cases h

end ClauseLearning.Decimal
