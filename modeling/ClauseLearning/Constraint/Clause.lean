import ClauseLearning.Board

/-!
# Clauses

A disjunction of at least two literals. The first two are watched: the clause is notified when
one of them becomes false, that is, when its negation becomes true. A visit puts the false literal
second and looks for a literal that is not false to watch in its place; if there is none the first
literal is the only one left.

`exchange?_perm` says that the search for a replacement only moves literals.
-/

namespace ClauseLearning

structure Clause where
  first : Literal
  second : Literal
  rest : List Literal
  deriving DecidableEq, Repr

namespace Clause

def literals (c : Clause) : List Literal := c.first :: c.second :: c.rest

/-- Puts `out` in the place of the first element with a property; those before it were seen already
and stand in front, newest first. -/
@[specialize] def exchangeFrom {α : Type} (p : α → Bool) (out : α) (seen : List α) :
    List α → Option (α × List α)
  | [] => none
  | x :: xs =>
    if p x then some (x, seen.reverseAux (out :: xs)) else exchangeFrom p out (x :: seen) xs

/-- The first element with a property, and the list with `out` in its place. Most lists have no such
element, so a look at them comes first. -/
@[specialize] def exchange? {α : Type} (p : α → Bool) (out : α) (xs : List α) :
    Option (α × List α) :=
  if xs.any p then exchangeFrom p out [] xs else none

def attach (r : Reference) (c : Clause) (b : Board) : Board :=
  (b.watch r (-c.first) (some c.second)).watch r (-c.second) (some c.first)

/-- Puts the literal that became false second. -/
def faceFalse (falsified : Literal) (c : Clause) : Clause :=
  if c.first = falsified then ⟨c.second, c.first, c.rest⟩ else c

/-- Called when `p` became true, so that the watched literal `-p` became false. -/
def propagate (r : Reference) (p : Literal) (c : Clause) (b : Board) : Bool × Clause × Board :=
  let c := c.faceFalse (-p)
  if b.assignment.isSatisfied c.first then
    (true, c, b.watch r p (some c.first))
  else
    match exchange? (fun l => !b.assignment.isFalsified l) c.second c.rest with
    | some (l, rest) => (true, ⟨c.first, l, rest⟩, b.watch r (-l) (some c.first))
    | none =>
      -- Every literal apart from the first is false.
      let (ok, b) := (b.watch r p (some c.first)).enqueue (some r) c.first
      (ok, c, b)

/-- The false literals behind the first, or all of them if the clause is violated. -/
def reason (c : Clause) : Option Literal → List Literal
  | some _ => c.second :: c.rest
  | none => c.literals

def isSatisfied (a : Assignment) (c : Clause) : Bool := c.literals.any a.isSatisfied

theorem exchangeFrom_perm {α : Type} {p : α → Bool} {out x : α} {seen xs ys : List α}
    (h : exchangeFrom p out seen xs = some (x, ys)) :
    (x :: ys).Perm (out :: (seen.reverse ++ xs)) := by
  induction xs generalizing seen with
  | nil => cases h
  | cons z zs ih =>
    unfold exchangeFrom at h
    split at h
    · cases h
      rw [List.reverseAux_eq]
      have hout : (seen.reverse ++ out :: zs).Perm (out :: (seen.reverse ++ zs)) := List.perm_middle
      have hx : (seen.reverse ++ x :: zs).Perm (x :: (seen.reverse ++ zs)) := List.perm_middle
      exact (hout.cons x).trans ((List.Perm.swap ..).trans (hx.symm.cons out))
    · have := ih h
      rwa [List.reverse_cons, List.append_assoc] at this

theorem exchangeFrom_holds {α : Type} {p : α → Bool} {out x : α} {seen xs ys : List α}
    (h : exchangeFrom p out seen xs = some (x, ys)) : p x = true := by
  induction xs generalizing seen with
  | nil => cases h
  | cons z zs ih =>
    unfold exchangeFrom at h
    split at h
    · cases h; assumption
    · exact ih h

theorem exchangeFrom_eq_none {α : Type} {p : α → Bool} {out : α} {seen xs : List α} :
    exchangeFrom p out seen xs = none ↔ ∀ x ∈ xs, p x = false := by
  induction xs generalizing seen with
  | nil => simp [exchangeFrom]
  | cons z zs ih =>
    unfold exchangeFrom
    by_cases hz : p z
    · simp [hz]
    · simp [hz, ih]

theorem exchange?_eq_exchangeFrom {α : Type} (p : α → Bool) (out : α) (xs : List α) :
    exchange? p out xs = exchangeFrom p out [] xs := by
  unfold exchange?
  split
  · rfl
  · next h => exact (exchangeFrom_eq_none.2 (by simpa using h)).symm

theorem exchange?_perm {α : Type} {p : α → Bool} {out x : α} {xs ys : List α}
    (h : exchange? p out xs = some (x, ys)) : (x :: ys).Perm (out :: xs) := by
  rw [exchange?_eq_exchangeFrom] at h
  exact exchangeFrom_perm h

theorem exchange?_holds {α : Type} {p : α → Bool} {out x : α} {xs ys : List α}
    (h : exchange? p out xs = some (x, ys)) : p x = true := by
  rw [exchange?_eq_exchangeFrom] at h
  exact exchangeFrom_holds h

theorem exchange?_eq_none {α : Type} {p : α → Bool} {out : α} {xs : List α} :
    exchange? p out xs = none ↔ ∀ x ∈ xs, p x = false := by
  rw [exchange?_eq_exchangeFrom]
  exact exchangeFrom_eq_none

end Clause

end ClauseLearning
