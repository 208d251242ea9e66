/-!
# Conflict timers

A timer counts conflicts and fires when its bound is reached; the bound stays or grows. A set of
timers is fed together. That one of its timers fired stays noted until it is asked for.

`Timers.hasFired_takeFired_of_ne` says that asking for one timer leaves the others alone.
-/

namespace ClauseLearning

inductive Timer
  /-- Fires every `bound` conflicts. -/
  | fixed (bound counter : Nat)
  /-- Its bound grows by `increment` every time it fires. -/
  | growing (first bound increment counter : Nat)
  deriving DecidableEq, Repr

namespace Timer

def every (bound : Nat) : Timer := .fixed (max bound 1) 0

def increasing (first increment : Nat) : Timer := .growing (max first 1) (max first 1) increment 0

/-- Starts again from zero. -/
def reset : Timer → Timer
  | .fixed bound _ => .fixed bound 0
  | .growing first _ increment _ => .growing first first increment 0

/-- Counts a conflict; true if the timer fires. -/
def tick : Timer → Bool × Timer
  | .fixed bound counter =>
    if bound ≤ counter + 1 then (true, .fixed bound 0) else (false, .fixed bound (counter + 1))
  | .growing first bound increment counter =>
    if bound ≤ counter + 1 then (true, .growing first (bound + increment) increment 0)
    else (false, .growing first bound increment (counter + 1))

/-- The numbers of the conflicts, from `k + 1` on, at which the timer fires. -/
def firings : Nat → Nat → Timer → List Nat
  | 0, _, _ => []
  | n + 1, k, t =>
    match t.tick with
    | (true, t) => (k + 1) :: firings n (k + 1) t
    | (false, t) => firings n (k + 1) t

end Timer

/-- Timers, each with a note whether it fired since it was last asked. -/
structure Timers where
  entries : List (Timer × Bool)
  deriving DecidableEq, Repr

namespace Timers

def empty : Timers := ⟨[]⟩

/-- Adds a timer; the result names it. -/
def add (t : Timer) (ts : Timers) : Nat × Timers :=
  (ts.entries.length, ⟨ts.entries ++ [(t, false)]⟩)

/-- Counts a conflict for every timer. -/
def tick (ts : Timers) : Timers :=
  ⟨ts.entries.map fun entry => (entry.1.tick.2, entry.1.tick.1 || entry.2)⟩

def hasFired (ts : Timers) (i : Nat) : Bool := (ts.entries[i]?.map (·.2)).getD false

/-- Whether the timer fired since it was last asked; the note is taken away. -/
def takeFired (i : Nat) (ts : Timers) : Bool × Timers :=
  (ts.hasFired i, ⟨ts.entries.modify i fun entry => (entry.1, false)⟩)

theorem hasFired_takeFired_of_ne (ts : Timers) {i j : Nat} (h : i ≠ j) :
    (ts.takeFired i).2.hasFired j = ts.hasFired j := by
  simp [takeFired, hasFired, h]

theorem hasFired_takeFired_self (ts : Timers) (i : Nat) :
    (ts.takeFired i).2.hasFired i = false := by
  simp only [takeFired, hasFired, List.getElem?_modify]
  cases ts.entries[i]? <;> simp

theorem hasFired_tick (ts : Timers) (i : Nat) :
    ts.tick.hasFired i =
      ((ts.entries[i]?.map fun entry => entry.1.tick.1).getD false || ts.hasFired i) := by
  simp only [tick, hasFired, List.getElem?_map]
  cases ts.entries[i]? <;> simp

end Timers

end ClauseLearning
