import ClauseLearning.Violation

/-!
# Averages over a stream of numbers

The average of everything seen so far, and the average of a window of the most recent terms. The
window keeps its sum up to date: a term that falls out is subtracted, a new one is added.

`Window.toList_add` says which terms a window holds after one more, and `Window.make_ok_iff` how
large a window can be.
-/

namespace ClauseLearning

/-- A quotient of 64 bit numbers, 0 if there is nothing to divide by. -/
def quotient (sum count : Nat) : Float :=
  if count = 0 then 0.0 else (UInt64.ofNat sum).toFloat / (UInt64.ofNat count).toFloat

structure Average where
  sum : Nat
  count : Nat
  deriving DecidableEq, Repr

namespace Average

def empty : Average := ⟨0, 0⟩

def add (term : Nat) (a : Average) : Average := ⟨a.sum + term, a.count + 1⟩

def value (a : Average) : Float := quotient a.sum a.count

end Average

/-- The most recent terms, as a queue: those to fall out first are in front of `older`, the newest
is in front of `newer`. -/
structure Window where
  capacity : Nat
  sum : Nat
  length : Nat
  older : List Nat
  newer : List Nat
  deriving DecidableEq, Repr

namespace Window

/-- A window with room for at least one term. -/
def atLeastOne (capacity : Nat) : Window := ⟨max capacity 1, 0, 0, [], []⟩

/-- How many terms a window can be made for: as many as there are words of 64 bits in memory whose
size in bytes is a signed word. -/
def maxCapacity : Nat := 0x0fffffffffffffff

/-- A window needs room for one term, and must fit in memory. -/
def make (capacity : Nat) : Except Violation Window :=
  if capacity = 0 then .error .emptyWindow
  else if maxCapacity < capacity then .error .windowTooLarge
  else .ok (atLeastOne capacity)

/-- The terms, oldest first. -/
def toList (w : Window) : List Nat := w.older ++ w.newer.reverse

def isFull (w : Window) : Bool := w.length == w.capacity

def clear (w : Window) : Window := ⟨w.capacity, 0, 0, [], []⟩

/-- Lets the oldest term fall out. -/
def evict (w : Window) : Window :=
  match w.older with
  | oldest :: older => ⟨w.capacity, w.sum - oldest, w.length - 1, older, w.newer⟩
  | [] =>
    match w.newer.reverse with
    | oldest :: older => ⟨w.capacity, w.sum - oldest, w.length - 1, older, []⟩
    | [] => w

def push (term : Nat) (w : Window) : Window :=
  ⟨w.capacity, w.sum + term, w.length + 1, w.older, term :: w.newer⟩

def add (term : Nat) (w : Window) : Window :=
  if w.isFull then w.evict.push term else w.push term

def value (w : Window) : Float := quotient w.sum w.length

theorem make_ok_iff (capacity : Nat) :
    (∃ w, make capacity = .ok w) ↔ 0 < capacity ∧ capacity ≤ maxCapacity := by
  unfold make
  split
  · next h => simp [h]
  · split
    · next h => simp; omega
    · next h => simp; omega

theorem toList_evict (w : Window) : w.evict.toList = w.toList.drop 1 := by
  cases w with
  | mk capacity sum length older newer =>
    cases older with
    | cons oldest older => simp [evict, toList]
    | nil =>
      cases hr : newer.reverse with
      | nil =>
        have hn : newer = [] := by simpa using hr
        simp [evict, toList, hn]
      | cons oldest older => simp [evict, toList, hr]

theorem toList_push (w : Window) (term : Nat) : (w.push term).toList = w.toList ++ [term] := by
  simp [push, toList]

theorem toList_add (w : Window) (term : Nat) :
    (w.add term).toList = (if w.isFull then w.toList.drop 1 else w.toList) ++ [term] := by
  unfold add
  split <;> simp [toList_push, toList_evict]

end Window

end ClauseLearning
