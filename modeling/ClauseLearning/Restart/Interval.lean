import ClauseLearning.Word

/-!
# Sequences of intervals

The shapes of sequence that set the length of restart intervals. Elements are 64 bit numbers, and
growth stops at the largest of them. The Luby sequence is generated in constant space: `u` counts
the blocks and `v` runs through the powers of two up to the lowest bit of `u`.
-/

namespace ClauseLearning

inductive IntervalShape
  | constant
  | geometric
  | luby
  deriving DecidableEq, Repr

/-- A sequence at work. -/
inductive IntervalSequence
  | constant (value : Nat)
  /-- Every element is the one before times the factor, rounded down. -/
  | geometric (current : Nat) (factor : Float)
  | luby (u v base : Nat)
  deriving Repr

namespace IntervalSequence

/-- The largest 64 bit number. -/
def maxWord : Nat := Word.bound64 - 1

/-- The lowest bit of a 64 bit number that is set: the number and its negation have only that bit
in common. -/
def lowestBit (u : Nat) : Nat := u &&& (Word.bound64 - u)

def ofShape (base : Nat) (factor : Float) : IntervalShape → IntervalSequence
  | .constant => .constant base
  | .geometric => .geometric base factor
  | .luby => .luby 1 1 base

/-- The next element. -/
def next : IntervalSequence → Nat × IntervalSequence
  | .constant value => (value, .constant value)
  | .geometric current factor =>
    (current, .geometric ((UInt64.ofNat current).toFloat * factor).toUInt64.toNat factor)
  | .luby u v base =>
    (min (v * base) maxWord,
      if lowestBit u = v then .luby (u + 1) 1 base else .luby u (2 * v) base)

/-- The first elements. -/
def take : Nat → IntervalSequence → List Nat
  | 0, _ => []
  | n + 1, s => s.next.1 :: take n s.next.2

/-- The sequence after some elements. -/
def drop : Nat → IntervalSequence → IntervalSequence
  | 0, s => s
  | n + 1, s => drop n s.next.2

end IntervalSequence

end ClauseLearning
