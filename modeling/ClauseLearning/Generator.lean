import ClauseLearning.Word

/-!
# Random numbers

A search takes its random choices from a source (`RandomSource`), and what is proved about searches
relies on nothing but that an index is in range.

The source is xoshiro256++ on four 64 bit words, seeded by eight outputs of a 32 bit permuted
congruential generator. All arithmetic is modulo the number of 64 bit words. A chance is decided
against a 64 bit threshold, and a number below a bound is drawn by taking the high word of a product
and refusing the draws that would favour some numbers. To refuse draws for as long as it takes need
not end, so there is a limit on refusals in a row (`Generator.maxRefusals`). Where the limit is not
reached it makes no difference.
-/

namespace ClauseLearning

/-- Where random choices come from. -/
class RandomSource (γ : Type) where
  ofSeed : UInt64 → γ
  /-- True with the given probability, which is between 0 and 1. -/
  chance : Float → γ → Bool × γ
  /-- An index of a table with `n` entries whose first is not used. -/
  index : Nat → γ → Nat × γ
  index_mem {n : Nat} (h : 1 < n) (g : γ) : 1 ≤ (index n g).1 ∧ (index n g).1 < n

structure Generator where
  s0 : UInt64
  s1 : UInt64
  s2 : UInt64
  s3 : UInt64
  deriving DecidableEq, Repr

namespace Generator

def rotateLeft64 (x : UInt64) (n : UInt64) : UInt64 := (x <<< n) ||| (x >>> (64 - n))

def rotateRight32 (x : UInt32) (n : UInt32) : UInt32 := (x >>> n) ||| (x <<< ((32 - n) % 32))

/-! ## Seeding -/

/-- Advances the congruential generator and gives a word of its new state. -/
def seedWord (state : UInt64) : UInt32 × UInt64 :=
  let state := state * 6364136223846793005 + 11634580027462260723
  let x := (((state >>> 18) ^^^ state) >>> 27).toUInt32
  (rotateRight32 x (state >>> 59).toUInt32, state)

/-- Two words of the seed, the low one first. -/
def seedPair (state : UInt64) : UInt64 × UInt64 :=
  let (low, state) := seedWord state
  let (high, state) := seedWord state
  (low.toUInt64 ||| (high.toUInt64 <<< 32), state)

def ofSeed (seed : UInt64) : Generator :=
  let (s0, state) := seedPair seed
  let (s1, state) := seedPair state
  let (s2, state) := seedPair state
  let (s3, _) := seedPair state
  ⟨s0, s1, s2, s3⟩

/-! ## Drawing -/

def next (g : Generator) : UInt64 × Generator :=
  let result := rotateLeft64 (g.s0 + g.s3) 23 + g.s0
  let t := g.s1 <<< 17
  let s2 := g.s2 ^^^ g.s0
  let s3 := g.s3 ^^^ g.s1
  let s1 := g.s1 ^^^ s2
  let s0 := g.s0 ^^^ s3
  (result, ⟨s0, s1, s2 ^^^ t, rotateLeft64 s3 45⟩)

/-- True with probability `p`, which is between 0 and 1. A certain event draws nothing. -/
def chance (p : Float) (g : Generator) : Bool × Generator :=
  if p == 1 then (true, g)
  else
    let (word, g) := g.next
    (decide (word < (p * 18446744073709551616.0).toUInt64), g)

/-- Draws until a draw is accepted; after `attempts` refusals the next draw counts anyway. -/
def drawBelow (range zone : Nat) : Nat → Generator → Nat × Generator
  | 0, g =>
    let (word, g) := g.next
    (word.toNat * range / Word.bound64, g)
  | attempts + 1, g =>
    let (word, g) := g.next
    let product := word.toNat * range
    if product % Word.bound64 ≤ zone then (product / Word.bound64, g)
    else drawBelow range zone attempts g

/-- At least half of the words are accepted whatever the range, so this many refusals in a row are
not to be seen. -/
def maxRefusals : Nat := 1000

/-- A number from 1 to `n - 1`, each as likely as the others. -/
def index (n : Nat) (g : Generator) : Nat × Generator :=
  let range := n - 1
  let zone := range <<< (63 - range.log2) - 1
  let (k, g) := drawBelow range zone maxRefusals g
  (1 + k, g)

theorem drawBelow_lt {range : Nat} (h : 0 < range) (zone attempts : Nat) (g : Generator) :
    (drawBelow range zone attempts g).1 < range := by
  have hlt (word : UInt64) : word.toNat * range / Word.bound64 < range := by
    rw [Nat.div_lt_iff_lt_mul (by decide), Nat.mul_comm]
    exact Nat.mul_lt_mul_of_pos_left word.toNat_lt h
  induction attempts generalizing g with
  | zero => exact hlt _
  | succ attempts ih =>
    simp only [drawBelow]
    split
    · exact hlt _
    · exact ih _

theorem index_mem {n : Nat} (h : 1 < n) (g : Generator) :
    1 ≤ (index n g).1 ∧ (index n g).1 < n := by
  have hr : 0 < n - 1 := by omega
  have := drawBelow_lt hr ((n - 1) <<< (63 - (n - 1).log2) - 1) maxRefusals g
  simp only [index]
  omega

instance : RandomSource Generator := ⟨ofSeed, chance, index, index_mem⟩

end Generator

end ClauseLearning
