import ClauseLearning.Proofs.Intervals
import Mathlib.Data.Nat.Factorization.Basic

/-!
# The sequence of Luby

The numbers of the sequence are defined by a recursion (`lubyNumber`), while the generator walks
through them in constant space. A block of the recursion is two copies of the block before and a
power of two. So is what the generator does between `u = w + 1` and `u = w + 2 ^ k`, if `w` is a
multiple of `2 ^ k`: it does in the second half what it did in the first one, except that it finds
another lowest bit at the end (`IntervalSequence.drop_block`).

* `lubyNumber_full`, `lubyNumber_of_lt`: the equations of the recursion.
* `IntervalSequence.lowestBit_two_pow_mul`: the bit trick on 64 bit numbers.
* `IntervalSequence.luby_generates`: the generator returns the numbers of the sequence, scaled, and
  does not overflow.
-/

namespace ClauseLearning

/-! ## The recursion -/

/-- The number in place `i` of the sequence, from 1 on. -/
def lubyNumber (i : Nat) : Nat :=
  if i + 1 = 2 ^ (i + 1).log2 then 2 ^ ((i + 1).log2 - 1)
  else lubyNumber (i + 1 - 2 ^ (i + 1).log2)
termination_by i
decreasing_by
  rename_i hne
  have hlog : (i + 1).log2 ≠ 0 := fun h0 => by
    have hlt := Nat.lt_log2_self (n := i + 1)
    rw [h0] at hlt hne
    omega
  have htwo : 2 ^ 1 ≤ 2 ^ (i + 1).log2 := Nat.pow_le_pow_right Nat.two_pos (Nat.pos_of_ne_zero hlog)
  have hself : 2 ^ (i + 1).log2 ≤ i + 1 := Nat.log2_self_le (Nat.succ_ne_zero i)
  omega

/-- A block ends with a power of two. -/
theorem lubyNumber_full (k : Nat) : lubyNumber (2 ^ (k + 1) - 1) = 2 ^ k := by
  have hsucc : 2 ^ (k + 1) - 1 + 1 = 2 ^ (k + 1) := Nat.sub_add_cancel Nat.one_le_two_pow
  rw [lubyNumber, hsucc, Nat.log2_two_pow, if_pos rfl, Nat.add_sub_cancel]

/-- The part of a block behind the one before is the same again. -/
theorem lubyNumber_of_lt {k i : Nat} (hle : 2 ^ k ≤ i) (hlt : i < 2 ^ (k + 1) - 1) :
    lubyNumber i = lubyNumber (i - 2 ^ k + 1) := by
  have hlog : (i + 1).log2 = k := (Nat.log2_eq_iff (Nat.succ_ne_zero i)).mpr ⟨by omega, by omega⟩
  rw [lubyNumber, hlog, if_neg (by omega), Nat.succ_sub hle]

theorem exists_lubyNumber_eq (i : Nat) : ∃ j, lubyNumber i = 2 ^ j := by
  induction i using lubyNumber.induct with
  | case1 i hfull =>
    rw [lubyNumber, if_pos hfull]
    exact ⟨_, rfl⟩
  | case2 i hpart ih =>
    rw [lubyNumber, if_neg hpart]
    exact ih

namespace IntervalSequence

/-! ## The lowest bit -/

/-- The number and its negation have the same bits up to the lowest one, and the opposite ones
above. -/
theorem lowestBit_two_pow_mul {k m : Nat} (hlt : 2 ^ k * (2 * m + 1) < Word.bound64) :
    lowestBit (2 ^ k * (2 * m + 1)) = 2 ^ k := by
  have hone : 2 ^ k - 1 < 2 ^ (k + 1) := by
    have := Nat.pow_lt_pow_succ (n := k) Nat.one_lt_two
    omega
  have htwo : (2 : Nat) ^ k < 2 ^ (k + 1) := Nat.pow_lt_pow_succ Nat.one_lt_two
  have hself : 2 ^ k * (2 * m + 1) = 2 ^ (k + 1) * m + 2 ^ k := by
    rw [Nat.mul_add, Nat.mul_one, ← Nat.mul_assoc, ← Nat.pow_succ]
  have hpred : 2 ^ (k + 1) * m + (2 ^ k - 1) + 1 = 2 ^ k * (2 * m + 1) := by
    rw [hself, Nat.add_assoc, Nat.sub_add_cancel Nat.one_le_two_pow]
  have hk : k < 64 := by
    by_contra hge
    have hpow : (2 : Nat) ^ 64 ≤ 2 ^ k := Nat.pow_le_pow_right Nat.two_pos (Nat.le_of_not_lt hge)
    rw [hself, Word.bound64] at hlt
    omega
  refine Nat.eq_of_testBit_eq fun i => ?_
  have hbound : 2 ^ (k + 1) * m + (2 ^ k - 1) < 2 ^ 64 := by
    rw [← hpred] at hlt
    exact Nat.lt_of_succ_lt hlt
  have hneg := Nat.testBit_two_pow_sub_succ hbound i
  rw [hpred] at hneg
  rw [lowestBit, Nat.testBit_and, show Word.bound64 = 2 ^ 64 from rfl, hneg, hself,
    Nat.testBit_two_pow_mul_add m htwo, Nat.testBit_two_pow_mul_add m hone,
    Nat.testBit_two_pow, Nat.testBit_two_pow_sub_one]
  by_cases hi : i < k + 1
  · rw [if_pos hi, if_pos hi]
    by_cases hik : k = i
    · subst hik
      simp [hk]
    · simp [hik]
  · rw [if_neg hi, if_neg hi]
    have hne : k ≠ i := by omega
    cases m.testBit (i - (k + 1)) <;> simp [hne]

/-- A power of two that divides a number divides its lowest bit. -/
theorem two_pow_dvd_lowestBit {u j : Nat} (hpos : 0 < u) (hlt : u < Word.bound64)
    (h : 2 ^ j ∣ u) : 2 ^ j ∣ lowestBit u := by
  obtain ⟨k, n, ⟨m, rfl⟩, rfl⟩ := Nat.exists_eq_two_pow_mul_odd (Nat.ne_of_gt hpos)
  rw [lowestBit_two_pow_mul hlt]
  have hcoprime : Nat.Coprime (2 ^ j) (2 * m + 1) :=
    Nat.Coprime.pow_left j ((Nat.coprime_two_left).mpr ⟨m, rfl⟩)
  exact hcoprime.dvd_of_dvd_mul_right h

theorem lowestBit_add_two_pow {w k : Nat} (hdvd : 2 ^ (k + 1) ∣ w)
    (hlt : w + 2 ^ k < Word.bound64) : lowestBit (w + 2 ^ k) = 2 ^ k := by
  obtain ⟨m, rfl⟩ := hdvd
  have hself : 2 ^ (k + 1) * m + 2 ^ k = 2 ^ k * (2 * m + 1) := by
    rw [Nat.pow_succ, Nat.mul_assoc, Nat.mul_add, Nat.mul_one]
  rw [hself] at hlt ⊢
  exact lowestBit_two_pow_mul hlt

theorem lowestBit_ne_two_pow {u k : Nat} (hpos : 0 < u) (hlt : u < Word.bound64)
    (hdvd : 2 ^ (k + 1) ∣ u) : lowestBit u ≠ 2 ^ k := fun heq => by
  have hlow := two_pow_dvd_lowestBit hpos hlt hdvd
  rw [heq] at hlow
  exact Nat.not_dvd_of_pos_of_lt (Nat.two_pow_pos k) (Nat.pow_lt_pow_succ Nat.one_lt_two) hlow

/-! ## The generator -/

theorem drop_add (m n : Nat) (s : IntervalSequence) : s.drop (m + n) = (s.drop m).drop n := by
  induction m generalizing s with
  | zero =>
    rw [Nat.zero_add]
    rfl
  | succ m ih =>
    rw [Nat.succ_add]
    exact ih s.next.2

variable {base u v w k p : Nat}

theorem next_luby_of_eq (h : lowestBit u = v) : (luby u v base).next.2 = .luby (u + 1) 1 base :=
  if_pos h

theorem next_luby_of_ne (h : lowestBit u ≠ v) : (luby u v base).next.2 = .luby u (2 * v) base :=
  if_neg h

/-- After `p` steps from the start of a block `v` is the number in that place of the sequence, a
divisor of `u`, and `u` is in the block. -/
def InBlock (base w k p : Nat) : Prop :=
  ∃ u, (luby (w + 1) 1 base).drop p = .luby u (lubyNumber (p + 1)) base ∧
    lubyNumber (p + 1) ∣ u ∧ w < u ∧ u ≤ w + 2 ^ k

/-- The first half of a block is a block. -/
theorem InBlock.of_first (h : InBlock base w k p) : InBlock base w (k + 1) p := by
  obtain ⟨u, hdrop, hdvd, hlo, hhi⟩ := h
  refine ⟨u, hdrop, hdvd, hlo, Nat.le_trans hhi ?_⟩
  exact Nat.add_le_add_left (Nat.pow_le_pow_right Nat.two_pos (Nat.le_succ k)) w

/-- And so is the second half. -/
theorem InBlock.of_second (h : InBlock base (w + 2 ^ k) k p) (hp : p + 1 < 2 ^ (k + 1))
    (hmiddle : (luby (w + 1) 1 base).drop (2 ^ (k + 1) - 1) = .luby (w + 2 ^ k + 1) 1 base) :
    InBlock base w (k + 1) (2 ^ (k + 1) - 1 + p) := by
  obtain ⟨u, hdrop, hdvd, hlo, hhi⟩ := h
  have hpow : (2 : Nat) ^ (k + 1) = 2 * 2 ^ k := Nat.pow_succ'
  have hpow' : (2 : Nat) ^ (k + 1 + 1) = 2 * 2 ^ (k + 1) := Nat.pow_succ'
  have hk : 0 < 2 ^ k := Nat.two_pow_pos k
  have hnumber : lubyNumber (2 ^ (k + 1) - 1 + p + 1) = lubyNumber (p + 1) := by
    rw [lubyNumber_of_lt (k := k + 1) (by omega) (by omega)]
    congr 1
    omega
  refine ⟨u, ?_, ?_, by omega, by omega⟩
  · rw [drop_add, hmiddle, hdrop, hnumber]
  · rw [hnumber]
    exact hdvd

/-- The generator does between two multiples of a power of two what it does at the start. -/
theorem drop_block (base : Nat) (hdvd : 2 ^ k ∣ w) (hlt : w + 2 ^ k < Word.bound64) :
    (∀ p, p + 1 < 2 ^ (k + 1) → InBlock base w k p) ∧
      (luby (w + 1) 1 base).drop (2 ^ (k + 1) - 2) = .luby (w + 2 ^ k) (2 ^ k) base := by
  induction k generalizing w with
  | zero =>
    refine ⟨fun p hp => ?_, rfl⟩
    obtain rfl : p = 0 := by omega
    have hone : lubyNumber (0 + 1) = 1 := lubyNumber_full 0
    refine ⟨w + 1, ?_, ?_, Nat.lt_succ_self w, Nat.le_refl _⟩
    · rw [hone]
      rfl
    · rw [hone]
      exact Nat.one_dvd _
  | succ k ih =>
    have hpow : (2 : Nat) ^ (k + 1) = 2 * 2 ^ k := Nat.pow_succ'
    have hpow' : (2 : Nat) ^ (k + 1 + 1) = 2 * 2 ^ (k + 1) := Nat.pow_succ'
    have hk : 0 < 2 ^ k := Nat.two_pow_pos k
    have hdvd' : 2 ^ k ∣ w := Nat.dvd_trans (Nat.pow_dvd_pow 2 (Nat.le_succ k)) hdvd
    obtain ⟨hfirst, hhalf⟩ := ih hdvd' (by omega)
    obtain ⟨hsecond, hfull⟩ := ih (Nat.dvd_add hdvd' (Nat.dvd_refl _)) (by omega)
    have htwice : w + 2 ^ k + 2 ^ k = w + 2 ^ (k + 1) := by omega
    -- at the end of the first half `v` is the lowest bit, at the end of the second one it is not
    have hmiddle : (luby (w + 1) 1 base).drop (2 ^ (k + 1) - 1) = .luby (w + 2 ^ k + 1) 1 base := by
      rw [show 2 ^ (k + 1) - 1 = 2 ^ (k + 1) - 2 + 1 by omega, drop_succ, hhalf,
        next_luby_of_eq (lowestBit_add_two_pow hdvd (by omega))]
    have hlast : (luby (w + 1) 1 base).drop (2 ^ (k + 1 + 1) - 2) =
        .luby (w + 2 ^ (k + 1)) (2 ^ (k + 1)) base := by
      have hne : lowestBit (w + 2 ^ (k + 1)) ≠ 2 ^ k :=
        lowestBit_ne_two_pow (by omega) hlt (Nat.dvd_add hdvd (Nat.dvd_refl _))
      rw [show 2 ^ (k + 1 + 1) - 2 = 2 ^ (k + 1) - 1 + (2 ^ (k + 1) - 2) + 1 by omega, drop_succ,
        drop_add, hmiddle, hfull, htwice, next_luby_of_ne hne, hpow]
    refine ⟨fun p hp => ?_, hlast⟩
    rcases Nat.lt_or_ge (p + 1) (2 ^ (k + 1)) with hp' | hp'
    · exact (hfirst p hp').of_first
    rcases Nat.lt_or_ge (p + 1) (2 ^ (k + 1 + 1) - 1) with hp'' | hp''
    · obtain ⟨q, rfl⟩ : ∃ q, p = 2 ^ (k + 1) - 1 + q := ⟨p - (2 ^ (k + 1) - 1), by omega⟩
      exact (hsecond q (by omega)).of_second (by omega) hmiddle
    · obtain rfl : p = 2 ^ (k + 1 + 1) - 2 := by omega
      have hnumber : lubyNumber (2 ^ (k + 1 + 1) - 2 + 1) = 2 ^ (k + 1) := by
        rw [show 2 ^ (k + 1 + 1) - 2 + 1 = 2 ^ (k + 1 + 1) - 1 by omega, lubyNumber_full]
      refine ⟨w + 2 ^ (k + 1), ?_, ?_, by omega, Nat.le_refl _⟩
      · rw [hlast, hnumber]
      · rw [hnumber]
        exact Nat.dvd_add hdvd (Nat.dvd_refl _)

/-- A state of the generator in front of the number in place `n + 1`. -/
structure Precedes (n u v : Nat) : Prop where
  number : v = lubyNumber (n + 1)
  power : ∃ j, v = 2 ^ j
  /-- The bit trick finds the lowest bit. -/
  lowest : ∃ k m, u = 2 ^ k * (2 * m + 1) ∧ lowestBit u = 2 ^ k
  divides : v ∣ lowestBit u
  /-- It can be counted up and negated. -/
  small : u + 1 < 2 ^ 63
  /-- And this can be doubled. -/
  doubles : 2 * v < 2 ^ 64

/-- A generator, for any base and factor, of the sequence that its recursion gives. -/
structure GeneratesLuby (generator : Nat → Float → IntervalSequence) : Prop where
  full : ∀ k, 1 ≤ k → lubyNumber (2 ^ k - 1) = 2 ^ (k - 1)
  part : ∀ k i, 2 ^ (k - 1) ≤ i → i < 2 ^ k - 1 →
    lubyNumber i = lubyNumber (i - 2 ^ (k - 1) + 1)
  /-- The numbers are scaled by the base and cut off at the largest 64 bit number. -/
  element : ∀ base factor n, n ≤ 2 ^ 62 →
    (generator base factor).element n = min (lubyNumber (n + 1) * base) (2 ^ 64 - 1)
  state : ∀ base factor n, n ≤ 2 ^ 62 →
    ∃ u v, (generator base factor).drop n = .luby u v base ∧ Precedes n u v

theorem exists_precedes (base : Nat) (factor : Float) {n : Nat} (hn : n ≤ 2 ^ 62) :
    ∃ u v, (ofShape base factor .luby).drop n = .luby u v base ∧ Precedes n u v := by
  have hblock := (drop_block (k := 62) base (Nat.dvd_zero _) (by decide)).1 n
    (Nat.lt_of_le_of_lt (Nat.succ_le_succ hn) (by decide))
  obtain ⟨u, hdrop, hdvd, hpos, hle⟩ := hblock
  have hle : u ≤ 2 ^ 62 := by rwa [Nat.zero_add] at hle
  have hlt : u < Word.bound64 := Nat.lt_of_le_of_lt hle (by decide)
  obtain ⟨j, hj⟩ := exists_lubyNumber_eq (n + 1)
  have hle' : lubyNumber (n + 1) ≤ 2 ^ 62 := Nat.le_trans (Nat.le_of_dvd hpos hdvd) hle
  obtain ⟨k, r, ⟨m, rfl⟩, hu⟩ := Nat.exists_eq_two_pow_mul_odd (Nat.ne_of_gt hpos)
  refine ⟨u, _, hdrop, rfl, ⟨j, hj⟩, ⟨k, m, hu, ?_⟩, ?_, by omega, by omega⟩
  · rw [hu] at hlt ⊢
    exact lowestBit_two_pow_mul hlt
  · rw [hj] at hdvd ⊢
    exact two_pow_dvd_lowestBit hpos hlt hdvd

/-- The generator returns the numbers of the sequence in their order. In the first `2 ^ 62` steps
`v` is a power of two that divides the lowest bit of `u`, and both stay small. -/
theorem luby_generates : GeneratesLuby fun base factor => ofShape base factor .luby := by
  refine ⟨fun k hk => ?_, fun k i hle hlt => ?_, fun base factor n hn => ?_,
    fun base factor n hn => exists_precedes base factor hn⟩
  · cases k with
    | zero => cases hk
    | succ k => exact lubyNumber_full k
  · cases k with
    | zero => exact absurd hlt (Nat.not_lt_zero i)
    | succ k => exact lubyNumber_of_lt hle hlt
  · obtain ⟨u, v, hdrop, hprecedes⟩ := exists_precedes base factor hn
    rw [hprecedes.number] at hdrop
    exact congrArg (·.next.1) hdrop

/-- In place `2 ^ 62 - 1` there is `2 ^ 61`, which is too large for this base. -/
theorem luby_generates_of_saturated :
    (ofShape (2 ^ 63) 1.5 .luby).element (2 ^ 62 - 2) = 2 ^ 64 - 1 := by
  have hnumber : lubyNumber (2 ^ 62 - 2 + 1) = 2 ^ 61 := luby_generates.full 62 (by decide)
  rw [luby_generates.element (2 ^ 63) 1.5 (2 ^ 62 - 2) (by decide), hnumber]
  decide

example : (luby 1 1 1).take 15 = [1, 1, 2, 1, 1, 2, 4, 1, 1, 2, 1, 1, 2, 4, 8] := by decide +kernel

end IntervalSequence

end ClauseLearning
