/-!
# Sets of characters

A property of characters is given by the closed ranges of code points that have it. The ranges are
ascending, so a search stops at the first one that begins behind a character.

* `contains_iff`: a set contains what some range of it contains.
-/

namespace ClauseLearning.Text

/-- Closed ranges of code points, ascending and apart. -/
abbrev CharSet := List (Nat × Nat)

namespace CharSet

def containsCode (n : Nat) : CharSet → Bool
  | [] => false
  | (first, last) :: ranges =>
    if n < first then false
    else if n ≤ last then true
    else containsCode n ranges

def contains (s : CharSet) (c : Char) : Bool := s.containsCode c.toNat

/-- Whether the ranges are ascending and apart, and all behind a bound. -/
def IsAscendingFrom (bound : Nat) : CharSet → Prop
  | [] => True
  | (first, last) :: ranges => bound ≤ first ∧ first ≤ last ∧ IsAscendingFrom (last + 2) ranges

instance decidableIsAscendingFrom : (bound : Nat) → (s : CharSet) →
    Decidable (IsAscendingFrom bound s)
  | _, [] => .isTrue trivial
  | bound, (first, last) :: ranges =>
    have := decidableIsAscendingFrom (last + 2) ranges
    inferInstanceAs (Decidable (bound ≤ first ∧ first ≤ last ∧ IsAscendingFrom (last + 2) ranges))

theorem le_first_of_mem {bound : Nat} {s : CharSet} (h : IsAscendingFrom bound s)
    {range : Nat × Nat} (hr : range ∈ s) : bound ≤ range.1 := by
  induction s generalizing bound with
  | nil => cases hr
  | cons r s ih =>
    obtain ⟨first, last⟩ := r
    obtain ⟨hb, hl, ht⟩ := h
    cases hr with
    | head => exact hb
    | tail _ hr =>
      have := ih ht hr
      omega

theorem containsCode_iff {bound : Nat} {s : CharSet} (h : IsAscendingFrom bound s) (n : Nat) :
    containsCode n s = true ↔ ∃ range ∈ s, range.1 ≤ n ∧ n ≤ range.2 := by
  induction s generalizing bound with
  | nil => simp [containsCode]
  | cons r s ih =>
    obtain ⟨first, last⟩ := r
    obtain ⟨hb, hl, ht⟩ := h
    unfold containsCode
    split
    · next hn =>
      simp only [Bool.false_eq_true, false_iff, not_exists, not_and]
      rintro range hr h1
      cases hr with
      | head => simp only at h1; omega
      | tail _ hr =>
        have := le_first_of_mem ht hr
        omega
    · split
      · next h1 h2 => exact iff_of_true rfl ⟨_, List.mem_cons_self, by omega, h2⟩
      · next h1 h2 =>
        rw [ih ht]
        constructor
        · rintro ⟨range, hr, h⟩
          exact ⟨range, List.mem_cons_of_mem _ hr, h⟩
        · rintro ⟨range, hr, h⟩
          cases hr with
          | head => exact absurd h.2 h2
          | tail _ hr => exact ⟨range, hr, h⟩

theorem contains_iff {bound : Nat} {s : CharSet} (h : IsAscendingFrom bound s) (c : Char) :
    s.contains c = true ↔ ∃ range ∈ s, range.1 ≤ c.toNat ∧ c.toNat ≤ range.2 :=
  containsCode_iff h c.toNat

end CharSet

end ClauseLearning.Text
