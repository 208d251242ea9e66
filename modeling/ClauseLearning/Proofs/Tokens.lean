import Mathlib.Data.List.SplitBy
import Mathlib.Data.List.TakeWhile
import ClauseLearning.Dimacs.Reader

/-!
# The tokens of a text

The two kinds of text that the reader hands on to be read as a whole: the header line and a number.

* `Header.words_eq_iff`: the words of a line are what white space sets apart.
* `Header.parse_eq_ok_iff`: exactly the lines `p cnf V C` are read as a header.
* `LooksNumeric.exists_numeral`, `looksNumeric_numeral`: what the reader takes for a number is what
  some number other than 0 is written as, and only that.
* `readNumber?_numeral`: exactly the numbers of 32 bits are read from what they are written as.
-/

namespace ClauseLearning.Dimacs

/-! ## The words of a line -/

namespace Header

/-- The words, with white space between them and possibly around them. -/
inductive Spaced : List (List Char) → List Char → Prop
  | nil {gap : List Char} (hgap : ∀ c ∈ gap, isSpace c) : Spaced [] gap
  | cons {gap word rest : List Char} {ws : List (List Char)} (hgap : ∀ c ∈ gap, isSpace c)
      (hne : word ≠ []) (hword : ∀ c ∈ word, isSpace c = false)
      (hend : ∀ c ∈ rest.head?, isSpace c) (hrest : Spaced ws rest) :
      Spaced (word :: ws) (gap ++ word ++ rest)

@[simp]
theorem words_nil : words [] = [] := rfl

/-- Every text starts with characters of a kind, up to the first that is not of it. -/
theorem exists_leading (p : Char → Bool) (cs : List Char) :
    ∃ front back, cs = front ++ back ∧ (∀ c ∈ front, p c) ∧ ∀ c ∈ back.head?, p c = false := by
  refine ⟨cs.takeWhile p, cs.dropWhile p, List.takeWhile_append_dropWhile.symm,
    fun c => List.mem_takeWhile_imp, fun c hc => ?_⟩
  have hnot := List.head?_dropWhile_not p cs
  rwa [Option.mem_def.mp hc] at hnot

theorem splitBy_append_of_uniform {b : Bool} {l rest : List Char} (hne : l ≠ [])
    (hl : ∀ c ∈ l, isSpace c = b) (hend : ∀ c ∈ rest.head?, isSpace c ≠ b) :
    (l ++ rest).splitBy (fun c d => isSpace c == isSpace d) =
      l :: rest.splitBy fun c d => isSpace c == isSpace d := by
  rw [List.splitBy_append, List.splitBy_of_isChain hne, List.singleton_append]
  · exact (List.pairwise_of_forall_mem_list fun c hc d hd => by
      rw [hl c hc, hl d hd, beq_self_eq_true]).isChain
  · intro c hc d hd
    rw [hl c (List.mem_of_getLast? hc), beq_eq_false_iff_ne]
    exact (hend d hd).symm

theorem words_word_append {word rest : List Char} (hne : word ≠ [])
    (hword : ∀ c ∈ word, isSpace c = false) (hend : ∀ c ∈ rest.head?, isSpace c) :
    words (word ++ rest) = word :: words rest := by
  rw [words, splitBy_append_of_uniform hne hword fun d hd => by simp [hend d hd],
    List.filter_cons_of_pos]
  · rfl
  · obtain ⟨c, word, rfl⟩ := List.exists_cons_of_ne_nil hne
    simp [hword c]

theorem words_gap_append {gap : List Char} (hgap : ∀ c ∈ gap, isSpace c) (rest : List Char) :
    words (gap ++ rest) = words rest := by
  -- The gap may go on at the start of the rest.
  have key {gap rest : List Char} (hgap : ∀ c ∈ gap, isSpace c)
      (hend : ∀ c ∈ rest.head?, isSpace c = false) : words (gap ++ rest) = words rest := by
    by_cases hne : gap = []
    · rw [hne, List.nil_append]
    · rw [words, splitBy_append_of_uniform hne hgap fun d hd => by simp [hend d hd],
        List.filter_cons_of_neg (by simpa using hgap)]
      rfl
  obtain ⟨gap', back, rfl, hgap', hback⟩ := exists_leading isSpace rest
  rw [← List.append_assoc, key hgap' hback]
  refine key (fun c hc => ?_) hback
  exact (List.mem_append.mp hc).elim (hgap c) (hgap' c)

theorem spaced_words (cs : List Char) : Spaced (words cs) cs := by
  induction hn : cs.length using Nat.strong_induction_on generalizing cs with
  | _ n ih =>
    obtain ⟨gap, back, rfl, hgap, hback⟩ := exists_leading isSpace cs
    obtain ⟨word, rest, rfl, hword, hrest⟩ := exists_leading (fun c => !isSpace c) back
    simp only [Bool.not_eq_eq_eq_not, Bool.not_true, Bool.not_false] at hword hrest
    rw [words_gap_append hgap]
    by_cases hne : word = []
    · have hnil : rest = [] := by
        rw [hne, List.nil_append] at hback
        cases rest with
        | nil => rfl
        | cons c rest => cases (hrest c rfl).symm.trans (hback c rfl)
      rw [hne, hnil, List.append_nil, List.append_nil, words_nil]
      exact .nil hgap
    · have hlt : rest.length < n := by
        have hpos := List.length_pos_of_ne_nil hne
        simp only [List.length_append] at hn
        omega
      rw [words_word_append hne hword hrest, ← List.append_assoc]
      exact .cons hgap hne hword hrest (ih _ hlt rest rfl)

theorem words_eq_iff {ws : List (List Char)} {cs : List Char} : words cs = ws ↔ Spaced ws cs := by
  constructor
  · rintro rfl
    exact spaced_words cs
  · intro h
    induction h with
    | @nil gap hgap => rw [← List.append_nil gap, words_gap_append hgap, words_nil]
    | @cons gap word rest ws hgap hne hword hend hrest ih =>
      rw [List.append_assoc, words_gap_append hgap, words_word_append hne hword hend, ih]

/-- A line of the words `p cnf V C`. -/
def IsLine (header : Header) (line : List Char) : Prop :=
  ∃ varCount clauseCount, Spaced [['p'], ['c', 'n', 'f'], varCount, clauseCount] line ∧
    Decimal.readBelow? Word.bound64 varCount = some header.numVariables ∧
    Decimal.readBelow? Word.bound64 clauseCount = some header.numClauses

theorem parse_eq_ok_iff {line : List Char} {header : Header} :
    parse line = .ok header ↔ IsLine header line := by
  constructor
  · intro h
    unfold parse at h
    split at h
    case h_1 varCount clauseCount hwords =>
      split at h
      case h_1 numVariables numClauses hv hc =>
        cases h
        exact ⟨varCount, clauseCount, words_eq_iff.mp hwords, hv, hc⟩
      case h_2 => cases h
    case h_2 => cases h
  · rintro ⟨varCount, clauseCount, hspaced, hv, hc⟩
    simp only [parse, words_eq_iff.mpr hspaced, hv, hc]

end Header

/-! ## Numbers -/

/-- A number that a constraint may hold: one of 32 bits with a sign, and not 0. -/
def IsLiteral (n : Int) : Prop :=
  n ≠ 0 ∧ -(Word.bound32 / 2 : Int) ≤ n ∧ n < (Word.bound32 / 2 : Int)

instance (n : Int) : Decidable (IsLiteral n) :=
  inferInstanceAs (Decidable (n ≠ 0 ∧ -(Word.bound32 / 2 : Int) ≤ n ∧ n < (Word.bound32 / 2 : Int)))

/-- How a number is written: its decimal digits, behind a minus if it is negative. -/
def numeral (n : Int) : List Char :=
  if n < 0 then '-' :: Nat.toDigits 10 n.natAbs else Nat.toDigits 10 n.natAbs

theorem isNonzeroDigit_iff {c : Char} :
    Reader.isNonzeroDigit c ↔ c.isDigit ∧ 0 < c.toNat - '0'.toNat := by
  simp only [Reader.isNonzeroDigit, Bool.and_eq_true, decide_eq_true_eq, Char.isDigit_iff_toNat,
    Char.le_def, UInt32.le_iff_toNat_le]
  change 49 ≤ c.toNat ∧ c.toNat ≤ 57 ↔ (48 ≤ c.toNat ∧ c.toNat ≤ 57) ∧ 0 < c.toNat - 48
  omega

theorem isDigit_of_isNonzeroDigit {c : Char} (h : Reader.isNonzeroDigit c) : c.isDigit :=
  (isNonzeroDigit_iff.mp h).1

theorem isNonzeroDigit_digitChar {n : Nat} (hpos : 0 < n) (hlt : n < 10) :
    Reader.isNonzeroDigit n.digitChar := by
  rw [isNonzeroDigit_iff, Nat.isDigit_digitChar, Nat.toNat_digitChar_of_lt_ten hlt]
  change decide (n < 10) = true ∧ 0 < 48 + n - 48
  exact ⟨decide_eq_true hlt, by omega⟩

theorem toDigits_toNat_sub {c : Char} (h : c.isDigit) :
    c.toNat - '0'.toNat < 10 ∧ Nat.toDigits 10 (c.toNat - '0'.toNat) = [c] := by
  rw [Char.isDigit_iff_toNat] at h
  change 48 ≤ c.toNat ∧ c.toNat ≤ 57 at h
  change c.toNat - 48 < 10 ∧ Nat.toDigits 10 (c.toNat - 48) = [c]
  have hlt : c.toNat - 48 < 10 := by omega
  refine ⟨hlt, ?_⟩
  rw [Nat.toDigits_of_lt_base hlt, List.singleton_inj, ← Char.toNat_inj,
    Nat.toNat_digitChar_of_lt_ten hlt]
  omega

theorem readDigits_toDigits (n : Nat) : Decimal.readDigits (Nat.toDigits 10 n) = n :=
  Nat.ofDigitChars_ten_toDigits

theorem readDigits_concat (ds : List Char) (c : Char) :
    Decimal.readDigits (ds ++ [c]) = 10 * Decimal.readDigits ds + (c.toNat - '0'.toNat) :=
  List.foldl_concat ..

/-- Digits that do not start with 0 are the digits of what they are read as. -/
theorem toDigits_readDigits {d : Char} {ds : List Char} (hd : Reader.isNonzeroDigit d)
    (hds : ∀ c ∈ ds, c.isDigit) :
    0 < Decimal.readDigits (d :: ds) ∧
      Nat.toDigits 10 (Decimal.readDigits (d :: ds)) = d :: ds := by
  induction ds using List.reverseRecOn with
  | nil =>
    have hvalue : Decimal.readDigits [d] = d.toNat - '0'.toNat := by simp [Decimal.readDigits]
    rw [hvalue]
    exact ⟨(isNonzeroDigit_iff.mp hd).2, (toDigits_toNat_sub (isDigit_of_isNonzeroDigit hd)).2⟩
  | append_singleton ds c ih =>
    obtain ⟨hpos, hdigits⟩ := ih fun c hc => hds c (List.mem_append_left _ hc)
    obtain ⟨hlt, hc⟩ := toDigits_toNat_sub (hds c (by simp))
    rw [← List.cons_append, readDigits_concat, ← Nat.toDigits_append_toDigits (by decide) hpos hlt,
      hdigits, hc]
    exact ⟨by omega, rfl⟩

/-- The digits of a number other than 0 do not start with 0. -/
theorem exists_toDigits_eq_cons {n : Nat} (hn : n ≠ 0) :
    ∃ d ds, Nat.toDigits 10 n = d :: ds ∧ Reader.isNonzeroDigit d ∧ ∀ c ∈ ds, c.isDigit := by
  induction n using Nat.strong_induction_on with
  | _ n ih =>
    rw [Nat.toDigits_eq_if (by decide)]
    split
    case isTrue hlt =>
      exact ⟨_, [], rfl, isNonzeroDigit_digitChar (Nat.pos_of_ne_zero hn) hlt, by simp⟩
    case isFalse hge =>
      obtain ⟨d, ds, hds, hd, hdigits⟩ := ih (n / 10) (by omega) (by omega)
      refine ⟨d, ds ++ [(n % 10).digitChar], by rw [hds, List.cons_append], hd, fun c hc => ?_⟩
      obtain hc | hc := List.mem_append.mp hc
      · exact hdigits c hc
      · rw [List.mem_singleton.mp hc, Nat.isDigit_digitChar]
        exact decide_eq_true (Nat.mod_lt n (by decide))

theorem readNat?_digits {d : Char} {ds : List Char} (hd : Reader.isNonzeroDigit d)
    (hds : ∀ c ∈ ds, c.isDigit) :
    Decimal.readNat? (d :: ds) = some (Decimal.readDigits (d :: ds)) := by
  have hall : (d :: ds).all Char.isDigit := by simpa [isDigit_of_isNonzeroDigit hd] using hds
  simp [Decimal.readNat?, hall]

theorem readInt?_digits {d : Char} {ds : List Char} (hd : Reader.isNonzeroDigit d)
    (hds : ∀ c ∈ ds, c.isDigit) :
    Decimal.readInt? (d :: ds) = some (Decimal.readDigits (d :: ds) : Int) := by
  unfold Decimal.readInt?
  split
  case h_1 heq => exact absurd hd ((List.cons.inj heq).1 ▸ by decide)
  case h_2 heq => exact absurd hd ((List.cons.inj heq).1 ▸ by decide)
  case h_3 =>
    rw [readNat?_digits hd hds]
    rfl

theorem readInt?_numeral {n : Int} (hn : n ≠ 0) : Decimal.readInt? (numeral n) = some n := by
  obtain ⟨d, ds, hdigits, hd, hds⟩ := exists_toDigits_eq_cons (Int.natAbs_ne_zero.mpr hn)
  have hvalue := readDigits_toDigits n.natAbs
  rw [hdigits] at hvalue
  unfold numeral
  rw [hdigits]
  split
  case isTrue hneg =>
    rw [Decimal.readInt?, readNat?_digits hd hds, hvalue]
    change some (-(n.natAbs : Int)) = some n
    rw [Option.some.injEq]
    omega
  case isFalse hpos =>
    rw [readInt?_digits hd hds, hvalue, Option.some.injEq]
    omega

/-- Exactly the numbers of 32 bits are read. -/
theorem readNumber?_numeral {n m : Int} (hn : n ≠ 0) :
    Reader.readNumber? (numeral n) = some m ↔ m = n ∧ IsLiteral n := by
  rw [Reader.readNumber?, readInt?_numeral hn, Option.filter_some]
  simp only [Option.ite_none_right_eq_some, decide_eq_true_eq, Option.some.injEq, IsLiteral]
  tauto

/-- What the reader takes for a number: a nonzero digit and any others, possibly behind a minus. -/
inductive LooksNumeric : List Char → Prop
  | plain {d : Char} {ds : List Char} (hd : Reader.isNonzeroDigit d) (hds : ∀ c ∈ ds, c.isDigit) :
      LooksNumeric (d :: ds)
  | negated {d : Char} {ds : List Char} (hd : Reader.isNonzeroDigit d)
      (hds : ∀ c ∈ ds, c.isDigit) : LooksNumeric ('-' :: d :: ds)

theorem looksNumeric_numeral {n : Int} (hn : n ≠ 0) : LooksNumeric (numeral n) := by
  obtain ⟨d, ds, hdigits, hd, hds⟩ := exists_toDigits_eq_cons (Int.natAbs_ne_zero.mpr hn)
  unfold numeral
  rw [hdigits]
  split
  · exact .negated hd hds
  · exact .plain hd hds

/-- The digits are those of a number. -/
theorem LooksNumeric.exists_numeral {cs : List Char} (h : LooksNumeric cs) :
    ∃ n, n ≠ 0 ∧ cs = numeral n := by
  cases h with
  | @plain d ds hd hds =>
    obtain ⟨hpos, hdigits⟩ := toDigits_readDigits hd hds
    refine ⟨Decimal.readDigits (d :: ds), by omega, ?_⟩
    rw [numeral, if_neg (by omega), Int.natAbs_natCast, hdigits]
  | @negated d ds hd hds =>
    obtain ⟨hpos, hdigits⟩ := toDigits_readDigits hd hds
    refine ⟨-(Decimal.readDigits (d :: ds) : Int), by omega, ?_⟩
    rw [numeral, if_pos (by omega), Int.natAbs_neg, Int.natAbs_natCast, hdigits]

end ClauseLearning.Dimacs
