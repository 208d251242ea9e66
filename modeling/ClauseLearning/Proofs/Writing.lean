import ClauseLearning.Proofs.Layouts

/-!
# A layout of every formula

Constraints over literals are written one on a line, behind the header, each number behind a white
space. That is a layout of them (`layout_write`), and its characters are bytes (`exists_layout`).
-/

namespace ClauseLearning.Dimacs

/-! ## Writing -/

/-- The format has clauses and odd parities. -/
def IsWritable : Formula.Constraint → Prop
  | .clause ns => ∀ n ∈ ns, IsLiteral n
  | .parity ns even => even = false ∧ ∀ n ∈ ns, IsLiteral n

def tokensOf : Formula.Constraint → List Token
  | .clause ns => ns.map .number ++ [.close]
  | .parity ns _ => .mark :: ns.map .number ++ [.close]

def writeNumbers (ns : List Int) : List Char :=
  ns.flatMap (fun n => ' ' :: numeral n) ++ [' ', '0', '\n']

def writeConstraint : Formula.Constraint → List Char
  | .clause ns => writeNumbers ns
  | .parity ns _ => 'x' :: writeNumbers ns

/-- The header line behind its first character. -/
def headerText (header : Header) : List Char :=
  [' ', 'c', 'n', 'f', ' '] ++ Nat.toDigits 10 header.numVariables ++
    ' ' :: Nat.toDigits 10 header.numClauses

def write (header : Header) (cs : List Formula.Constraint) : List Char :=
  'p' :: headerText header ++ '\n' :: cs.flatMap writeConstraint

/-- The bytes that stand for characters. -/
def bytesOf (cs : List Char) : List UInt8 := cs.map fun c => c.toNat.toUInt8

/-! ## The header -/

theorem isDigit_of_mem_toDigits {n : Nat} {c : Char} (h : c ∈ Nat.toDigits 10 n) : c.isDigit :=
  Nat.isDigit_of_mem_toDigits (by decide) (by decide) h

theorem not_isSpace_of_isDigit {c : Char} (h : c.isDigit) : Header.isSpace c = false := by
  rw [Bool.eq_false_iff]
  intro hspace
  simp only [Header.isSpace, Bool.or_eq_true, Bool.and_eq_true, beq_iff_eq, decide_eq_true_eq]
    at hspace
  obtain ((rfl | hspace) | rfl) | rfl := hspace
  · cases h
  · exact absurd (Char.le_trans (Char.isDigit_iff_toNat.mp h).1 hspace.2) (by decide)
  · cases h
  · cases h

theorem readBelow?_toDigits {bound n : Nat} (h : n < bound) :
    Decimal.readBelow? bound (Nat.toDigits 10 n) = some n := by
  obtain ⟨d, ds, hdigits⟩ := List.exists_cons_of_ne_nil (Nat.toDigits_ne_nil (n := n) (b := 10))
  have hall (c : Char) (hc : c ∈ d :: ds) : c.isDigit := isDigit_of_mem_toDigits (hdigits ▸ hc)
  have hread : Decimal.readNat? (d :: ds) = some n := by
    have hvalue := readDigits_toDigits n
    rw [hdigits] at hvalue
    have hallDigits : (d :: ds).all Char.isDigit := List.all_eq_true.mpr hall
    simp [Decimal.readNat?, hallDigits, hvalue]
  rw [hdigits]
  unfold Decimal.readBelow?
  split
  case h_1 heq => exact absurd (hall d (by simp)) ((List.cons.inj heq).1 ▸ by decide)
  case h_2 => simp [hread, h]

theorem isLine_headerText {header : Header} (hvariables : header.numVariables < Word.bound64)
    (hclauses : header.numClauses < Word.bound64) : header.IsLine ('p' :: headerText header) := by
  refine ⟨_, _, ?_, readBelow?_toDigits hvariables, readBelow?_toDigits hclauses⟩
  have hdigits (n : Nat) (c : Char) (hc : c ∈ Nat.toDigits 10 n) : Header.isSpace c = false :=
    not_isSpace_of_isDigit (isDigit_of_mem_toDigits hc)
  have hgap : ∀ c ∈ [' '], Header.isSpace c := by simp [Header.isSpace]
  have hend (rest : List Char) : ∀ c ∈ ([' '] ++ rest).head?, Header.isSpace c := by
    simp [Header.isSpace]
  have h : Header.Spaced [Nat.toDigits 10 header.numClauses]
      ([' '] ++ Nat.toDigits 10 header.numClauses ++ []) :=
    .cons hgap Nat.toDigits_ne_nil (hdigits _) (by simp) (.nil (by simp))
  replace h := Header.Spaced.cons hgap Nat.toDigits_ne_nil (hdigits header.numVariables) (hend _) h
  replace h := h.cons hgap (by decide : ['c', 'n', 'f'] ≠ []) (by simp [Header.isSpace]) (hend _)
  have hnone : ∀ c ∈ ([] : List Char), Header.isSpace c := by simp
  replace h := h.cons hnone (by decide : ['p'] ≠ []) (by simp [Header.isSpace]) (hend _)
  simpa [headerText] using h

/-! ## The text -/

theorem layout_writeNumbers {p : Position} {ns : List Int} (hns : ∀ n ∈ ns, IsLiteral n)
    {rest : List Char} {ts : List Token} (h : Layout .lineStart rest ts) :
    Layout p (writeNumbers ns ++ rest) (ns.map .number ++ .close :: ts) := by
  -- A number may stand behind white space wherever that is.
  have hfree (p : Position) : p.blank.isFree := by cases p <;> rfl
  induction ns generalizing p with
  | nil => exact .blank rfl (by decide) (.close (hfree p) (.newline h))
  | cons n ns ih =>
    have hothers := ih (p := .tokenEnd) fun m hm => hns m (List.mem_cons_of_mem n hm)
    have hlayout := Layout.number (hfree p) (hns n List.mem_cons_self) hothers
    simpa [writeNumbers] using Layout.blank (c := ' ') rfl (by decide) hlayout

theorem layout_writeConstraint {c : Formula.Constraint} (hc : IsWritable c) {rest : List Char}
    {ts : List Token} (h : Layout .lineStart rest ts) :
    Layout .lineStart (writeConstraint c ++ rest) (tokensOf c ++ ts) := by
  cases c with
  | clause ns => simpa [tokensOf, writeConstraint] using layout_writeNumbers hc h
  | parity ns even =>
    simpa [tokensOf, writeConstraint] using Layout.mark rfl (layout_writeNumbers hc.2 h)

theorem layout_write {header : Header} {cs : List Formula.Constraint}
    (hvariables : header.numVariables < Word.bound64) (hclauses : header.numClauses < Word.bound64)
    (hcs : ∀ c ∈ cs, IsWritable c) :
    Layout .lineStart (write header cs) (.header header :: cs.flatMap tokensOf) := by
  have hconstraints : Layout .lineStart (cs.flatMap writeConstraint) (cs.flatMap tokensOf) := by
    induction cs with
    | nil => exact .done
    | cons c cs ih =>
      rw [List.flatMap_cons, List.flatMap_cons]
      exact layout_writeConstraint (hcs c List.mem_cons_self)
        (ih fun c' hc' => hcs c' (List.mem_cons_of_mem c hc'))
  have htext : '\n' ∉ headerText header := by
    have hdigits (n : Nat) : '\n' ∉ Nat.toDigits 10 n := fun h =>
      absurd (isDigit_of_mem_toDigits h) (by decide)
    simp [headerText, hdigits]
  exact .header htext (by simp) (isLine_headerText hvariables hclauses) (.newline hconstraints)

theorem groups_flatMap_tokensOf {cs : List Formula.Constraint} (hcs : ∀ c ∈ cs, IsWritable c) :
    Groups (cs.flatMap tokensOf) cs := by
  induction cs with
  | nil => exact .nil
  | cons c cs ih =>
    have hothers := ih fun c' hc' => hcs c' (List.mem_cons_of_mem c hc')
    have hc := hcs c List.mem_cons_self
    cases c with
    | clause ns => simpa [tokensOf] using Groups.clause ns hothers
    | parity ns even =>
      obtain ⟨rfl, -⟩ := hc
      simpa [tokensOf] using Groups.parity ns hothers

/-! ## The bytes -/

theorem characters_bytesOf {cs : List Char} (h : ∀ c ∈ cs, c.toNat < 256) :
    characters (bytesOf cs) = cs := by
  rw [characters, bytesOf, List.map_map]
  conv_rhs => rw [← List.map_id cs]
  refine List.map_congr_left fun c hc => ?_
  have hbyte : c.toNat.toUInt8.toNat = c.toNat := Nat.mod_eq_of_lt (h c hc)
  rw [Function.comp_apply, hbyte, Char.ofNat_toNat, id]

theorem toNat_lt_of_mem_toDigits {n : Nat} : ∀ c ∈ Nat.toDigits 10 n, c.toNat < 256 := fun c hc =>
  Nat.lt_of_le_of_lt (Char.isDigit_iff_toNat.mp (isDigit_of_mem_toDigits hc)).2 (by decide)

theorem toNat_lt_of_mem_numeral {n : Int} : ∀ c ∈ numeral n, c.toNat < 256 := by
  unfold numeral
  split
  · exact List.forall_mem_cons.mpr ⟨by decide, toNat_lt_of_mem_toDigits⟩
  · exact toNat_lt_of_mem_toDigits

theorem toNat_lt_of_mem_writeNumbers {ns : List Int} : ∀ c ∈ writeNumbers ns, c.toNat < 256 := by
  refine List.forall_mem_append.mpr ⟨fun c hc => ?_, by simp⟩
  obtain ⟨n, -, hc⟩ := List.mem_flatMap.mp hc
  exact List.forall_mem_cons.mpr ⟨by decide, toNat_lt_of_mem_numeral⟩ c hc

theorem toNat_lt_of_mem_writeConstraint {k : Formula.Constraint} :
    ∀ c ∈ writeConstraint k, c.toNat < 256 := by
  cases k with
  | clause ns => exact toNat_lt_of_mem_writeNumbers
  | parity ns even => exact List.forall_mem_cons.mpr ⟨by decide, toNat_lt_of_mem_writeNumbers⟩

theorem toNat_lt_of_mem_write {header : Header} {cs : List Formula.Constraint} :
    ∀ c ∈ write header cs, c.toNat < 256 := by
  have htext : ∀ c ∈ headerText header, c.toNat < 256 := by
    refine List.forall_mem_append.mpr ⟨List.forall_mem_append.mpr ⟨by simp, ?_⟩,
      List.forall_mem_cons.mpr ⟨by decide, ?_⟩⟩ <;> exact toNat_lt_of_mem_toDigits
  refine List.forall_mem_append.mpr ⟨List.forall_mem_cons.mpr ⟨by decide, htext⟩,
    List.forall_mem_cons.mpr ⟨by decide, fun c hc => ?_⟩⟩
  obtain ⟨k, -, hc⟩ := List.mem_flatMap.mp hc
  exact toNat_lt_of_mem_writeConstraint c hc

/-- Every list of constraints that the format has is shown by some text. -/
theorem exists_layout {header : Header} {cs : List Formula.Constraint}
    (hvariables : header.numVariables < Word.bound64) (hclauses : header.numClauses < Word.bound64)
    (hcs : ∀ c ∈ cs, IsWritable c) :
    ∃ bytes ts, Layout .lineStart (characters bytes) (.header header :: ts) ∧ Groups ts cs := by
  refine ⟨bytesOf (write header cs), _, ?_, groups_flatMap_tokensOf hcs⟩
  rw [characters_bytesOf toNat_lt_of_mem_write]
  exact layout_write hvariables hclauses hcs

end ClauseLearning.Dimacs
