import ClauseLearning.Proofs.Tokens

/-!
# Layouts

A text in the format is a sequence of tokens, of which there is the header line, the `x` in front of
a parity constraint, the numbers and the zeros that close the constraints. How the tokens are laid
out is free up to where each may stand: `Layout` derives every text that shows given tokens, and
`Groups` says which constraints the tokens behind the header make up.

`Rest` is what a layout still has to hold in the midst of a line. Both are unrolled by one
character:

* `layout_cons_iff`: what the first character of a layout can be.
* `rest_comment_cons`, `rest_header_cons`, `rest_number_cons`, `rest_minus_cons`.
* `layout_tokenEnd_iff`, `layout_zeroEnd_iff`: what follows a token is set apart from it.
-/

namespace ClauseLearning.Dimacs

open Reader

/-- The characters that bytes stand for. -/
def characters (bytes : List UInt8) : List Char := bytes.map fun byte => Char.ofNat byte.toNat

/-! ## Tokens -/

inductive Token
  | header (header : Header)
  /-- The `x` in front of a parity constraint. -/
  | mark
  | number (n : Int)
  /-- The `0` behind a constraint. -/
  | close
  deriving DecidableEq, Repr

/-- The tokens make up the constraints, in order. -/
inductive Groups : List Token → List Formula.Constraint → Prop
  | nil : Groups [] []
  | clause (ns : List Int) {ts : List Token} {cs : List Formula.Constraint} (h : Groups ts cs) :
      Groups (ns.map .number ++ .close :: ts) (.clause ns :: cs)
  | parity (ns : List Int) {ts : List Token} {cs : List Formula.Constraint} (h : Groups ts cs) :
      Groups (.mark :: ns.map .number ++ .close :: ts) (.parity ns false :: cs)

/-! ## Where tokens may stand -/

/-- What is in front of a character. -/
inductive Position
  /-- Nothing but white space on its line. -/
  | lineStart
  /-- White space, and on its line nothing else but zeros. -/
  | reopened
  /-- White space, or the `x` of a parity constraint. -/
  | gap
  | tokenEnd
  /-- A zero, and on its line nothing else but zeros. -/
  | zeroEnd
  deriving DecidableEq, Repr

namespace Position

/-- Behind white space that does not end the line. -/
def blank : Position → Position
  | .lineStart => .lineStart
  | .reopened | .zeroEnd => .reopened
  | .gap | .tokenEnd => .gap

/-- Behind a zero. -/
def zero : Position → Position
  | .lineStart | .reopened => .zeroEnd
  | _ => .tokenEnd

/-- Whether a number or a zero may stand here. -/
def isFree : Position → Bool
  | .lineStart | .reopened | .gap => true
  | _ => false

/-- Whether a parity constraint may start here. -/
def isOpening : Position → Bool
  | .lineStart | .reopened => true
  | _ => false

end Position

/-- The end of the text or of a line is right ahead. -/
def EndsLine (cs : List Char) : Prop := ∀ c ∈ cs.head?, c = '\n'

instance : (cs : List Char) → Decidable (EndsLine cs)
  | [] => .isTrue (by simp [EndsLine])
  | c :: _ => decidable_of_iff (c = '\n') (by simp [EndsLine])

@[simp]
theorem endsLine_nil : EndsLine [] := fun _ hc => nomatch hc

@[simp]
theorem endsLine_cons {c : Char} {cs : List Char} : EndsLine (c :: cs) ↔ c = '\n' :=
  ⟨fun h => h c rfl, fun h _ hc => Option.some.inj hc ▸ h⟩

/-- The text shows the tokens, from a position on. White space is free, and comments and the header
are lines. -/
inductive Layout : Position → List Char → List Token → Prop
  | done {p : Position} : Layout p [] []
  | newline {p : Position} {cs : List Char} {ts : List Token} (h : Layout .lineStart cs ts) :
      Layout p ('\n' :: cs) ts
  | blank {p : Position} {c : Char} {cs : List Char} {ts : List Token} (hc : isBlank c)
      (hline : c ≠ '\n') (h : Layout p.blank cs ts) : Layout p (c :: cs) ts
  | comment {text rest : List Char} {ts : List Token} (htext : '\n' ∉ text) (hend : EndsLine rest)
      (h : Layout .tokenEnd rest ts) : Layout .lineStart ('c' :: text ++ rest) ts
  | header {text rest : List Char} {header : Header} {ts : List Token} (htext : '\n' ∉ text)
      (hend : EndsLine rest) (hline : header.IsLine ('p' :: text)) (h : Layout .tokenEnd rest ts) :
      Layout .lineStart ('p' :: text ++ rest) (.header header :: ts)
  | mark {p : Position} {cs : List Char} {ts : List Token} (hp : p.isOpening)
      (h : Layout .gap cs ts) : Layout p ('x' :: cs) (.mark :: ts)
  | number {p : Position} {n : Int} {cs : List Char} {ts : List Token} (hp : p.isFree)
      (hn : IsLiteral n) (h : Layout .tokenEnd cs ts) : Layout p (numeral n ++ cs) (.number n :: ts)
  | close {p : Position} {cs : List Char} {ts : List Token} (hp : p.isFree)
      (h : Layout p.zero cs ts) : Layout p ('0' :: cs) (.close :: ts)

/-! ## In the midst of a line -/

/-- The text ahead goes on to the end of its line, and what is behind it is as required. -/
def LineAhead (P : List Char → List Char → Prop) (cs : List Char) : Prop :=
  ∃ text rest, cs = text ++ rest ∧ '\n' ∉ text ∧ EndsLine rest ∧ P text rest

/-- The text ahead is the rest of a comment, and a layout. -/
def CommentAhead (cs : List Char) (ts : List Token) : Prop :=
  LineAhead (fun _ rest => Layout .tokenEnd rest ts) cs

/-- The text ahead is the rest of a header line, whose start was read, and a layout. -/
def HeaderAhead (start cs : List Char) (ts : List Token) : Prop :=
  LineAhead (fun text rest => ∃ header ts', header.IsLine (start ++ text) ∧
    ts = .header header :: ts' ∧ Layout .tokenEnd rest ts') cs

/-- The text ahead is the rest of a number, whose start was read, and a layout. -/
def NumberAhead (start cs : List Char) (ts : List Token) : Prop :=
  ∃ ds rest n ts', cs = ds ++ rest ∧ (∀ c ∈ ds, c.isDigit) ∧ readNumber? (start ++ ds) = some n ∧
    ts = .number n :: ts' ∧ Layout .tokenEnd rest ts'

/-- The text ahead of a reader that is in a place goes on as a layout and shows the tokens. -/
def Rest : Place → List Char → List Token → Prop
  | .lineStart, cs, ts => Layout .lineStart cs ts
  | .header text, cs, ts => HeaderAhead text.reverse cs ts
  | .comment, cs, ts => CommentAhead cs ts
  | .number token, cs, ts => NumberAhead token.reverse cs ts
  | .minus, cs, ts => ∃ d cs', cs = d :: cs' ∧ isNonzeroDigit d ∧ NumberAhead ['-', d] cs' ts
  | .between, cs, ts => Layout .gap cs ts

/-- What a character can be that a layout starts with, and what is to be behind it. -/
inductive Leads (p : Position) : Char → List Char → List Token → Prop
  | newline {cs : List Char} {ts : List Token} (h : Layout .lineStart cs ts) : Leads p '\n' cs ts
  | blank {c : Char} {cs : List Char} {ts : List Token} (hc : isBlank c) (hline : c ≠ '\n')
      (h : Layout p.blank cs ts) : Leads p c cs ts
  | comment {cs : List Char} {ts : List Token} (hp : p = .lineStart) (h : CommentAhead cs ts) :
      Leads p 'c' cs ts
  | header {cs : List Char} {ts : List Token} (hp : p = .lineStart) (h : HeaderAhead ['p'] cs ts) :
      Leads p 'p' cs ts
  | mark {cs : List Char} {ts : List Token} (hp : p.isOpening) (h : Layout .gap cs ts) :
      Leads p 'x' cs (.mark :: ts)
  | number {c : Char} {cs : List Char} {ts : List Token} (hp : p.isFree) (hc : isNonzeroDigit c)
      (h : NumberAhead [c] cs ts) : Leads p c cs ts
  | negative {cs : List Char} {ts : List Token} (hp : p.isFree) (h : Rest .minus cs ts) :
      Leads p '-' cs ts
  | close {cs : List Char} {ts : List Token} (hp : p.isFree) (h : Layout p.zero cs ts) :
      Leads p '0' cs (.close :: ts)

/-! ## Unrolling -/

variable {p : Position} {c : Char} {cs : List Char} {ts : List Token}

theorem rest_lineStart : Rest .lineStart cs ts ↔ Layout .lineStart cs ts := Iff.rfl

theorem rest_header (text : List Char) : Rest (.header text) cs ts ↔
    HeaderAhead text.reverse cs ts :=
  Iff.rfl

theorem rest_comment : Rest .comment cs ts ↔ CommentAhead cs ts := Iff.rfl

theorem rest_number (token : List Char) :
    Rest (.number token) cs ts ↔ NumberAhead token.reverse cs ts := Iff.rfl

theorem rest_between : Rest .between cs ts ↔ Layout .gap cs ts := Iff.rfl

theorem rest_minus_nil : ¬ Rest .minus [] ts := by
  rintro ⟨_, _, hcs, -⟩
  cases hcs

theorem rest_minus_cons :
    Rest .minus (c :: cs) ts ↔ isNonzeroDigit c ∧ Rest (.number [c, '-']) cs ts := by
  constructor
  · rintro ⟨_, _, hcs, hc, hahead⟩
    cases hcs
    exact ⟨hc, hahead⟩
  · rintro ⟨hc, hahead⟩
    exact ⟨c, cs, rfl, hc, hahead⟩

theorem layout_nil_iff : Layout p [] ts ↔ ts = [] := by
  constructor
  · intro h
    generalize hcs : ([] : List Char) = cs at h
    cases h with
    | done => rfl
    | number hp hn h =>
      have hnumeric := looksNumeric_numeral hn.1
      rw [(List.append_eq_nil_iff.mp hcs.symm).1] at hnumeric
      cases hnumeric
    | _ => cases hcs
  · rintro rfl
    exact .done

/-- A number is a digit or a minus, and the rest of it. -/
theorem leads_of_numeral {n : Int} {rest : List Char} (hp : p.isFree) (hn : IsLiteral n)
    (h : Layout .tokenEnd rest ts) (hcs : c :: cs = numeral n ++ rest) :
    Leads p c cs (.number n :: ts) := by
  have hread := (readNumber?_numeral hn.1).mpr ⟨rfl, hn⟩
  have hnumeric := looksNumeric_numeral hn.1
  generalize numeral n = text at hcs hread hnumeric
  cases hnumeric with
  | @plain d ds hd hds =>
    cases hcs
    exact .number hp hd ⟨ds, rest, n, ts, rfl, hds, hread, rfl, h⟩
  | @negated d ds hd hds =>
    cases hcs
    exact .negative hp ⟨d, ds ++ rest, rfl, hd, ds, rest, n, ts, rfl, hds, hread, rfl, h⟩

theorem layout_of_numeric {start ds rest : List Char} {n : Int} (hp : p.isFree)
    (hnumeric : LooksNumeric (start ++ ds)) (hread : readNumber? (start ++ ds) = some n)
    (h : Layout .tokenEnd rest ts) : Layout p (start ++ ds ++ rest) (.number n :: ts) := by
  obtain ⟨m, hm, hnumeral⟩ := hnumeric.exists_numeral
  rw [hnumeral] at hread ⊢
  obtain ⟨rfl, hn⟩ := (readNumber?_numeral hm).mp hread
  exact .number hp hn h

theorem layout_cons_iff : Layout p (c :: cs) ts ↔ Leads p c cs ts := by
  constructor
  · intro h
    generalize hcs : c :: cs = us at h
    cases h with
    | done => cases hcs
    | newline h =>
      cases hcs
      exact .newline h
    | blank hc hline h =>
      cases hcs
      exact .blank hc hline h
    | @comment text rest ts htext hend h =>
      cases hcs
      exact .comment rfl ⟨text, rest, rfl, htext, hend, h⟩
    | @header text rest header ts htext hend hline h =>
      cases hcs
      exact .header rfl ⟨text, rest, rfl, htext, hend, header, ts, hline, rfl, h⟩
    | mark hp h =>
      cases hcs
      exact .mark hp h
    | number hp hn h => exact leads_of_numeral hp hn h hcs
    | close hp h =>
      cases hcs
      exact .close hp h
  · intro h
    cases h with
    | newline h => exact .newline h
    | blank hc hline h => exact .blank hc hline h
    | comment hp h =>
      obtain ⟨text, rest, rfl, htext, hend, h⟩ := h
      subst hp
      exact .comment htext hend h
    | header hp h =>
      obtain ⟨text, rest, rfl, htext, hend, header, ts', hline, rfl, h⟩ := h
      subst hp
      exact .header htext hend hline h
    | mark hp h => exact .mark hp h
    | number hp hc h =>
      obtain ⟨ds, rest, n, ts', rfl, hds, hread, rfl, h⟩ := h
      exact layout_of_numeric hp (.plain hc hds) hread h
    | negative hp h =>
      obtain ⟨d, _, rfl, hd, ds, rest, n, ts', rfl, hds, hread, rfl, h⟩ := h
      exact layout_of_numeric hp (.negated hd hds) hread h
    | close hp h => exact .close hp h

/-! ## What sets tokens apart -/

/-- Something other than white space is right ahead. -/
def isGlued (cs : List Char) : Bool := cs.head?.any fun c => !isBlank c

/-- A `c` is ahead on the line, behind white space at most. -/
def isCommented : List Char → Bool
  | [] => false
  | c :: cs => if isBlank c && c != '\n' then isCommented cs else c == 'c'

@[simp]
theorem isGlued_nil : isGlued [] = false := rfl

@[simp]
theorem isGlued_cons : isGlued (c :: cs) = !isBlank c := rfl

@[simp]
theorem isCommented_nil : isCommented [] = false := rfl

theorem isCommented_cons :
    isCommented (c :: cs) = if isBlank c && c != '\n' then isCommented cs else c == 'c' := rfl

theorem not_isBlank_of_isDigit (h : c.isDigit) : isBlank c = false := by
  rw [Bool.eq_false_iff]
  intro hblank
  simp only [isBlank, Bool.or_eq_true, beq_iff_eq] at hblank
  obtain (((rfl | rfl) | rfl) | rfl) | rfl := hblank <;> exact absurd h (by decide)

theorem not_isBlank_of_isNonzeroDigit (h : isNonzeroDigit c) : isBlank c = false :=
  not_isBlank_of_isDigit (isDigit_of_isNonzeroDigit h)

theorem layout_newline_iff : Layout p ('\n' :: cs) ts ↔ Layout .lineStart cs ts := by
  refine ⟨fun h => ?_, .newline⟩
  generalize hc : '\n' = c at h
  cases layout_cons_iff.mp h with
  | newline h => exact h
  | blank _ hline _ => exact absurd hc.symm hline
  | number _ hdigit _ => exact absurd (hc ▸ hdigit) (by decide)
  | _ => cases hc

theorem layout_blank_iff (hc : isBlank c) (hline : c ≠ '\n') :
    Layout p (c :: cs) ts ↔ Layout p.blank cs ts := by
  refine ⟨fun h => ?_, .blank hc hline⟩
  cases layout_cons_iff.mp h with
  | newline _ => exact absurd rfl hline
  | blank _ _ h => exact h
  | number _ hdigit _ => exact absurd hc (by simp [not_isBlank_of_isNonzeroDigit hdigit])
  | _ => exact absurd hc (by decide)

/-- Behind a token there is what could be behind white space, if it is set apart. -/
theorem layout_tokenEnd_iff : Layout .tokenEnd cs ts ↔ Layout .gap cs ts ∧ isGlued cs = false := by
  cases cs with
  | nil => simp [layout_nil_iff]
  | cons c cs =>
    by_cases hc : isBlank c
    · have hglued : isGlued (c :: cs) = false := by simp [hc]
      simp only [hglued, and_true]
      by_cases hline : c = '\n'
      · rw [hline, layout_newline_iff, layout_newline_iff]
      · rw [layout_blank_iff hc hline, layout_blank_iff hc hline]
        rfl
    · have hglued : isGlued (c :: cs) = true := by simp [hc]
      simp only [hglued, Bool.true_eq_false, and_false, iff_false]
      intro h
      cases layout_cons_iff.mp h with
      | newline _ => exact hc rfl
      | blank hblank _ _ => exact hc hblank
      | comment hp _ => cases hp
      | header hp _ => cases hp
      | mark hp _ => cases hp
      | number hp _ _ => cases hp
      | negative hp _ => cases hp
      | close hp _ => cases hp

theorem layout_tokenEnd_cons_iff : Layout .tokenEnd (c :: cs) ts ↔
    isBlank c ∧ Rest (if c = '\n' then .lineStart else .between) cs ts := by
  rw [layout_tokenEnd_iff]
  by_cases hc : isBlank c
  · simp only [isGlued_cons, hc, Bool.not_true, and_true, true_and]
    by_cases hline : c = '\n'
    · rw [if_pos hline, hline, layout_newline_iff, rest_lineStart]
    · rw [if_neg hline, layout_blank_iff hc hline, rest_between]
      rfl
  · simp [hc]

/-- Behind white space and zeros there is what could be at the start of the line, apart from
comments and the header. -/
theorem layout_reopened_iff (hts : ∀ header, ts.head? ≠ some (.header header)) :
    Layout .reopened cs ts ↔ Layout .lineStart cs ts ∧ isCommented cs = false := by
  induction cs with
  | nil => simp [layout_nil_iff]
  | cons c cs ih =>
    by_cases hc : isBlank c
    · by_cases hline : c = '\n'
      · rw [hline, layout_newline_iff, layout_newline_iff]
        simp [isCommented_cons]
      · have hcommented : isCommented (c :: cs) = isCommented cs := by
          simp [isCommented_cons, hc, hline]
        rw [layout_blank_iff hc hline, layout_blank_iff hc hline, hcommented]
        exact ih
    · have hcommented : isCommented (c :: cs) = (c == 'c') := by simp [isCommented_cons, hc]
      rw [hcommented, beq_eq_false_iff_ne, layout_cons_iff, layout_cons_iff]
      constructor
      · intro h
        cases h with
        | newline _ => exact absurd rfl hc
        | blank hblank _ _ => exact absurd hblank hc
        | comment hp _ => cases hp
        | header hp _ => cases hp
        | mark hp h => exact ⟨.mark rfl h, by decide⟩
        | number hp hdigit h => exact ⟨.number rfl hdigit h, by rintro rfl; cases hdigit⟩
        | negative hp h => exact ⟨.negative rfl h, by decide⟩
        | close hp h => exact ⟨.close rfl h, by decide⟩
      · rintro ⟨h, hne⟩
        cases h with
        | newline _ => exact absurd rfl hc
        | blank hblank _ _ => exact absurd hblank hc
        | comment hp _ => exact absurd rfl hne
        | header hp h =>
          obtain ⟨text, rest, -, -, -, header, ts', -, rfl, -⟩ := h
          exact absurd rfl (hts header)
        | mark hp h => exact .mark rfl h
        | number hp hdigit h => exact .number rfl hdigit h
        | negative hp h => exact .negative rfl h
        | close hp h => exact .close rfl h

theorem layout_zeroEnd_iff (hts : ∀ header, ts.head? ≠ some (.header header)) :
    Layout .zeroEnd cs ts ↔
      Layout .lineStart cs ts ∧ isGlued cs = false ∧ isCommented cs = false := by
  cases cs with
  | nil => simp [layout_nil_iff]
  | cons c cs =>
    by_cases hc : isBlank c
    · have hglued : isGlued (c :: cs) = false := by simp [hc]
      rw [hglued, eq_self, true_and, ← layout_reopened_iff hts]
      by_cases hline : c = '\n'
      · rw [hline, layout_newline_iff, layout_newline_iff]
      · rw [layout_blank_iff hc hline, layout_blank_iff hc hline]
        rfl
    · have hglued : isGlued (c :: cs) = true := by simp [hc]
      simp only [hglued, Bool.true_eq_false, false_and, and_false, iff_false]
      intro h
      cases layout_cons_iff.mp h with
      | newline _ => exact hc rfl
      | blank hblank _ _ => exact hc hblank
      | comment hp _ => cases hp
      | header hp _ => cases hp
      | mark hp _ => cases hp
      | number hp _ _ => cases hp
      | negative hp _ => cases hp
      | close hp _ => cases hp

/-! ## Lines and numbers by their characters -/

variable {P : List Char → List Char → Prop} {start : List Char}

theorem lineAhead_nil_iff : LineAhead P [] ↔ P [] [] := by
  constructor
  · rintro ⟨text, rest, hcs, -, -, h⟩
    obtain ⟨rfl, rfl⟩ := List.append_eq_nil_iff.mp hcs.symm
    exact h
  · exact fun h => ⟨[], [], rfl, by simp, endsLine_nil, h⟩

theorem lineAhead_cons_iff :
    LineAhead P (c :: cs) ↔
      if c = '\n' then P [] (c :: cs) else LineAhead (fun text rest => P (c :: text) rest) cs := by
  split
  case isTrue hc =>
    constructor
    · rintro ⟨text, rest, hcs, htext, -, h⟩
      cases text with
      | nil =>
        rw [List.nil_append] at hcs
        exact hcs ▸ h
      | cons d text =>
        cases hcs
        exact absurd (by simp [hc]) htext
    · exact fun h => ⟨[], c :: cs, rfl, by simp, endsLine_cons.mpr hc, h⟩
  case isFalse hc =>
    constructor
    · rintro ⟨text, rest, hcs, htext, hend, h⟩
      cases text with
      | nil =>
        rw [List.nil_append] at hcs
        exact absurd (hend c (by simp [← hcs])) hc
      | cons d text =>
        cases hcs
        exact ⟨text, rest, rfl, fun hmem => htext (List.mem_cons_of_mem _ hmem), hend, h⟩
    · rintro ⟨text, rest, rfl, htext, hend, h⟩
      exact ⟨c :: text, rest, rfl, by simp [htext, Ne.symm hc], hend, h⟩

theorem numberAhead_nil_iff :
    NumberAhead start [] ts ↔ ∃ n, readNumber? start = some n ∧ ts = [.number n] := by
  constructor
  · rintro ⟨ds, rest, n, ts', hcs, -, hread, rfl, h⟩
    obtain ⟨rfl, rfl⟩ := List.append_eq_nil_iff.mp hcs.symm
    rw [List.append_nil] at hread
    exact ⟨n, hread, by rw [layout_nil_iff.mp h]⟩
  · rintro ⟨n, hread, rfl⟩
    exact ⟨[], [], n, [], rfl, by simp, by rwa [List.append_nil], rfl, .done⟩

theorem numberAhead_cons_iff :
    NumberAhead start (c :: cs) ts ↔
      if c.isDigit then NumberAhead (start ++ [c]) cs ts
      else ∃ n ts', readNumber? start = some n ∧ ts = .number n :: ts' ∧
        Layout .tokenEnd (c :: cs) ts' := by
  split
  case isTrue hc =>
    constructor
    · rintro ⟨ds, rest, n, ts', hcs, hds, hread, rfl, h⟩
      cases ds with
      | nil =>
        rw [List.nil_append] at hcs
        rw [← hcs] at h
        have hglued := (layout_tokenEnd_iff.mp h).2
        simp [not_isBlank_of_isDigit hc] at hglued
      | cons d ds =>
        cases hcs
        exact ⟨ds, rest, n, ts', rfl, fun c hc => hds c (List.mem_cons_of_mem _ hc),
          by rwa [List.append_assoc], rfl, h⟩
    · rintro ⟨ds, rest, n, ts', rfl, hds, hread, rfl, h⟩
      exact ⟨c :: ds, rest, n, ts', rfl, by simpa [hc] using hds, by
        rwa [List.append_assoc] at hread, rfl, h⟩
  case isFalse hc =>
    constructor
    · rintro ⟨ds, rest, n, ts', hcs, hds, hread, rfl, h⟩
      cases ds with
      | nil =>
        rw [List.append_nil] at hread
        rw [List.nil_append] at hcs
        exact ⟨n, ts', hread, rfl, hcs ▸ h⟩
      | cons d ds =>
        cases hcs
        exact absurd (hds c (by simp)) hc
    · rintro ⟨n, ts', hread, rfl, h⟩
      exact ⟨[], c :: cs, n, ts', rfl, by simp, by rwa [List.append_nil], rfl, h⟩

end ClauseLearning.Dimacs
