import ClauseLearning.Proofs.Gathering

/-!
# What the reader accepts

The reader accepts every layout, and it reads from it the constraints that the tokens make up
(`parseChunks_layout`). It accepts other texts as well, but those all hold one of a few things that
it lets pass (`Reader.lapses`); a text that it accepts without such a lapse is a layout of the
constraints that were read (`parse_layout_iff`).

Both follow from one statement about every moment of a run (`Reader.awaits_iff`): the text ahead
goes on as a layout, to the formula that is read in the end, exactly if it is accepted without a
lapse. That is so at the end of the text (`Reader.awaits_nil_iff`) and kept by each character, in
each of the places that the reader may be in (`Reader.awaits_cons_iff`).
-/

namespace ClauseLearning.Dimacs

namespace Reader

variable {r r' : Reader} {c : Char} {cs : List Char} {text token : List Char} {f : Formula}

/-- Reads the text ahead, to its end. -/
def outcome : List Char → Reader → Except Error Formula
  | [], r => r.complete
  | c :: cs, r =>
    match r.step c with
    | .ok r => outcome cs r
    | .error e => .error e

theorem parse_eq_outcome (bytes : List UInt8) : parse bytes = start.outcome (characters bytes) := by
  unfold parse
  generalize start = r
  induction bytes generalizing r with
  | nil => rfl
  | cons byte bytes ih =>
    simp only [feed, characters, List.map_cons, outcome]
    cases r.step (Char.ofNat byte.toNat) with
    | ok r => exact ih r
    | error e => rfl

/-! ## What the reader lets pass -/

/-- Whether the reader lets the text ahead pass although no layout goes on like this: a minus at the
end of the text, a header behind the start of a constraint, a second `x`, or a zero with another
token right behind it, or with a comment behind it on a line that holds only zeros. -/
def lapses (cs : List Char) (r : Reader) : Bool :=
  match r.place, cs with
  | .minus, [] => true
  | .header _, _ => !r.pending.isEmpty
  | .lineStart, c :: cs => c == 'x' && r.isParity || c == '0' && (isGlued cs || isCommented cs)
  | .between, c :: cs => c == '0' && isGlued cs
  | _, _ => false

/-- The reader never lets anything pass, as far as it goes. -/
def careful : List Char → Reader → Bool
  | [], r => !r.lapses []
  | c :: cs, r =>
    !r.lapses (c :: cs) &&
      match r.step c with
      | .ok r => careful cs r
      | .error _ => true

/-! ## Each place -/

theorem lapses_lineStart (hplace : r.place = .lineStart) : r.lapses (c :: cs) =
    (c == 'x' && r.isParity || c == '0' && (isGlued cs || isCommented cs)) := by
  cases r
  cases hplace
  rfl

theorem lapses_between (hplace : r.place = .between) :
    r.lapses (c :: cs) = (c == '0' && isGlued cs) := by
  cases r
  cases hplace
  rfl

theorem lapses_header (hplace : r.place = .header text) : r.lapses cs = !r.pending.isEmpty := by
  cases r
  cases hplace
  rfl

theorem lapses_comment (hplace : r.place = .comment) : r.lapses cs = false := by
  cases r
  cases hplace
  rfl

theorem lapses_number (hplace : r.place = .number token) : r.lapses cs = false := by
  cases r
  cases hplace
  rfl

theorem lapses_minus_cons (hplace : r.place = .minus) : r.lapses (c :: cs) = false := by
  cases r
  cases hplace
  rfl

theorem step_lineStart (hplace : r.place = .lineStart) : r.step c =
    if isBlank c then .ok r
    else if c = 'p' then .ok { r with place := .header ['p'] }
    else if c = 'c' then .ok { r with place := .comment }
    else if c = 'x' ∧ r.current = [] then .ok { r with isParity := true, place := .between }
    else if isNonzeroDigit c then .ok { r with place := .number [c] }
    else if c = '0' then r.endConstraint
    else if c = '-' then .ok { r with place := .minus }
    else .error (.unexpectedCharacter c) := by
  cases r
  cases hplace
  rfl

theorem step_between (hplace : r.place = .between) : r.step c =
    if c = '0' then r.endConstraint
    else if c = '\n' then .ok { r with place := .lineStart }
    else if isBlank c then .ok r
    else if isNonzeroDigit c then .ok { r with place := .number [c] }
    else if c = '-' then .ok { r with place := .minus }
    else .error (.unexpectedCharacter c) := by
  cases r
  cases hplace
  rfl

theorem step_header (hplace : r.place = .header text) : r.step c =
    if c = '\n' then (r.endHeader text).bind fun r => .ok { r with place := .lineStart }
    else .ok { r with place := .header (c :: text) } := by
  cases r
  cases hplace
  rfl

theorem step_comment (hplace : r.place = .comment) :
    r.step c = .ok (if c = '\n' then { r with place := .lineStart } else r) := by
  cases r
  cases hplace
  rfl

theorem step_number (hplace : r.place = .number token) : r.step c =
    if isBlank c then
      (r.endNumber token).bind fun r => .ok (if c = '\n' then { r with place := .lineStart } else r)
    else if c.isDigit then .ok { r with place := .number (c :: token) }
    else .error (.unexpectedCharacter c) := by
  cases r
  cases hplace
  rfl

theorem step_behind_minus (hplace : r.place = .minus) : r.step c =
    if isNonzeroDigit c then .ok { r with place := .number [c, '-'] }
    else .error (.unexpectedCharacter c) := by
  cases r
  cases hplace
  rfl

/-! ## Ends of tokens -/

theorem bind_eq_ok_iff {α β : Type} {x : Except Error α} {g : α → Except Error β} {b : β} :
    x.bind g = .ok b ↔ ∃ a, x = .ok a ∧ g a = .ok b := by
  cases x with
  | error e => simp [Except.bind]
  | ok a => simp [Except.bind]

theorem endHeader_eq_ok_iff : r.endHeader text = .ok r' ↔
    r.header = none ∧ ∃ header : Header, header.IsLine text.reverse ∧ r' = r.opened header := by
  unfold endHeader
  cases hheader : r.header with
  | some header => simp
  | none =>
    simp only [← Header.parse_eq_ok_iff]
    cases Header.parse text.reverse with
    | error e => simp [bind, Except.bind]
    | ok header => simp [bind, Except.bind, pure, Except.pure, opened, eq_comm]

theorem endNumber_eq_ok_iff : r.endNumber token = .ok r' ↔
    ∃ n, readNumber? token.reverse = some n ∧
      r' = { r with current := n :: r.current, place := .between } := by
  unfold endNumber
  cases readNumber? token.reverse with
  | none => simp
  | some n => simp [eq_comm]

theorem endConstraint_eq_ok_iff : r.endConstraint = .ok r' ↔ r.header ≠ none ∧ r' = r.closed := by
  cases hheader : r.header with
  | none => simp [endConstraint, hheader]
  | some header =>
    have h : r.endConstraint = .ok r.closed := by
      simp only [endConstraint, closed, constraint, hheader]
    rw [h, Except.ok.injEq, eq_comm]
    simp

/-- A header comes first, or it is let pass. -/
theorem accounts_endHeader_iff {ts : List Token} :
    (∃ header : Header, header.IsLine text.reverse ∧ r.Accounts (.header header :: ts) f) ↔
      r.pending = [] ∧ ∃ r', r.endHeader text = .ok r' ∧ r'.Accounts ts f := by
  simp only [accounts_header_iff, endHeader_eq_ok_iff]
  constructor
  · rintro ⟨header, hline, hnone, hpending, h⟩
    exact ⟨hpending, _, ⟨hnone, header, hline, rfl⟩, h⟩
  · rintro ⟨hpending, _, ⟨hnone, header, hline, rfl⟩, h⟩
    exact ⟨header, hline, hnone, hpending, h⟩

theorem accounts_endNumber_iff {ts : List Token} :
    (∃ n, readNumber? token.reverse = some n ∧ r.Accounts (.number n :: ts) f) ↔
      ∃ r', r.endNumber token = .ok r' ∧ r'.Accounts ts f := by
  simp only [endNumber_eq_ok_iff, ← accounts_number_iff _ .between]
  constructor
  · rintro ⟨n, hread, h⟩
    exact ⟨_, ⟨n, hread, rfl⟩, h⟩
  · rintro ⟨_, ⟨n, hread, rfl⟩, h⟩
    exact ⟨n, hread, h⟩

/-! ## At the end of the text -/

/-- The text ahead goes on as a layout, and its tokens complete the formula. -/
def Awaits (r : Reader) (cs : List Char) (f : Formula) : Prop :=
  ∃ ts, Rest r.place cs ts ∧ r.Accounts ts f

/-- What is checked at the end of the text, outside of tokens. -/
def conclude (r : Reader) : Except Error Formula :=
  match r.header with
  | none => .error .missingHeader
  | some header =>
    if r.current ≠ [] ∨ r.isParity then .error .unterminatedClause
    else if header.numClauses ≠ r.numRead then
      .error (.incorrectClauseCount header.numClauses r.numRead)
    else .ok r.formula

theorem conclude_eq_ok_iff : r.conclude = .ok f ↔ r.Accounts [] f := by
  rw [accounts_nil_iff, conclude]
  cases r.header with
  | none => simp
  | some header =>
    rw [pending_eq_nil_iff]
    simp only [Option.some.injEq, exists_eq_left']
    split_ifs with hopen hcount
    · simp only [false_iff]
      rintro ⟨⟨hparity, hcurrent⟩, -⟩
      simp [hparity, hcurrent] at hopen
    · simp [hcount]
    · simp only [ne_eq, not_or, not_not, Bool.not_eq_true] at hopen hcount
      simp [hopen, hcount, eq_comm]

theorem complete_eq_ok_iff (hheader : ∀ text, r.place ≠ .header text)
    (hnumber : ∀ token, r.place ≠ .number token) : r.complete = .ok f ↔ r.Accounts [] f := by
  rw [← conclude_eq_ok_iff]
  suffices r.complete = r.conclude by rw [this]
  unfold complete
  split
  · exact absurd ‹_› (hnumber _)
  · exact absurd ‹_› (hheader _)
  · rfl

theorem complete_header_eq_ok_iff (h : r.place = .header text) :
    r.complete = .ok f ↔ ∃ r', r.endHeader text = .ok r' ∧ r'.Accounts [] f := by
  have hcomplete : r.complete = (r.endHeader text).bind conclude := by
    unfold complete
    rw [h]
    rfl
  simp only [hcomplete, bind_eq_ok_iff, conclude_eq_ok_iff]

theorem complete_number_eq_ok_iff (h : r.place = .number token) :
    r.complete = .ok f ↔ ∃ r', r.endNumber token = .ok r' ∧ r'.Accounts [] f := by
  have hcomplete : r.complete = (r.endNumber token).bind conclude := by
    unfold complete
    rw [h]
    rfl
  simp only [hcomplete, bind_eq_ok_iff, conclude_eq_ok_iff]

theorem awaits_place (place : Place) :
    { r with place := place }.Awaits cs f ↔ ∃ ts, Rest place cs ts ∧ r.Accounts ts f := by
  simp only [Awaits, accounts_place]

theorem awaits_nil_iff : r.Awaits [] f ↔ r.lapses [] = false ∧ r.complete = .ok f := by
  unfold Awaits lapses
  cases hplace : r.place with
  | lineStart =>
    rw [complete_eq_ok_iff (by simp [hplace]) (by simp [hplace])]
    simp [rest_lineStart, layout_nil_iff]
  | between =>
    rw [complete_eq_ok_iff (by simp [hplace]) (by simp [hplace])]
    simp [rest_between, layout_nil_iff]
  | comment =>
    rw [complete_eq_ok_iff (by simp [hplace]) (by simp [hplace])]
    simp [rest_comment, CommentAhead, lineAhead_nil_iff, layout_nil_iff]
  | minus => simp [rest_minus_nil]
  | header text =>
    rw [complete_header_eq_ok_iff hplace, Bool.not_eq_false', List.isEmpty_iff,
      ← accounts_endHeader_iff]
    simp only [rest_header, HeaderAhead, lineAhead_nil_iff, List.append_nil, layout_nil_iff]
    constructor
    · rintro ⟨_, ⟨header, _, hline, rfl, rfl⟩, h⟩
      exact ⟨header, hline, h⟩
    · rintro ⟨header, hline, h⟩
      exact ⟨_, ⟨header, _, hline, rfl, rfl⟩, h⟩
  | number token =>
    rw [complete_number_eq_ok_iff hplace, ← accounts_endNumber_iff]
    simp only [rest_number, numberAhead_nil_iff, true_and]
    constructor
    · rintro ⟨_, ⟨n, hread, rfl⟩, h⟩
      exact ⟨n, hread, h⟩
    · rintro ⟨n, hread, h⟩
      exact ⟨_, ⟨n, hread, rfl⟩, h⟩

/-! ## Steps -/

theorem ne_of_isNonzeroDigit {d : Char} (hc : isNonzeroDigit c) (hd : isNonzeroDigit d = false) :
    c ≠ d := by
  rintro rfl
  rw [hc] at hd
  cases hd

theorem ne_of_isBlank {d : Char} (hc : isBlank c) (hd : isBlank d = false) : c ≠ d := by
  rintro rfl
  rw [hc] at hd
  cases hd

theorem step_digit (hplace : r.place = .lineStart ∨ r.place = .between) (hc : isNonzeroDigit c) :
    r.step c = .ok { r with place := .number [c] } := by
  have hblank := not_isBlank_of_isNonzeroDigit hc
  have hp := ne_of_isNonzeroDigit hc (d := 'p') rfl
  have hcomment := ne_of_isNonzeroDigit hc (d := 'c') rfl
  have hx := ne_of_isNonzeroDigit hc (d := 'x') rfl
  have hzero := ne_of_isNonzeroDigit hc (d := '0') rfl
  have hline := ne_of_isNonzeroDigit hc (d := '\n') rfl
  obtain hplace | hplace := hplace
  · simp [step_lineStart hplace, hc, hblank, hp, hcomment, hx]
  · simp [step_between hplace, hc, hblank, hzero, hline]

theorem step_minus (hplace : r.place = .lineStart ∨ r.place = .between) :
    r.step '-' = .ok { r with place := .minus } := by
  obtain hplace | hplace := hplace
  · simp [step_lineStart hplace, isBlank, isNonzeroDigit]
  · simp [step_between hplace, isBlank, isNonzeroDigit]

theorem step_zero (hplace : r.place = .lineStart ∨ r.place = .between) :
    r.step '0' = r.endConstraint := by
  obtain hplace | hplace := hplace
  · simp [step_lineStart hplace, isBlank, isNonzeroDigit]
  · simp [step_between hplace]

theorem step_number_blank (hplace : r.place = .number token) (hc : isBlank c) :
    r.step c = (r.endNumber token).bind fun r =>
      .ok { r with place := if c = '\n' then .lineStart else .between } := by
  rw [step_number hplace, if_pos hc]
  cases hend : r.endNumber token with
  | error e => rfl
  | ok r' =>
    obtain ⟨n, -, rfl⟩ := endNumber_eq_ok_iff.mp hend
    by_cases hline : c = '\n' <;> simp [hline, Except.bind]

/-! ## Character by character -/

theorem awaits_comment_cons (hplace : r.place = .comment) : r.Awaits (c :: cs) f ↔
    r.lapses (c :: cs) = false ∧ ∃ r', r.step c = .ok r' ∧ r'.Awaits cs f := by
  simp only [lapses_comment hplace, true_and, step_comment hplace, Except.ok.injEq, exists_eq_left']
  by_cases hc : c = '\n'
  · simp only [hc, if_true, accounts_place, rest_lineStart, Awaits, hplace, rest_comment,
      CommentAhead, lineAhead_cons_iff, layout_newline_iff]
  · simp only [hc, if_false, Awaits, hplace, rest_comment, CommentAhead, lineAhead_cons_iff]

theorem awaits_header_cons (hplace : r.place = .header text) : r.Awaits (c :: cs) f ↔
    r.lapses (c :: cs) = false ∧ ∃ r', r.step c = .ok r' ∧ r'.Awaits cs f := by
  have hlapses : r.lapses (c :: cs) = false ↔ r.pending = [] := by simp [lapses_header hplace]
  rw [hlapses, Awaits]
  simp only [hplace, rest_header, HeaderAhead, lineAhead_cons_iff]
  by_cases hc : c = '\n'
  · subst hc
    simp only [if_true, List.append_nil, layout_newline_iff, step_header hplace,
      bind_eq_ok_iff, Except.ok.injEq]
    constructor
    · rintro ⟨_, ⟨header, ts, hline, rfl, hlayout⟩, h⟩
      obtain ⟨hpending, r₁, hend, h⟩ := accounts_endHeader_iff.mp ⟨header, hline, h⟩
      exact ⟨hpending, _, ⟨r₁, hend, rfl⟩, (awaits_place _).mpr ⟨ts, hlayout, h⟩⟩
    · rintro ⟨hpending, _, ⟨r₁, hend, rfl⟩, h⟩
      obtain ⟨ts, hlayout, h⟩ := (awaits_place _).mp h
      obtain ⟨header, hline, h⟩ := accounts_endHeader_iff.mpr ⟨hpending, r₁, hend, h⟩
      exact ⟨_, ⟨header, ts, hline, rfl, hlayout⟩, h⟩
  · simp only [hc, if_false, step_header hplace, Except.ok.injEq, exists_eq_left', awaits_place,
      rest_header, HeaderAhead, List.reverse_cons, List.append_assoc, List.singleton_append]
    constructor
    · rintro ⟨ts, hahead, h⟩
      refine ⟨?_, ts, hahead, h⟩
      obtain ⟨_, _, -, -, -, header, ts', -, rfl, -⟩ := hahead
      exact (accounts_header_iff.mp h).2.1
    · exact And.right

theorem awaits_number_cons (hplace : r.place = .number token) : r.Awaits (c :: cs) f ↔
    r.lapses (c :: cs) = false ∧ ∃ r', r.step c = .ok r' ∧ r'.Awaits cs f := by
  rw [lapses_number hplace, Awaits]
  simp only [true_and, hplace, rest_number, numberAhead_cons_iff]
  by_cases hdigit : c.isDigit
  · have hblank := not_isBlank_of_isDigit hdigit
    simp only [step_number hplace, hblank, hdigit, Bool.false_eq_true, if_true, if_false,
      Except.ok.injEq, exists_eq_left', awaits_place, rest_number, List.reverse_cons]
  · simp only [hdigit, Bool.false_eq_true, if_false, layout_tokenEnd_cons_iff]
    by_cases hblank : isBlank c
    · simp only [hblank, true_and, step_number_blank hplace hblank, bind_eq_ok_iff, Except.ok.injEq]
      constructor
      · rintro ⟨_, ⟨n, ts, hread, rfl, hlayout⟩, h⟩
        obtain ⟨r₁, hend, h⟩ := accounts_endNumber_iff.mp ⟨n, hread, h⟩
        exact ⟨_, ⟨r₁, hend, rfl⟩, (awaits_place _).mpr ⟨ts, hlayout, h⟩⟩
      · rintro ⟨_, ⟨r₁, hend, rfl⟩, h⟩
        obtain ⟨ts, hlayout, h⟩ := (awaits_place _).mp h
        obtain ⟨n, hread, h⟩ := accounts_endNumber_iff.mpr ⟨r₁, hend, h⟩
        exact ⟨_, ⟨n, ts, hread, rfl, hlayout⟩, h⟩
    · simp [step_number hplace, hblank, hdigit]

theorem awaits_minus_cons (hplace : r.place = .minus) : r.Awaits (c :: cs) f ↔
    r.lapses (c :: cs) = false ∧ ∃ r', r.step c = .ok r' ∧ r'.Awaits cs f := by
  rw [lapses_minus_cons hplace, Awaits]
  simp only [true_and, step_behind_minus hplace, hplace, rest_minus_cons]
  by_cases hc : isNonzeroDigit c
  · simp only [hc, true_and, if_true, Except.ok.injEq, exists_eq_left', awaits_place]
  · simp [hc]

/-- What is ahead at the start of a line is what the next character lets the reader take. -/
theorem exists_step_lineStart (hplace : r.place = .lineStart) (h : r.Awaits (c :: cs) f) :
    r.lapses (c :: cs) = false ∧ ∃ r', r.step c = .ok r' ∧ r'.Awaits cs f := by
  obtain ⟨ts, hlayout, h⟩ := h
  rw [hplace, rest_lineStart, layout_cons_iff] at hlayout
  cases hlayout with
  | newline hlayout =>
    refine ⟨by simp [lapses_lineStart hplace], r,
      by simp [step_lineStart hplace, isBlank], ts, ?_, h⟩
    rwa [hplace]
  | blank hc hline hlayout =>
    have hx := ne_of_isBlank hc (d := 'x') rfl
    have hzero := ne_of_isBlank hc (d := '0') rfl
    refine ⟨by simp [lapses_lineStart hplace, hx, hzero], r, by simp [step_lineStart hplace, hc],
      ts, ?_, h⟩
    rwa [hplace]
  | comment _ hahead =>
    exact ⟨by simp [lapses_lineStart hplace], _, by simp [step_lineStart hplace, isBlank],
      (awaits_place .comment).mpr ⟨ts, hahead, h⟩⟩
  | header _ hahead =>
    exact ⟨by simp [lapses_lineStart hplace], _, by simp [step_lineStart hplace, isBlank],
      (awaits_place (.header ['p'])).mpr ⟨ts, hahead, h⟩⟩
  | @mark _ ts _ hlayout =>
    obtain ⟨hparity, hcurrent, h⟩ := (accounts_mark_iff .between).mp h
    exact ⟨by simp [lapses_lineStart hplace, hparity],
      { r with isParity := true, place := .between },
      by simp [step_lineStart hplace, isBlank, hcurrent], ts, hlayout, h⟩
  | number _ hc hahead =>
    have hx := ne_of_isNonzeroDigit hc (d := 'x') rfl
    have hzero := ne_of_isNonzeroDigit hc (d := '0') rfl
    exact ⟨by simp [lapses_lineStart hplace, hx, hzero], _, step_digit (.inl hplace) hc,
      (awaits_place (.number [c])).mpr ⟨ts, hahead, h⟩⟩
  | negative _ hahead =>
    exact ⟨by simp [lapses_lineStart hplace], _, step_minus (.inl hplace),
      (awaits_place .minus).mpr ⟨ts, hahead, h⟩⟩
  | @close _ ts _ hlayout =>
    obtain ⟨hne, h⟩ := accounts_close_iff.mp h
    obtain ⟨hlayout, hglued, hcommented⟩ :=
      (layout_zeroEnd_iff (h.head_ne_header hne)).mp hlayout
    refine ⟨by simp [lapses_lineStart hplace, hglued, hcommented], r.closed, ?_, ts, ?_, h⟩
    · rw [step_zero (.inl hplace)]
      exact endConstraint_eq_ok_iff.mpr ⟨hne, rfl⟩
    · change Rest r.place cs ts
      rwa [hplace]

/-- At the start of a line the reader takes nothing that could not be ahead. -/
theorem awaits_of_step_lineStart {r' : Reader} (hplace : r.place = .lineStart)
    (hlapses : r.lapses (c :: cs) = false) (hstep : r.step c = .ok r') (h : r'.Awaits cs f) :
    r.Awaits (c :: cs) f := by
  rw [Awaits, hplace]
  simp only [rest_lineStart, layout_cons_iff]
  simp only [step_lineStart hplace] at hstep
  split_ifs at hstep with hblank hp hc hx hdigit hzero hminus
  · cases hstep
    obtain ⟨ts, hlayout, h⟩ := h
    rw [hplace, rest_lineStart] at hlayout
    by_cases hline : c = '\n'
    · subst hline
      exact ⟨ts, .newline hlayout, h⟩
    · exact ⟨ts, .blank hblank hline hlayout, h⟩
  · cases hstep
    subst hp
    obtain ⟨ts, hahead, h⟩ := (awaits_place _).mp h
    exact ⟨ts, .header rfl hahead, h⟩
  · cases hstep
    subst hc
    obtain ⟨ts, hahead, h⟩ := (awaits_place _).mp h
    exact ⟨ts, .comment rfl hahead, h⟩
  · cases hstep
    obtain ⟨rfl, hcurrent⟩ := hx
    have hparity : r.isParity = false := by simpa [lapses_lineStart hplace] using hlapses
    obtain ⟨ts, hlayout, h⟩ := h
    exact ⟨_, .mark rfl hlayout, (accounts_mark_iff .between).mpr ⟨hparity, hcurrent, h⟩⟩
  · cases hstep
    obtain ⟨ts, hahead, h⟩ := (awaits_place _).mp h
    exact ⟨ts, .number rfl hdigit hahead, h⟩
  · subst hzero
    obtain ⟨hne, rfl⟩ := endConstraint_eq_ok_iff.mp hstep
    obtain ⟨ts, hlayout, h⟩ := h
    change Rest r.place cs ts at hlayout
    rw [hplace, rest_lineStart] at hlayout
    have hset : isGlued cs = false ∧ isCommented cs = false := by
      simpa [lapses_lineStart hplace] using hlapses
    exact ⟨_, .close rfl ((layout_zeroEnd_iff (h.head_ne_header hne)).mpr ⟨hlayout, hset⟩),
      accounts_close_iff.mpr ⟨hne, h⟩⟩
  · cases hstep
    subst hminus
    obtain ⟨ts, hahead, h⟩ := (awaits_place _).mp h
    exact ⟨ts, .negative rfl hahead, h⟩

theorem awaits_lineStart_cons (hplace : r.place = .lineStart) : r.Awaits (c :: cs) f ↔
    r.lapses (c :: cs) = false ∧ ∃ r', r.step c = .ok r' ∧ r'.Awaits cs f :=
  ⟨exists_step_lineStart hplace, fun ⟨hlapses, _, hstep, h⟩ =>
    awaits_of_step_lineStart hplace hlapses hstep h⟩

/-- What is ahead between tokens is what the next character lets the reader take. -/
theorem exists_step_between (hplace : r.place = .between) (h : r.Awaits (c :: cs) f) :
    r.lapses (c :: cs) = false ∧ ∃ r', r.step c = .ok r' ∧ r'.Awaits cs f := by
  obtain ⟨ts, hlayout, h⟩ := h
  rw [hplace, rest_between, layout_cons_iff] at hlayout
  cases hlayout with
  | newline hlayout =>
    exact ⟨by simp [lapses_between hplace], _, by simp [step_between hplace],
      (awaits_place .lineStart).mpr ⟨ts, hlayout, h⟩⟩
  | blank hc hline hlayout =>
    have hzero := ne_of_isBlank hc (d := '0') rfl
    refine ⟨by simp [lapses_between hplace, hzero], r,
      by simp [step_between hplace, hc, hzero, hline], ts, ?_, h⟩
    rwa [hplace]
  | comment hp _ => cases hp
  | header hp _ => cases hp
  | mark hp _ => cases hp
  | number _ hc hahead =>
    have hzero := ne_of_isNonzeroDigit hc (d := '0') rfl
    exact ⟨by simp [lapses_between hplace, hzero], _, step_digit (.inr hplace) hc,
      (awaits_place (.number [c])).mpr ⟨ts, hahead, h⟩⟩
  | negative _ hahead =>
    exact ⟨by simp [lapses_between hplace], _, step_minus (.inr hplace),
      (awaits_place .minus).mpr ⟨ts, hahead, h⟩⟩
  | @close _ ts _ hlayout =>
    obtain ⟨hne, h⟩ := accounts_close_iff.mp h
    obtain ⟨hlayout, hglued⟩ := layout_tokenEnd_iff.mp hlayout
    refine ⟨by simp [lapses_between hplace, hglued], r.closed, ?_, ts, ?_, h⟩
    · rw [step_zero (.inr hplace)]
      exact endConstraint_eq_ok_iff.mpr ⟨hne, rfl⟩
    · change Rest r.place cs ts
      rwa [hplace]

/-- Between tokens the reader takes nothing that could not be ahead. -/
theorem awaits_of_step_between {r' : Reader} (hplace : r.place = .between)
    (hlapses : r.lapses (c :: cs) = false) (hstep : r.step c = .ok r') (h : r'.Awaits cs f) :
    r.Awaits (c :: cs) f := by
  rw [Awaits, hplace]
  simp only [rest_between, layout_cons_iff]
  simp only [step_between hplace] at hstep
  split_ifs at hstep with hzero hline hblank hdigit hminus
  · subst hzero
    obtain ⟨hne, rfl⟩ := endConstraint_eq_ok_iff.mp hstep
    obtain ⟨ts, hlayout, h⟩ := h
    change Rest r.place cs ts at hlayout
    rw [hplace, rest_between] at hlayout
    have hglued : isGlued cs = false := by simpa [lapses_between hplace] using hlapses
    exact ⟨_, .close rfl (layout_tokenEnd_iff.mpr ⟨hlayout, hglued⟩),
      accounts_close_iff.mpr ⟨hne, h⟩⟩
  · cases hstep
    subst hline
    obtain ⟨ts, hlayout, h⟩ := (awaits_place _).mp h
    exact ⟨ts, .newline hlayout, h⟩
  · cases hstep
    obtain ⟨ts, hlayout, h⟩ := h
    rw [hplace, rest_between] at hlayout
    exact ⟨ts, .blank hblank hline hlayout, h⟩
  · cases hstep
    obtain ⟨ts, hahead, h⟩ := (awaits_place _).mp h
    exact ⟨ts, .number rfl hdigit hahead, h⟩
  · cases hstep
    subst hminus
    obtain ⟨ts, hahead, h⟩ := (awaits_place _).mp h
    exact ⟨ts, .negative rfl hahead, h⟩

theorem awaits_between_cons (hplace : r.place = .between) : r.Awaits (c :: cs) f ↔
    r.lapses (c :: cs) = false ∧ ∃ r', r.step c = .ok r' ∧ r'.Awaits cs f :=
  ⟨exists_step_between hplace, fun ⟨hlapses, _, hstep, h⟩ =>
    awaits_of_step_between hplace hlapses hstep h⟩

theorem awaits_cons_iff : r.Awaits (c :: cs) f ↔
    r.lapses (c :: cs) = false ∧ ∃ r', r.step c = .ok r' ∧ r'.Awaits cs f := by
  cases hplace : r.place with
  | lineStart => exact awaits_lineStart_cons hplace
  | header text => exact awaits_header_cons hplace
  | comment => exact awaits_comment_cons hplace
  | number token => exact awaits_number_cons hplace
  | minus => exact awaits_minus_cons hplace
  | between => exact awaits_between_cons hplace

/-- The text ahead goes on as a layout exactly if the reader accepts it and lets nothing pass. -/
theorem awaits_iff : r.Awaits cs f ↔ r.careful cs = true ∧ r.outcome cs = .ok f := by
  induction cs generalizing r with
  | nil => rw [awaits_nil_iff, careful, outcome, Bool.not_eq_true']
  | cons c cs ih =>
    rw [awaits_cons_iff, careful, outcome, Bool.and_eq_true, Bool.not_eq_true', and_assoc]
    cases r.step c with
    | ok r' => simp [ih]
    | error e => simp

theorem awaits_start_iff : start.Awaits cs f ↔
    ∃ header ts gs, Layout .lineStart cs (.header header :: ts) ∧ Groups ts gs ∧
      header.numClauses = gs.length ∧
      f = (Formula.ofNumVariables (header.numVariables % Word.bound32)).extend gs := by
  constructor
  · rintro ⟨ts, hlayout, h⟩
    cases h with
    | body hheader _ _ _ => cases hheader
    | text _ hts hgroups hcount hf =>
      rw [show ts = _ from hts] at hlayout
      exact ⟨_, _, _, hlayout, hgroups, hcount.trans (Nat.zero_add _), hf⟩
  · rintro ⟨header, ts, gs, hlayout, hgroups, hcount, hf⟩
    exact ⟨_, hlayout, .text rfl rfl hgroups (hcount.trans (Nat.zero_add _).symm) hf⟩

end Reader

/-! ## Whole texts -/

variable {header : Header} {ts : List Token} {cs : List Formula.Constraint}

/-- From every layout, in whatever chunks it comes, the constraints are read that its tokens make
up, and the number of variables is that of the header or the largest that occurs. -/
theorem parseChunks_layout {chunks : List (List UInt8)}
    (hlayout : Layout .lineStart (characters chunks.flatten) (.header header :: ts))
    (hgroups : Groups ts cs) (hcount : header.numClauses = cs.length)
    (hbound : header.numVariables < Word.bound32) :
    ∃ f, parseChunks chunks = .ok f ∧ f.constraints = cs ∧
      f.numVariables =
        max header.numVariables (Formula.maxVariable (cs.flatMap Formula.Constraint.numbers)) := by
  have hawaits := Reader.awaits_start_iff.mpr ⟨header, ts, cs, hlayout, hgroups, hcount, rfl⟩
  rw [Nat.mod_eq_of_lt hbound] at hawaits
  refine ⟨(Formula.ofNumVariables header.numVariables).extend cs, ?_,
    Formula.constraints_extend .., Formula.numVariables_extend ..⟩
  rw [parseChunks_eq_parse, Reader.parse_eq_outcome]
  exact (Reader.awaits_iff.mp hawaits).2

/-- `p cnf 1 1`, then `x-1`, a comment and `0` on lines of their own, cut within the header and
behind the minus. -/
def cutText : List (List UInt8) :=
  [[112, 32, 99], [110, 102, 32, 49, 32, 49, 10, 120, 45], [49, 10, 99, 10, 48]]

theorem parseChunks_layout_cutText : ∃ f, parseChunks cutText = .ok f ∧
    f.constraints = [.parity [-1] false] ∧ f.numVariables = 1 := by
  have htext : characters cutText.flatten = 'p' :: " cnf 1 1".toList ++
      '\n' :: 'x' :: (numeral (-1) ++ '\n' :: ('c' :: [] ++ ['\n', '0'])) := by decide
  have hline : Header.IsLine ⟨1, 1⟩ "p cnf 1 1".toList := Header.parse_eq_ok_iff.mp (by decide)
  have hlayout : Layout .lineStart (characters cutText.flatten)
      [.header ⟨1, 1⟩, .mark, .number (-1), .close] := by
    rw [htext]
    exact .header (by decide) (by decide) hline <| .newline <| .mark rfl <|
      .number rfl (by decide) <| .newline <| .comment (by decide) (by decide) <|
      .newline <| .close rfl .done
  exact parseChunks_layout hlayout (.parity [-1] .nil) rfl (by decide)

/-- A text that is accepted shows the header and the constraints that were read, each token set
apart from the next, exactly if the reader let nothing pass. -/
theorem parse_layout_iff {bytes : List UInt8} {f : Formula} (h : parse bytes = .ok f) :
    Reader.start.careful (characters bytes) = true ↔
      ∃ header ts, Layout .lineStart (characters bytes) (.header header :: ts) ∧
        Groups ts f.constraints ∧ header.numClauses = f.constraints.length := by
  rw [Reader.parse_eq_outcome] at h
  constructor
  · intro hcareful
    obtain ⟨header, ts, gs, hlayout, hgroups, hcount, rfl⟩ :=
      Reader.awaits_start_iff.mp (Reader.awaits_iff.mpr ⟨hcareful, h⟩)
    rw [Formula.constraints_extend]
    exact ⟨header, ts, hlayout, hgroups, hcount⟩
  · rintro ⟨header, ts, hlayout, hgroups, hcount⟩
    exact (Reader.awaits_iff.mp
      (Reader.awaits_start_iff.mpr ⟨header, ts, _, hlayout, hgroups, hcount, rfl⟩)).1

/-- The lines `p cnf 1 1` and `1 0`. -/
def unitText : List UInt8 := [112, 32, 99, 110, 102, 32, 49, 32, 49, 10, 49, 32, 48, 10]

/-- A unit clause is accepted as it is laid out, and with a minus behind it although that is no
layout. -/
theorem parse_layout_iff_unitText :
    (parse unitText = .ok ⟨1, [.clause [1]]⟩ ∧
      ∃ header ts, Layout .lineStart (characters unitText) (.header header :: ts) ∧
        Groups ts [.clause [1]] ∧ header.numClauses = 1) ∧
    (parse (unitText ++ [45]) = .ok ⟨1, [.clause [1]]⟩ ∧
      ¬ ∃ header ts, Layout .lineStart (characters (unitText ++ [45])) (.header header :: ts) ∧
        Groups ts [.clause [1]] ∧ header.numClauses = 1) := by
  have h : parse unitText = .ok ⟨1, [.clause [1]]⟩ := by decide
  have hminus : parse (unitText ++ [45]) = .ok ⟨1, [.clause [1]]⟩ := by decide
  refine ⟨⟨h, (parse_layout_iff h).mp (by decide)⟩, hminus, fun hlayout => ?_⟩
  exact absurd ((parse_layout_iff hminus).mpr hlayout) (by decide)

end ClauseLearning.Dimacs
