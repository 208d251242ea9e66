import ClauseLearning.Dimacs.Header
import ClauseLearning.Formula.Basic

/-!
# Reading DIMACS

A text is a header line and constraints, each a list of numbers that 0 ends. A line that starts with
`x` starts a constraint on the parity of its literals: an odd number of them is true. Lines that
start with `c` are comments. A constraint may go over several lines.

The reader takes one byte after the other and keeps the token it is in, so it does not matter how
the bytes are cut into chunks (`feed_append`). A byte stands for the character of the same number.
-/

namespace ClauseLearning.Dimacs

/-- Where in the text a reader is. -/
inductive Place
  | lineStart
  /-- In the header, whose characters are kept newest first. -/
  | header (text : List Char)
  | comment
  /-- In a number, whose characters are kept newest first. -/
  | number (token : List Char)
  /-- Behind a minus. -/
  | minus
  /-- Between the numbers of a line. -/
  | between
  deriving DecidableEq, Repr

structure Reader where
  header : Option Header
  formula : Formula
  /-- The numbers of the constraint that is read, newest first. -/
  current : List Int
  /-- Whether the constraint that is read is a parity constraint. -/
  isParity : Bool
  place : Place
  /-- How many constraints were read. -/
  numRead : Nat
  deriving DecidableEq, Repr

namespace Reader

def start : Reader := ⟨none, .ofNumVariables 0, [], false, .lineStart, 0⟩

def isBlank (c : Char) : Bool :=
  c == ' ' || c == '\t' || c == '\n' || c == '\x0c' || c == '\r'

def isNonzeroDigit (c : Char) : Bool := '1' ≤ c && c ≤ '9'

/-- Ends the header. The number of variables is a 32 bit word. -/
def endHeader (text : List Char) (r : Reader) : Except Error Reader :=
  if r.header.isSome then .error .duplicateHeader
  else do
    let header ← Header.parse text.reverse
    return { r with
      header := some header
      formula := .ofNumVariables (header.numVariables % Word.bound32) }

/-- The value of a number's characters, if it is a signed 32 bit number. -/
def readNumber? (cs : List Char) : Option Int :=
  let half : Int := Word.bound32 / 2
  (Decimal.readInt? cs).filter fun n => decide (-half ≤ n ∧ n < half)

/-- Ends a number. -/
def endNumber (token : List Char) (r : Reader) : Except Error Reader :=
  match readNumber? token.reverse with
  | some n => .ok { r with current := n :: r.current, place := .between }
  | none => .error (.invalidLiteral (String.ofList token.reverse))

/-- Ends a constraint. -/
def endConstraint (r : Reader) : Except Error Reader :=
  match r.header with
  | none => .error .missingHeader
  | some _ =>
    let ns := r.current.reverse
    let c : Formula.Constraint := if r.isParity then .parity ns false else .clause ns
    .ok { r with
      formula := r.formula.add c
      current := []
      isParity := false
      numRead := r.numRead + 1 }

/-- Reads one character. -/
def step (c : Char) (r : Reader) : Except Error Reader :=
  match r.place with
  | .lineStart =>
    if isBlank c then .ok r
    else if c = 'p' then .ok { r with place := .header ['p'] }
    else if c = 'c' then .ok { r with place := .comment }
    else if c = 'x' ∧ r.current = [] then .ok { r with isParity := true, place := .between }
    else if isNonzeroDigit c then .ok { r with place := .number [c] }
    else if c = '0' then r.endConstraint
    else if c = '-' then .ok { r with place := .minus }
    else .error (.unexpectedCharacter c)
  | .header text =>
    if c = '\n' then do
      let r ← r.endHeader text
      return { r with place := .lineStart }
    else .ok { r with place := .header (c :: text) }
  | .comment => .ok (if c = '\n' then { r with place := .lineStart } else r)
  | .number token =>
    if isBlank c then do
      let r ← r.endNumber token
      return if c = '\n' then { r with place := .lineStart } else r
    else if c.isDigit then .ok { r with place := .number (c :: token) }
    else .error (.unexpectedCharacter c)
  | .minus =>
    if isNonzeroDigit c then .ok { r with place := .number [c, '-'] }
    else .error (.unexpectedCharacter c)
  | .between =>
    if c = '0' then r.endConstraint
    else if c = '\n' then .ok { r with place := .lineStart }
    else if isBlank c then .ok r
    else if isNonzeroDigit c then .ok { r with place := .number [c] }
    else if c = '-' then .ok { r with place := .minus }
    else .error (.unexpectedCharacter c)

/-- Reads bytes. -/
def feed : List UInt8 → Reader → Except Error Reader
  | [], r => .ok r
  | byte :: bytes, r =>
    match r.step (Char.ofNat byte.toNat) with
    | .ok r => feed bytes r
    | .error e => .error e

/-- Ends the text. -/
def complete (r : Reader) : Except Error Formula := do
  let r ←
    match r.place with
    | .number token => r.endNumber token
    | .header text => r.endHeader text
    | _ => pure r
  match r.header with
  | none => .error .missingHeader
  | some header =>
    if r.current ≠ [] ∨ r.isParity then .error .unterminatedClause
    else if header.numClauses ≠ r.numRead then
      .error (.incorrectClauseCount header.numClauses r.numRead)
    else .ok r.formula

theorem feed_append (xs ys : List UInt8) (r : Reader) :
    feed (xs ++ ys) r = (feed xs r).bind (feed ys) := by
  induction xs generalizing r with
  | nil => rfl
  | cons x xs ih =>
    simp only [List.cons_append, feed]
    cases r.step (Char.ofNat x.toNat) with
    | ok r => exact ih r
    | error e => rfl

end Reader

/-- Reads a text that comes in chunks. -/
def parseChunks (chunks : List (List UInt8)) : Except Error Formula := do
  let r ← chunks.foldlM (fun r chunk => r.feed chunk) Reader.start
  r.complete

/-- Reads a text. -/
def parse (bytes : List UInt8) : Except Error Formula := do
  let r ← Reader.start.feed bytes
  r.complete

/-- Reads a text from a source that fails after so many bytes, if it has them. -/
def parseFailing (limit : Nat) (bytes : List UInt8) : Except Error Formula := do
  let r ← Reader.start.feed (bytes.take limit)
  if limit ≤ bytes.length then .error .unreadable else r.complete

theorem parseChunks_eq_parse (chunks : List (List UInt8)) :
    parseChunks chunks = parse chunks.flatten := by
  have h (r : Reader) : chunks.foldlM (fun r chunk => r.feed chunk) r = r.feed chunks.flatten := by
    induction chunks generalizing r with
    | nil => rfl
    | cons chunk chunks ih =>
      simp only [List.foldlM_cons, List.flatten_cons, Reader.feed_append]
      cases r.feed chunk with
      | ok r => exact ih r
      | error e => rfl
  unfold parseChunks parse
  rw [h]

end ClauseLearning.Dimacs
