import ClauseLearning.Decimal.Text
import ClauseLearning.Dimacs.Error
import ClauseLearning.Word

/-!
# The header line

The words `p cnf V C`, separated by white space: the number of variables and the number of clauses.
-/

namespace ClauseLearning.Dimacs

structure Header where
  numVariables : Nat
  numClauses : Nat
  deriving DecidableEq, Repr

namespace Header

/-- White space among the characters up to 255. -/
def isSpace (c : Char) : Bool :=
  c == ' ' || ('\t' ≤ c && c ≤ '\r') || c == '\x85' || c == '\xa0'

/-- The words of a line. -/
def words (cs : List Char) : List (List Char) :=
  (cs.splitBy fun c d => isSpace c == isSpace d).filter fun word => !word.all isSpace

/-- A line without the white space around it. -/
def trim (cs : List Char) : List Char :=
  ((cs.dropWhile isSpace).reverse.dropWhile isSpace).reverse

/-- Reads the line; its numbers have 64 bits. -/
def parse (line : List Char) : Except Error Header :=
  let invalid : Except Error Header := .error (.invalidHeader (String.ofList (trim line)))
  match words line with
  | [['p'], ['c', 'n', 'f'], varCount, clauseCount] =>
    match Decimal.readBelow? Word.bound64 varCount, Decimal.readBelow? Word.bound64 clauseCount with
    | some numVariables, some numClauses => .ok ⟨numVariables, numClauses⟩
    | _, _ => invalid
  | _ => invalid

end Header

end ClauseLearning.Dimacs
