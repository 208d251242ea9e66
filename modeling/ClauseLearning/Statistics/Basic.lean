import ClauseLearning.Decimal.Text
import ClauseLearning.Restart.Average
import ClauseLearning.Text.Words

/-!
# Statistics

The counters of a search, and how statistics are written: one line `lead name=value` for each, the
name being the path of names joined by underscores, in snake case or in Pascal case.
-/

namespace ClauseLearning

structure Statistics where
  decisions : Nat
  conflicts : Nat
  restarts : Nat
  blockedRestarts : Nat
  propagations : Nat
  reductions : Nat
  simplified : Nat
  rebuilds : Nat
  /-- Literals removed by minimisation, per clause. -/
  removedLiterals : Average
  unitsLearned : Nat
  learnedLength : Average
  backtrack : Average
  lbd : Average
  deleted : Nat
  deriving Repr

def Statistics.zero : Statistics := ⟨0, 0, 0, 0, 0, 0, 0, 0, .empty, 0, .empty, .empty, .empty, 0⟩

namespace Statistics

/-! ## Names -/

/-- Names joined by underscores. -/
def joinNames (names : List String) : String := String.intercalate "_" names

/-- A name under another one; the empty name is not joined. -/
def attachName (name addition : String) : String :=
  if name.isEmpty then addition else name ++ "_" ++ addition

/-- How statistics are written. -/
structure Style where
  /-- What every line starts with. -/
  lead : String
  /-- The line that closes a block. -/
  closing : Option String
  casing : String → String

/-- Snake case, without a closing line. -/
def Style.plain : Style := ⟨"c STAT", none, id⟩

/-- Pascal case, with a closing line. -/
def Style.closed : Style := ⟨"c STAT", some "c STAT END", Text.pascalCase⟩

def Style.line (style : Style) (name value : String) : String :=
  style.lead ++ " " ++ style.casing name ++ "=" ++ value

def Style.closingLines (style : Style) : List String := style.closing.toList

/-! ## The counters as lines -/

/-- The names and values of the counters of the search. -/
def searchEntries (s : Statistics) : List (String × String) :=
  [("num_decisions", toString s.decisions),
    ("num_conflicts", toString s.conflicts),
    ("num_restarts", toString s.restarts),
    ("num_blocked_restarts", toString s.blockedRestarts),
    ("num_propagations", toString s.propagations),
    ("num_reductions", toString s.reductions),
    ("num_simplified_constraints", toString s.simplified),
    ("num_rebuilds", toString s.rebuilds)]

/-- The names and values of what concerns learned clauses. -/
def learningEntries (s : Statistics) : List (String × String) :=
  [("average_number_of_removed_literals", Decimal.text s.removedLiterals.value),
    ("num_unit_clauses_learned", toString s.unitsLearned),
    ("average_learned_clause_length", Decimal.text s.learnedLength.value),
    ("average_backtrack_amount", Decimal.text s.backtrack.value),
    ("average_lbd", Decimal.text s.lbd.value),
    ("num_deleted_clauses", toString s.deleted)]

/-- A block of lines with all statistics. -/
def lines (style : Style) (s : Statistics) : List String :=
  let block (name : String) (entries : List (String × String)) :=
    entries.map fun entry => style.line (attachName name entry.1) entry.2
  block "engine_statistics" s.searchEntries ++
    block "learned_clause_statistics" s.learningEntries ++ style.closingLines

end Statistics

end ClauseLearning
