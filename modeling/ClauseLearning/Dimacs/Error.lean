/-!
# What can be wrong with a DIMACS text
-/

namespace ClauseLearning.Dimacs

inductive Error
  /-- The source could not be read to its end. -/
  | unreadable
  | missingHeader
  | invalidHeader (text : String)
  | duplicateHeader
  | unexpectedCharacter (c : Char)
  /-- A token that is no 32 bit number. -/
  | invalidLiteral (token : String)
  | unterminatedClause
  | incorrectClauseCount (expected parsed : Nat)
  deriving DecidableEq, Repr

def Error.message : Error → String
  | .unreadable => "failed to read file"
  | .missingHeader => "missing dimacs header"
  | .invalidHeader text => s!"'{text}' is an invalid header"
  | .duplicateHeader => "multiple dimacs headers found"
  | .unexpectedCharacter c => s!"unexpected character '{c}'"
  | .invalidLiteral token => s!"'{token}' is an invalid DIMACS literal"
  | .unterminatedClause => "the last clause in the source is not terminated with a '0'"
  | .incorrectClauseCount expected parsed =>
    s!"expected to parse {expected} clauses, but parsed {parsed}"

end ClauseLearning.Dimacs
