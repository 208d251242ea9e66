import ClauseLearning.CommandLine.Arguments
import ClauseLearning.CommandLine.Directory
import ClauseLearning.Dimacs.Reader
import ClauseLearning.Race.Basic

/-!
# What a command does

A command reads its arguments, asks for one file, and writes lines. Comment lines start with `c`,
the answer with `s` and the values of a model with `v`. What is written does not depend on anything
but the arguments and the file.
-/

namespace ClauseLearning.CommandLine

/-- The lines that a command writes, and its status. -/
structure Output where
  status : Nat
  lines : List String
  deriving DecidableEq, Repr

/-- What a command does: it ends, or it needs a file first. -/
inductive Plan
  | stop (output : Output)
  | read (path : String) (next : Except OpenError (List UInt8) → Output)

/-- Why a command fails. -/
inductive Failure
  | unsupported (path : String)
  | unreadable (e : OpenError)
  | invalid (e : Dimacs.Error)
  deriving DecidableEq, Repr

def Failure.message : Failure → String
  | .unsupported path => s!"The file {path} is not supported."
  | .unreadable e => s!"IO error, more details: {e.message}"
  | .invalid e => s!"The dimacs file was invalid, more details: {e.message}"

/-- The numbers behind each other, and a zero. -/
def listing (ns : List Int) : String :=
  String.join (ns.map fun n => toString n ++ " ") ++ "0"

def verdictLines : Verdict → List String
  | .satisfiable model implicant =>
    ["s SATISFIABLE", "v " ++ listing model] ++
      (implicant.map fun ns => "c prime implicant " ++ listing ns).toList
  | .unsatisfiable => ["s UNSATISFIABLE"]
  | .unknown => ["s UNKNOWN"]

/-- The lines of a note, if the arguments ask for it. -/
def noteLines (args : Arguments) : Note → List String
  | .info text => if args.verbose then ["c INFO " ++ text] else []
  | .debug text => if args.verbose then ["c DEBUG " ++ text] else []
  | .statistics s => if args.logStatistics then s.lines .plain else []

/-- The output of a command that fails after some notes. -/
def fail (args : Arguments) (notes : List Note) (failure : Failure) : Output :=
  ⟨1, notes.flatMap (noteLines args) ++
    ["c ERROR Execution failed, error: " ++ failure.message]⟩

/-- The output for the content of a file. -/
def solve (args : Arguments) (notes : List Note) (content : List UInt8) : Output :=
  match Dimacs.parse content with
  | .error e => fail args notes (.invalid e)
  | .ok f =>
    let count := f.constraints.length
    let size := f.numVariables
    let read := Note.info s!"Read {count} constraints over {size} variables"
    let result := Race.run f (Race.diversify args.options args.parallel) args.withImplicant false
    ⟨0, (notes ++ read :: result.notes).flatMap (noteLines args) ++ verdictLines result.verdict⟩

/-- The plan for some arguments. Wrong usage writes nothing. -/
def plan (arguments : List String) : Plan :=
  match Arguments.parse arguments with
  | .error _ => .stop ⟨2, []⟩
  | .ok args =>
    let notes := [Note.info "Logging successfully configured"]
    if (fileName? args.path).bind extensionOf? ≠ some "cnf" then
      .stop (fail args notes (.unsupported args.path))
    else
      .read args.path fun
        | .error e => fail args notes (.unreadable e)
        | .ok content => solve args notes content

/-- Carries a plan out in a directory. -/
def Plan.runIn (d : Directory) : Plan → Output
  | .stop output => output
  | .read path next => next ((d.openFile path).map fun content => content.toUTF8.toList)

end ClauseLearning.CommandLine
