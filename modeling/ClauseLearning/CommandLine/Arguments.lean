import ClauseLearning.Decimal.Text
import ClauseLearning.Options
import ClauseLearning.Word

/-!
# Arguments

The path of an instance, options with a value, and switches. A long name is written with two dashes
and its value behind it or behind an equals sign. Single letters may be joined: switches first, then
at most one option, whose value may follow directly. Nothing may be given twice.
-/

namespace ClauseLearning.CommandLine

/-- An option that has a value. -/
inductive Setting
  | timeLimit
  | conflictLimit
  | restartStrategy
  | restartSequence
  | restartBaseInterval
  | restartMinConflicts
  | restartLbdCoef
  | restartAssignedCoef
  | restartAssignedWindow
  | restartGeometricCoef
  | deletion
  | lbdThreshold
  | minimisation
  | phase
  | seed
  | implicant
  | parallel
  deriving DecidableEq, Repr

inductive Switch
  | verbose
  | logStatistics
  | omitTimestamp
  | omitCallSite
  deriving DecidableEq, Repr

/-- Why the arguments cannot be used. -/
inductive UsageError
  | unknown (name : String)
  | missingValue (s : Setting)
  /-- A switch with a value. -/
  | unexpectedValue (s : Switch)
  | repeatedSetting (s : Setting)
  | repeatedSwitch (s : Switch)
  | invalidValue (s : Setting) (value : String)
  /-- A limit on time and one on conflicts. -/
  | conflictingLimits
  | emptyPath
  | missingPath
  | secondPath (path : String)
  deriving DecidableEq, Repr

/-! ## Names -/

def Setting.ofName? : String → Option Setting
  | "time-limit" => some .timeLimit
  | "conflict-limit" => some .conflictLimit
  | "restart-strategy" => some .restartStrategy
  | "restart-sequence-generator-type" => some .restartSequence
  | "restart-base-interval" => some .restartBaseInterval
  | "restart-min-initial-conflicts" => some .restartMinConflicts
  | "restart-lbd-coef" => some .restartLbdCoef
  | "restart-num-assigned-coef" => some .restartAssignedCoef
  | "restart-num-assigned-window" => some .restartAssignedWindow
  | "restart-geometric-coef" => some .restartGeometricCoef
  | "deletion-strategy" => some .deletion
  | "learning-lbd-threshold" => some .lbdThreshold
  | "minimisation" => some .minimisation
  | "phase" => some .phase
  | "random-seed" => some .seed
  | "prime-implicant" => some .implicant
  | "parallel" => some .parallel
  | _ => none

def Setting.ofLetter? : Char → Option Setting
  | 't' => some .timeLimit
  | 'r' => some .seed
  | 'p' => some .parallel
  | _ => none

def Switch.ofName? : String → Option Switch
  | "verbose" => some .verbose
  | "log-statistics" => some .logStatistics
  | "omit-timestamp" => some .omitTimestamp
  | "omit-call-site" => some .omitCallSite
  | _ => none

def Switch.ofLetter? : Char → Option Switch
  | 'v' => some .verbose
  | 's' => some .logStatistics
  | _ => none

/-! ## Scanning -/

/-- What was given, before any value is read. -/
structure Given where
  settings : List (Setting × String)
  switches : List Switch
  path : Option String
  /-- The option whose value comes next. -/
  awaiting : Option Setting
  /-- Everything that follows is a path. -/
  onlyPaths : Bool

namespace Given

def nothing : Given := ⟨[], [], none, none, false⟩

def giveSetting (s : Setting) (value : String) (g : Given) : Except UsageError Given :=
  if (g.settings.lookup s).isSome then .error (.repeatedSetting s)
  else .ok { g with settings := (s, value) :: g.settings, awaiting := none }

def giveSwitch (s : Switch) (g : Given) : Except UsageError Given :=
  if g.switches.contains s then .error (.repeatedSwitch s)
  else .ok { g with switches := s :: g.switches }

def givePath (path : String) (g : Given) : Except UsageError Given :=
  if path.isEmpty then .error .emptyPath
  else if g.path.isSome then .error (.secondPath path)
  else .ok { g with path := some path }

/-- Reads the text behind two dashes. -/
def readLong (text : List Char) (g : Given) : Except UsageError Given :=
  let name := String.ofList (text.takeWhile (· != '='))
  let value? : Option String :=
    match text.dropWhile (· != '=') with
    | _ :: value => some (String.ofList value)
    | [] => none
  match Setting.ofName? name, Switch.ofName? name, value? with
  | some s, _, some value => g.giveSetting s value
  | some s, _, none => .ok { g with awaiting := some s }
  | none, some s, none => g.giveSwitch s
  | none, some s, some _ => .error (.unexpectedValue s)
  | none, none, _ => .error (.unknown name)

/-- Reads the letters behind a single dash. -/
def readLetters : List Char → Given → Except UsageError Given
  | [], g => .ok g
  | c :: cs, g =>
    match Switch.ofLetter? c, Setting.ofLetter? c, cs with
    | some s, _, _ => do readLetters cs (← g.giveSwitch s)
    | none, some s, [] => .ok { g with awaiting := some s }
    | none, some s, '=' :: value => g.giveSetting s (String.ofList value)
    | none, some s, value => g.giveSetting s (String.ofList value)
    | none, none, _ => .error (.unknown (String.singleton c))

/-- Whether an argument starts with a dash and is more than that. -/
def isDashed (arg : String) : Bool := arg.startsWith "-" && arg != "-"

/-- Reads an argument. -/
def read (g : Given) (arg : String) : Except UsageError Given :=
  if g.onlyPaths then g.givePath arg
  else
    match g.awaiting with
    | some s => if isDashed arg then .error (.missingValue s) else g.giveSetting s arg
    | none =>
      match arg.toList with
      | ['-'] => g.givePath arg
      | ['-', '-'] => .ok { g with onlyPaths := true }
      | '-' :: '-' :: text => g.readLong text
      | '-' :: letters => g.readLetters letters
      | _ => g.givePath arg

def ofArguments (args : List String) : Except UsageError Given := do
  let g ← args.foldlM read nothing
  match g.awaiting with
  | some s => .error (.missingValue s)
  | none => .ok g

/-! ## Values -/

def has (s : Switch) (g : Given) : Bool := g.switches.contains s

/-- The value of an option, read in its own way, or a default. -/
def valueOr {α : Type} (s : Setting) (read? : String → Option α) (default : α) (g : Given) :
    Except UsageError α :=
  match g.settings.lookup s with
  | none => .ok default
  | some text =>
    match read? text with
    | some value => .ok value
    | none => .error (.invalidValue s text)

end Given

/-- A 64 bit number with an optional plus. -/
def readWord? (text : String) : Option Nat := Decimal.readBelow? Word.bound64 text.toList

/-- A 32 bit number from `least` on, with an optional sign. -/
def readHalfWord? (least : Nat) (text : String) : Option Nat :=
  match Decimal.readInt? text.toList with
  | some n => if (least : Int) ≤ n ∧ n < Word.bound32 then some n.toNat else none
  | none => none

def readRestartStrategy? : String → Option RestartStrategy
  | "none" => some .never
  | "sequence" => some .scheduled
  | "glucose" => some .adaptive
  | _ => none

def readShape? : String → Option IntervalShape
  | "constant" => some .constant
  | "geometric" => some .geometric
  | "luby" => some .luby
  | _ => none

def readDeletion? : String → Option DeletionRule
  | "activity" => some .leastActive
  | "age" => some .oldest
  | "size" => some .longest
  | "glucose" => some .largestLbd
  | "glucose-dynamic" => some .largestLbdDynamic
  | _ => none

def readMinimisation? : String → Option Minimisation
  | "none" => some .none
  | "simple" => some .simple
  | "expensive" => some .expensive
  | _ => none

def readPhase? : String → Option PhaseRule
  | "phase-saving" => some .saving
  | "positive" => some .positive
  | "negative" => some .negative
  | "random" => some .random
  | _ => none

def readImplicant? : String → Option ImplicantStrategy
  | "quadratic" => some .quadratic
  | "counter-based" => some .counterBased
  | "watcher-based" => some .watcherBased
  | _ => none

/-! ## The whole -/

structure Arguments where
  path : String
  options : Options
  withImplicant : Bool
  parallel : Nat
  verbose : Bool
  logStatistics : Bool
  deriving Repr

namespace Arguments

/-- The limit that was given, if one was. -/
def timeoutOf (g : Given) : Except UsageError Timeout := do
  let time ← g.valueOr .timeLimit (fun text => (readWord? text).map some) none
  let conflicts ← g.valueOr .conflictLimit (fun text => (readWord? text).map some) none
  match time, conflicts with
  | some _, some _ => throw .conflictingLimits
  | some n, none => return .milliseconds n
  | none, some n => return .conflicts n
  | none, none => return .none

def restartOptionsOf (g : Given) : Except UsageError RestartOptions := do
  let base := RestartOptions.standard
  return {
    strategy := ← g.valueOr .restartStrategy readRestartStrategy? base.strategy
    shape := ← g.valueOr .restartSequence readShape? base.shape
    baseInterval := ← g.valueOr .restartBaseInterval readWord? base.baseInterval
    minConflicts := ← g.valueOr .restartMinConflicts readWord? base.minConflicts
    lbdCoef := ← g.valueOr .restartLbdCoef Decimal.read? base.lbdCoef
    assignedCoef := ← g.valueOr .restartAssignedCoef Decimal.read? base.assignedCoef
    assignedWindow := ← g.valueOr .restartAssignedWindow readWord? base.assignedWindow
    geometricCoef := ← g.valueOr .restartGeometricCoef Decimal.read? base.geometricCoef }

def optionsOf (g : Given) : Except UsageError Options := do
  let base := Options.standard
  let learning := { base.learning with
    deletion := ← g.valueOr .deletion readDeletion? base.learning.deletion
    lbdThreshold := ← g.valueOr .lbdThreshold (readHalfWord? 0) base.learning.lbdThreshold }
  return { base with
    restart := ← restartOptionsOf g
    learning
    minimisation := ← g.valueOr .minimisation readMinimisation? base.minimisation
    phase := ← g.valueOr .phase readPhase? base.phase
    implicant := ← g.valueOr .implicant readImplicant? base.implicant
    seed := ← g.valueOr .seed (fun text => (readWord? text).map UInt64.ofNat) base.seed
    timeout := ← timeoutOf g }

/-- Reads the arguments. -/
def parse (args : List String) : Except UsageError Arguments := do
  let g ← Given.ofArguments args
  let options ← optionsOf g
  let parallel ← g.valueOr .parallel (readHalfWord? 1) 1
  match g.path with
  | none => throw .missingPath
  | some path =>
    return ⟨path, options, (g.settings.lookup .implicant).isSome, parallel, g.has .verbose,
      g.has .logStatistics⟩

end Arguments

end ClauseLearning.CommandLine
