import ClauseLearning.Learned.Deletion
import ClauseLearning.Learned.Lbd
import ClauseLearning.Restart.Timer

/-!
# The database of learned clauses

The references of all learned clauses, oldest first, and what they share: the increment of
activities, the count that gives ages, and the meter of literal block distances.
-/

namespace ClauseLearning

structure LearnedDatabase where
  options : LearningOptions
  references : Array Reference
  /-- What the next bump of an activity adds. -/
  increment : Float
  numLearned : Nat
  lbdMeter : LbdMeter
  deriving Repr

namespace LearnedDatabase

variable {κ : Type} [CustomConstraint κ]

def make (options : LearningOptions) : LearnedDatabase := ⟨options, #[], 1.0, 0, .empty⟩

/-- The timer of reductions. -/
def timer (d : LearnedDatabase) : Timer :=
  match d.options.deletion with
  | .oldest => .every d.options.reduceFirst
  | _ => .increasing d.options.reduceFirst d.options.reduceIncrement

/-- Counts a learned clause; its age is the count. -/
def nextAge (d : LearnedDatabase) : Nat × LearnedDatabase :=
  (d.numLearned + 1, { d with numLearned := d.numLearned + 1 })

def measure (a : Assignment) (ls : List Literal) : LearnedDatabase → Nat × LearnedDatabase
  | ⟨options, references, increment, numLearned, meter⟩ =>
    let (lbd, meter) := meter.measure a ls
    (lbd, ⟨options, references, increment, numLearned, meter⟩)

/-- Whether a rule keeps clauses with a small distance. -/
def protectsSmallLbd (d : LearnedDatabase) : Bool :=
  match d.options.deletion with
  | .largestLbd | .largestLbdDynamic => true
  | _ => false

/-- Protects a clause with a small distance, if the rule looks at it. -/
def protect (d : LearnedDatabase) (m : Metadata) : Metadata :=
  if d.protectsSmallLbd && decide (m.lbd ≤ d.options.lbdThreshold) then
    { m with isProtected := true }
  else m

/-- Enters a clause and gives it its first activity. -/
def add (r : Reference) (lbd : Nat) (c : Constraint κ) (d : LearnedDatabase) :
    Constraint κ × LearnedDatabase :=
  (c.modifyMetadata fun m =>
      d.protect { m with lbd, activity := m.activity + d.increment },
    { d with references := d.references.push r })

/-- Measures a clause that forced a literal again, if the rule asks for it, and keeps the smaller
distance. -/
def onPropagation (a : Assignment) (c : Constraint κ) (d : LearnedDatabase) :
    Constraint κ × LearnedDatabase :=
  if d.options.deletion = .largestLbdDynamic ∧ c.metadata.isProtected = false then
    let (lbd, d) := d.measure a c.literals
    if lbd < c.metadata.lbd then (c.modifyMetadata fun m => d.protect { m with lbd }, d)
    else (c, d)
  else (c, d)

/-- Bumps the activity of a learned clause that took part in a conflict; true if it got too
large. -/
def onAnalysis (c : Constraint κ) (d : LearnedDatabase) : Bool × Constraint κ :=
  if c.metadata.learned then
    let c := c.bumpActivity d.increment
    (decide (d.options.maxActivity < c.metadata.activity), c)
  else (false, c)

/-- Scales all activities down. -/
def rescale (d : LearnedDatabase) (s : Arena κ) : Except Fault (LearnedDatabase × Arena κ) := do
  let factor := 1.0 / d.options.maxActivity
  let s ← d.references.toList.foldlM (fun s r => do
    let c ← s.get r
    return s.set r (c.modifyMetadata fun m => { m with activity := m.activity * factor })) s
  return ({ d with increment := d.increment * factor }, s)

def decay (d : LearnedDatabase) : LearnedDatabase :=
  { d with increment := d.increment / d.options.activityDecay }

/-- Takes the clauses to forget out of the database. -/
def reduce (d : LearnedDatabase) (s : Arena κ) (a : Assignment) :
    Except Fault (List Reference × LearnedDatabase) := do
  let entries ← d.references.toList.mapM fun r => do return (r, ← s.get r)
  let (deleted, kept) := d.options.deletion.split d.options.undefinedRank a entries
  return (deleted.map (·.1), { d with references := (kept.map (·.1)).toArray })

/-- Drops the references of clauses that are not alive. -/
def forget (isAlive : Reference → Bool) (d : LearnedDatabase) : LearnedDatabase :=
  { d with references := d.references.filter isAlive }

/-- Drops every clause; the count of clauses goes on. -/
def clear (d : LearnedDatabase) : LearnedDatabase :=
  { d with references := #[], increment := 1.0 }

end LearnedDatabase

end ClauseLearning
