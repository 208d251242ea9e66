import ClauseLearning.Engine.Solve
import ClauseLearning.Violation

/-!
# Sessions

A session holds a problem that grows and shrinks, and answers queries about it. The engine knows the
problem as it is attached; the book keeps every constraint as it was added, and the last answer.

A call is a function of the session that gives a value or a violation. Signed numbers come in as
literals first, one after the other, and make their variables known.

* `run_ofEngine_bind`: a call of the engine leaves the book alone.
-/

namespace ClauseLearning

/-- A constraint as it was added. Its number among all of them is its handle. -/
structure BookEntry (κ : Type) where
  /-- The parts that were added together. -/
  descriptions : List (Description κ)
  /-- Where the parts were attached; some may have been deleted since. -/
  references : List Reference
  removed : Bool

/-- Everything but the engine. -/
structure Book (κ : Type) where
  options : Options
  entries : Array (BookEntry κ)
  /-- One literal per variable, by variable, if the last query was answered with yes. -/
  model : Option (List Literal)
  implicant : Option (List Literal)
  /-- The assumptions to blame, if the last query was answered with no. -/
  core : Option (List Literal)
  stopRequested : Bool
  /-- What is left of the budget that consecutive queries share. -/
  sharedBudget : Option Condition

structure Session (κ : Type) where
  engine : Engine κ
  book : Book κ

/-- Calls of a session. -/
abbrev SessionM (κ : Type) := ExceptT Violation (StateM (Session κ))

def Book.make (κ : Type) (o : Options) : Book κ := ⟨o, #[], none, none, none, false, none⟩

namespace Session

variable {κ : Type} [CustomConstraint κ] {α : Type}

def make (o : Options) : Session κ := ⟨.make o, .make κ o⟩

/-- A new session, if there is room for what its options ask for. -/
def start (o : Options) : Except Violation (Session κ) := do
  RestartPolicy.checkWindows o.restart
  return make o

/-! ## Calls -/

/-- Calls the engine. After a fault there is a new one. -/
def ofEngine (f : Engine κ → Except Fault (α × Engine κ)) : SessionM κ α := fun
  | ⟨engine, book⟩ =>
    match f engine with
    | .ok (a, engine) => (.ok a, ⟨engine, book⟩)
    | .error fault => (.error (.internal fault), ⟨.make book.options, book⟩)

def ofSteadyEngine (f : Engine κ → α × Engine κ) : SessionM κ α := fun
  | ⟨engine, book⟩ =>
    let (a, engine) := f engine
    (.ok a, ⟨engine, book⟩)

def modifyEngine (f : Engine κ → Engine κ) : SessionM κ Unit :=
  ofSteadyEngine fun engine => ((), f engine)

def readEngine (f : Engine κ → α) : SessionM κ α := do return f (← get).engine

def modifyBook (f : Book κ → Book κ) : SessionM κ Unit := fun
  | ⟨engine, book⟩ => (.ok (), ⟨engine, f book⟩)

def readBook (f : Book κ → α) : SessionM κ α := do return f (← get).book

/-! ## Literals -/

/-- The literal of a signed number, whose variable becomes known even if it denotes none. -/
def literal (n : Int) : SessionM κ Literal := do
  match ← ofSteadyEngine (·.literal n) with
  | .ok l => return l
  | .error e => throw (.literal e)

def literals (ns : List Int) : SessionM κ (List Literal) := ns.mapM literal

/-! ## What can be read -/

/-- The largest number of a variable that a signed 32 bit number can name. The codes of the literals
of larger ones do not fit into 32 bits. -/
def maxVariable : Nat := Word.bound32 / 2 - 1

/-- Makes variables `1..n` known; the number of variables that are. -/
def newVariables (n : Nat) : SessionM κ Nat := do
  if maxVariable < n then throw (.literal .tooLarge)
  modifyEngine (·.grow n)
  readEngine (·.numVariables)

def numVariables (s : Session κ) : Nat := s.engine.numVariables

/-- The constraints that were added and not removed. -/
def present (s : Session κ) : List (BookEntry κ) :=
  s.book.entries.toList.filter fun entry => !entry.removed

def numConstraints (s : Session κ) : Nat := s.present.length

/-- What the present constraints say. -/
def descriptions (s : Session κ) : List (Description κ) := s.present.flatMap (·.descriptions)

def statistics (s : Session κ) : Statistics := s.engine.statistics

/-- What was reported since the last time, oldest first. -/
def takeEvents : Session κ → List Event × Session κ
  | ⟨⟨search, analyser, control⟩, book⟩ =>
    let events := control.events.reverse
    (events, ⟨⟨search, analyser, { control with events := [] }⟩, book⟩)

/-- Forgets every constraint and variable. The options stay, and so does a request to stop. -/
def reset (s : Session κ) : Session κ :=
  let fresh : Session κ := make s.book.options
  { fresh with book := { fresh.book with stopRequested := s.book.stopRequested } }

/-- Asks a running or the next query to stop. -/
def requestStop (s : Session κ) : Session κ :=
  { s with book := { s.book with stopRequested := true } }

omit [CustomConstraint κ] in
/-- After a call of the engine a session goes on with what the call left, unless there was a
fault. -/
theorem run_ofEngine_bind {β : Type} (f : Engine κ → Except Fault (α × Engine κ))
    (g : α → SessionM κ β) (s : Session κ) :
    (ofEngine f >>= g).run s =
      match f s.engine with
      | .ok (a, engine) => (g a).run ⟨engine, s.book⟩
      | .error fault => (.error (.internal fault), ⟨.make s.book.options, s.book⟩) := by
  cases s with
  | mk engine book =>
    show (ExceptT.bindCont g (match f engine with
      | .ok (a, engine) => (.ok a, ⟨engine, book⟩)
      | .error fault => (.error (.internal fault), ⟨.make book.options, book⟩) :
        Except Violation α × Session κ).1 : StateM (Session κ) _) _ = _
    cases f engine with
    | error fault => rfl
    | ok result => rfl

end Session

end ClauseLearning
