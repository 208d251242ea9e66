import ClauseLearning.Implicant.Requirement

/-!
# Implicants by watching

A requirement of degree `d` watches `d` occurrences of true literals. A literal can be dropped if
every requirement that watches it finds another true occurrence to watch; otherwise it is mandatory.
Each mandatory literal is known as soon as it was tried, so the result is the list of mandatory
literals in the order in which they were found out.

The order in which literals are tried decides which of them are dropped.
-/

namespace ClauseLearning.WatcherBased

inductive Status
  | candidate
  | dropped
  | mandatory
  deriving DecidableEq, Repr

structure State where
  status : LiteralTable Status
  /-- Per requirement and position, whether that occurrence is watched. -/
  watched : Array (Array Bool)
  /-- Per literal, the requirements that watch an occurrence of it, once per occurrence. -/
  watchers : LiteralTable (Array Nat)

namespace State

def isWatched (s : State) (i position : Nat) : Bool :=
  ((s.watched[i]?.getD #[])[position]?).getD false

/-- Chooses the occurrences to watch: the first true ones, as many as the degree says. -/
def choose (isTrue : LiteralTable Bool) : List Literal → Nat → List Bool
  | [], _ => []
  | _ :: ls, 0 => false :: choose isTrue ls 0
  | l :: ls, n + 1 =>
    if isTrue.getD l false then true :: choose isTrue ls n else false :: choose isTrue ls (n + 1)

/-- Lets the requirement with number `i` watch. -/
def enter (isTrue : LiteralTable Bool) (i : Nat) (r : Requirement) : State → State
  | ⟨status, watched, watchers⟩ =>
    match r with
    | .mandatory _ => ⟨status, watched.push #[], watchers⟩
    | .atLeast ls degree =>
      let chosen := choose isTrue ls degree
      ⟨status, watched.push chosen.toArray,
        (ls.zip chosen).foldl (fun table e => if e.2 then table.modify e.1 (·.push i) else table)
          watchers⟩

def ofRequirements (isTrue : LiteralTable Bool) (rs : List Requirement) : State :=
  rs.zipIdx.foldl (fun s e => s.enter isTrue e.2 e.1)
    ⟨LiteralTable.empty.grow isTrue.size .candidate, #[], LiteralTable.empty.grow isTrue.size #[]⟩

def setStatus (l : Literal) (x : Status) : State → State
  | ⟨status, watched, watchers⟩ => ⟨status.set l x, watched, watchers⟩

/-- Another occurrence that the requirement `i` could watch in place of `l`. -/
def replacement? (isTrue : LiteralTable Bool) (l : Literal) (i : Nat) (ls : List Literal)
    (s : State) : Option (Literal × Nat) :=
  ls.zipIdx.find? fun e =>
    e.1 ≠ l && !s.isWatched i e.2 && isTrue.getD e.1 false &&
      s.status.getD e.1 .candidate ≠ .dropped

/-- Watches the occurrence at a position instead of the first watched occurrence of `l`. -/
def move (l : Literal) (i : Nat) (ls : List Literal) (replacement : Literal × Nat) (s : State) :
    State :=
  let old? := (ls.zipIdx.find? fun e => e.1 = l && s.isWatched i e.2).map (·.2)
  match s with
  | ⟨status, watched, watchers⟩ =>
    let exchange (row : Array Bool) : Array Bool :=
      (match old? with
        | some old => row.setIfInBounds old false
        | none => row).setIfInBounds replacement.2 true
    ⟨status, watched.modify i exchange, watchers.modify replacement.1 (·.push i)⟩

/-- Lets the requirements that watch `l` look for something else; the result lists those that find
nothing. -/
def release (isTrue : LiteralTable Bool) (rs : Array Requirement) (l : Literal) :
    List Nat → State → List Nat × State
  | [], s => ([], s)
  | i :: is, s =>
    match rs[i]? with
    | some (.atLeast ls _) =>
      match s.replacement? isTrue l i ls with
      | some replacement => release isTrue rs l is (s.move l i ls replacement)
      | none =>
        let (remaining, s) := release isTrue rs l is s
        (i :: remaining, s)
    | _ => release isTrue rs l is s

/-- Empties the list of those that watch `l`. -/
def takeWatchers (l : Literal) (s : State) : List Nat × State :=
  ((s.watchers.getD l #[]).toList,
    match s with
    | ⟨status, watched, watchers⟩ => ⟨status, watched, watchers.set l #[]⟩)

/-- Tries to drop a literal; true if it turns out to be mandatory. -/
def tryDrop (isTrue : LiteralTable Bool) (rs : Array Requirement) (l : Literal) (s : State) :
    Bool × State :=
  let (watchers, s) := s.takeWatchers l
  match release isTrue rs l watchers s with
  | ([], s) => (false, s.setStatus l .dropped)
  | (remaining, ⟨status, watched, watchers⟩) =>
    (true, ⟨status.set l .mandatory, watched, watchers.modify l (· ++ remaining.toArray)⟩)

/-- Tries the literals in order and lists those that are mandatory. -/
def tryAll (isTrue : LiteralTable Bool) (rs : Array Requirement) :
    List Literal → State → List Literal
  | [], _ => []
  | l :: ls, s =>
    if s.status.getD l .candidate = .mandatory then tryAll isTrue rs ls s
    else
      match s.tryDrop isTrue rs l with
      | (true, s) => l :: tryAll isTrue rs ls s
      | (false, s) => tryAll isTrue rs ls s

end State

/-- The literals of a prime implicant in the order in which they are found out, when the literals of
the model are tried in the given order. -/
def implicantInOrder (order model : List Literal) (rs : List Requirement) : List Literal :=
  let isTrue := Requirement.truthTable model
  let table := Requirement.mandatoryTable rs
  let given := model.filter fun l => Requirement.isMandatory table l.var
  let s := given.foldl (fun s l => s.setStatus l .mandatory) (State.ofRequirements isTrue rs)
  given ++ s.tryAll isTrue rs.toArray order

/-- The literals that come last in the model are tried first. -/
def implicant (model : List Literal) (rs : List Requirement) : List Literal :=
  implicantInOrder model.reverse model rs

end ClauseLearning.WatcherBased
