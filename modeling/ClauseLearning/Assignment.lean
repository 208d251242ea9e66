import ClauseLearning.Literal

/-!
# The partial assignment

Every assigned variable has a cell with its value, the decision level at which it was assigned, the
constraint that forced it and its place on the trail. The trail lists the true literals in the order
in which they became true; a level starts where the trail ended when the level was opened.

Nothing is known of an unassigned variable: the cell is dropped as a whole.

* `isFalsified_iff`: a literal is false when its negation is true.
* `cell?_assign_self`, `cell?_assign_of_ne`: making a literal true touches one cell.
-/

namespace ClauseLearning

/-- The slot of a constraint in the arena. -/
structure Reference where
  slot : Nat
  deriving DecidableEq, Repr, Inhabited

/-- What is known of an assigned variable. -/
structure Cell where
  value : Bool
  level : Nat
  /-- The constraint that forced the value; decisions and root facts may have none. -/
  reason : Option Reference
  position : Nat
  deriving DecidableEq, Repr

structure Assignment where
  /-- One cell per variable; the cell of number 0 stays empty. -/
  cells : Array (Option Cell)
  trail : Array Literal
  /-- The length of the trail when each level above the root was opened. -/
  levelStarts : Array Nat
  deriving Repr

namespace Assignment

def empty : Assignment := ⟨#[], #[], #[]⟩

def numVariables (a : Assignment) : Nat := a.cells.size - 1

/-- Makes variables `1..n` known. -/
def grow (a : Assignment) (n : Nat) : Assignment :=
  { a with cells := a.cells ++ Array.replicate (n + 1 - a.cells.size) none }

/-- The variables that are known, in ascending order. -/
def vars (a : Assignment) : List Nat := List.range' 1 a.numVariables

/-! ## Reading -/

@[inline] def cell? (a : Assignment) (v : Nat) : Option Cell := a.cells[v]?.join

@[inline] def isAssigned (a : Assignment) (v : Nat) : Bool := (a.cell? v).isSome

@[inline] def isSatisfied (a : Assignment) (l : Literal) : Bool :=
  match a.cell? l.var with
  | some c => c.value == l.isPositive
  | none => false

@[inline] def isFalsified (a : Assignment) (l : Literal) : Bool :=
  match a.cell? l.var with
  | some c => c.value != l.isPositive
  | none => false

def isUnassigned (a : Assignment) (l : Literal) : Bool := (a.cell? l.var).isNone

/-- The true literal of an assigned variable. -/
def satisfiedLiteral? (a : Assignment) (v : Nat) : Option Literal :=
  (a.cell? v).map fun c => Literal.make v c.value

@[inline] def level? (a : Assignment) (v : Nat) : Option Nat := (a.cell? v).map (·.level)

/-- The level of a variable that is assigned, and 0 of one that is not. -/
def levelOf (a : Assignment) (v : Nat) : Nat := (a.level? v).getD 0

@[inline] def reason? (a : Assignment) (v : Nat) : Option Reference := (a.cell? v).bind (·.reason)

def position? (a : Assignment) (v : Nat) : Option Nat := (a.cell? v).map (·.position)

def decisionLevel (a : Assignment) : Nat := a.levelStarts.size

/-- Where a level starts on the trail; the root starts at 0. -/
def startOfLevel (a : Assignment) : Nat → Nat
  | 0 => 0
  | level + 1 => a.levelStarts[level]?.getD a.trail.size

/-- The literals of a level, oldest first. -/
def literalsOfLevel (a : Assignment) (level : Nat) : List Literal :=
  (a.trail.extract (a.startOfLevel level) (a.startOfLevel (level + 1))).toList

/-! ## Writing -/

def openLevel : Assignment → Assignment
  | ⟨cells, trail, starts⟩ => ⟨cells, trail, starts.push trail.size⟩

/-- Makes an unassigned literal true at the current level. -/
def assign (l : Literal) (reason : Option Reference) : Assignment → Assignment
  | ⟨cells, trail, starts⟩ =>
    ⟨cells.setIfInBounds l.var (some ⟨l.isPositive, starts.size, reason, trail.size⟩),
      trail.push l, starts⟩

/-- Makes a literal true unless it has a value; false if it is false, or of no known variable. -/
def enqueue (l : Literal) (reason : Option Reference) (a : Assignment) : Bool × Assignment :=
  match a.cells[l.var]? with
  | some none => (true, a.assign l reason)
  | some (some c) => (c.value == l.isPositive, a)
  | none => (false, a)

def newest? (a : Assignment) : Option Literal := a.trail.back?

/-- Takes the newest literal, `l`, off the trail and forgets its cell. -/
def unassign (l : Literal) : Assignment → Assignment
  | ⟨cells, trail, starts⟩ => ⟨cells.setIfInBounds l.var none, trail.pop, starts⟩

/-- Forgets which levels above `level` were open. -/
def closeLevels (level : Nat) : Assignment → Assignment
  | ⟨cells, trail, starts⟩ => ⟨cells, trail, starts.take level⟩

/-- Turns the value of a variable into one without an explanation. -/
def clearReason (v : Nat) : Assignment → Assignment
  | ⟨cells, trail, starts⟩ =>
    ⟨cells.modify v (Option.map fun c => { c with reason := none }), trail, starts⟩

/-- Unassigns every variable and keeps the variables. -/
def clear (a : Assignment) : Assignment :=
  ⟨Array.replicate a.cells.size none, #[], #[]⟩

/-! ## Laws -/

@[simp] theorem isFalsified_negate (a : Assignment) (l : Literal) :
    a.isFalsified (-l) = a.isSatisfied l := by
  unfold isFalsified isSatisfied
  rw [Literal.var_negate, Literal.isPositive_negate]
  cases a.cell? l.var with
  | none => rfl
  | some c =>
    cases c with
    | mk value _ _ _ => cases value <;> cases l.isPositive <;> rfl

theorem isFalsified_iff (a : Assignment) (l : Literal) :
    a.isFalsified l = a.isSatisfied (-l) := by
  rw [← isFalsified_negate, Literal.negate_negate]

@[simp] theorem isUnassigned_negate (a : Assignment) (l : Literal) :
    a.isUnassigned (-l) = a.isUnassigned l := by
  simp [isUnassigned]

theorem not_isSatisfied_of_isUnassigned {a : Assignment} {l : Literal} (h : a.isUnassigned l) :
    a.isSatisfied l = false := by
  cases hc : a.cell? l.var with
  | none => simp [isSatisfied, hc]
  | some c => simp [isUnassigned, hc] at h

theorem cell?_assign_self {a : Assignment} {l : Literal} (r : Option Reference)
    (h : l.var < a.cells.size) :
    (a.assign l r).cell? l.var =
      some ⟨l.isPositive, a.decisionLevel, r, a.trail.size⟩ := by
  simp [assign, cell?, decisionLevel, h]

theorem cell?_assign_of_ne (a : Assignment) {l : Literal} (r : Option Reference) {v : Nat}
    (h : l.var ≠ v) : (a.assign l r).cell? v = a.cell? v := by
  simp [assign, cell?, h]

@[simp] theorem trail_assign (a : Assignment) (l : Literal) (r : Option Reference) :
    (a.assign l r).trail = a.trail.push l := rfl

@[simp] theorem decisionLevel_assign (a : Assignment) (l : Literal) (r : Option Reference) :
    (a.assign l r).decisionLevel = a.decisionLevel := rfl

theorem isSatisfied_assign_self {a : Assignment} {l : Literal} (r : Option Reference)
    (h : l.var < a.cells.size) : (a.assign l r).isSatisfied l = true := by
  simp [isSatisfied, cell?_assign_self r h]

end Assignment

end ClauseLearning
