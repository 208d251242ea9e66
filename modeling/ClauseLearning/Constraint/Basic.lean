import ClauseLearning.Constraint.Cardinality
import ClauseLearning.Constraint.Parity
import ClauseLearning.Custom.Script
import ClauseLearning.Fault

/-!
# Constraints

A constraint is of one of four kinds and carries what the database has to remember about it. Every
kind answers the same five questions: how to attach, what follows when a watched literal becomes
true, why something followed, what to take back, and whether it is satisfied for good.
-/

namespace ClauseLearning

inductive Kind (κ : Type)
  | clause (c : Clause)
  | cardinality (c : Cardinality)
  | parity (c : Parity)
  | custom (c : κ)
  deriving Repr

/-- What the database remembers of a constraint. -/
structure Metadata where
  learned : Bool
  activity : Float
  /-- The literal block distance: how many levels the literals came from. -/
  lbd : Nat
  /-- How many constraints were learned up to and including this one. -/
  age : Nat
  /-- Survives every reduction. -/
  isProtected : Bool
  /-- Holds only for the restriction of decisions under which it was made. -/
  restricted : Bool
  /-- The number of the added constraint that this one belongs to, unless it is learned. -/
  handle : Option Nat
  deriving Repr

namespace Metadata

def ofHandle (handle : Nat) : Metadata := ⟨false, 0, 0, 0, false, false, some handle⟩

def learnedAt (age : Nat) : Metadata := ⟨true, 0, 0, age, false, false, none⟩

/-- Of a clause that forbids the current decisions. -/
def blockingAt (age : Nat) : Metadata := ⟨true, 0, 0, age, true, true, none⟩

end Metadata

structure Constraint (κ : Type) where
  kind : Kind κ
  metadata : Metadata
  deriving Repr

namespace Constraint

variable {κ : Type} [CustomConstraint κ]

def literals (c : Constraint κ) : List Literal :=
  match c.kind with
  | .clause c => c.literals
  | .cardinality c => c.literals
  | .parity c => c.literals
  | .custom c => CustomConstraint.literals c

def size (c : Constraint κ) : Nat := c.literals.length

/-- Registers the first watches; false if the constraint is violated. -/
def attach (r : Reference) (c : Constraint κ) (b : Board) : Bool × Constraint κ × Board :=
  match c with
  | ⟨.clause k, m⟩ => (true, ⟨.clause k, m⟩, k.attach r b)
  | ⟨.cardinality k, m⟩ => (true, ⟨.cardinality k, m⟩, k.attach r b)
  | ⟨.parity k, m⟩ => (true, ⟨.parity k, m⟩, k.attach r b)
  | ⟨.custom k, m⟩ =>
    let ((ok, k), b) := (CustomConstraint.attach k).run r b
    (ok, ⟨.custom k, m⟩, b)

/-- Notifies the constraint that `p` became true; false on a conflict. -/
def propagate (r : Reference) (p : Literal) (c : Constraint κ) (b : Board) :
    Bool × Constraint κ × Board :=
  match c with
  | ⟨.clause k, m⟩ =>
    let (ok, k, b) := k.propagate r p b
    (ok, ⟨.clause k, m⟩, b)
  | ⟨.cardinality k, m⟩ =>
    let (ok, k, b) := k.propagate r p b
    (ok, ⟨.cardinality k, m⟩, b)
  | ⟨.parity k, m⟩ =>
    let (ok, k, b) := k.propagate r p b
    (ok, ⟨.parity k, m⟩, b)
  | ⟨.custom k, m⟩ =>
    let ((ok, k), b) := (CustomConstraint.propagate k p).run r b
    (ok, ⟨.custom k, m⟩, b)

/-- The false literals that explain `p`, or the conflict if there is no `p`. -/
def reason (a : Assignment) (c : Constraint κ) (p : Option Literal) : List Literal :=
  match c.kind with
  | .clause c => c.reason p
  | .cardinality c => c.reason a p
  | .parity c => c.reason a p
  | .custom c => CustomConstraint.reason c a p

/-- Tells the constraint that the true literal `p` lost its value. -/
def undo (p : Literal) (c : Constraint κ) : Except Fault (Constraint κ) :=
  match c with
  | ⟨.cardinality k, m⟩ =>
    match k.undo? with
    | some k => .ok ⟨.cardinality k, m⟩
    | none => .error .counterUnderflow
  | ⟨.custom k, m⟩ => .ok ⟨.custom (CustomConstraint.undo k p), m⟩
  | c => .ok c

def isSatisfied (a : Assignment) (c : Constraint κ) : Bool :=
  match c.kind with
  | .clause c => c.isSatisfied a
  | .cardinality c => c.isSatisfied a
  | .parity c => c.isSatisfied a
  | .custom c => CustomConstraint.isSatisfied c a

/-- Whether the true literal `l` has `r` as its reason. -/
def isReasonOf (a : Assignment) (r : Reference) (l : Literal) : Bool :=
  a.isSatisfied l && a.reason? l.var == some r

/-- Whether the constraint is the reason of a current value, so that it cannot be deleted. -/
def isLocked (a : Assignment) (r : Reference) (c : Constraint κ) : Bool :=
  match c.kind with
  -- Only the first literal of a clause is ever forced.
  | .clause c => isReasonOf a r c.first
  | .parity c => c.literals.any fun l => isReasonOf a r l || isReasonOf a r (-l)
  | .cardinality c => c.literals.any (isReasonOf a r)
  | .custom c => (CustomConstraint.literals c).any (isReasonOf a r)

def modifyMetadata (f : Metadata → Metadata) (c : Constraint κ) : Constraint κ :=
  { c with metadata := f c.metadata }

def bumpActivity (increment : Float) (c : Constraint κ) : Constraint κ :=
  c.modifyMetadata fun m => { m with activity := m.activity + increment }

/-! ## What stays -/

theorem metadata_attach (r : Reference) (c : Constraint κ) (b : Board) :
    (c.attach r b).2.1.metadata = c.metadata := by
  obtain ⟨k, m⟩ := c
  cases k <;> rfl

theorem metadata_propagate (r : Reference) (p : Literal) (c : Constraint κ) (b : Board) :
    (c.propagate r p b).2.1.metadata = c.metadata := by
  obtain ⟨k, m⟩ := c
  cases k <;> rfl

theorem metadata_undo {p : Literal} {c c' : Constraint κ} (h : c.undo p = .ok c') :
    c'.metadata = c.metadata := by
  obtain ⟨k, m⟩ := c
  cases k with
  | cardinality k =>
    simp only [undo] at h
    split at h
    · cases h
      rfl
    · cases h
  | _ =>
    cases h
    rfl

end Constraint

end ClauseLearning
