import ClauseLearning.Constraint.Basic

/-!
# The arena of constraints

Every attached constraint lives in a slot, and references name slots. Freeing empties a slot; it is
handed out again only after it was recycled, which is done once no watch list names it any more.

`get?_set_self` and `get?_set_of_ne` say what changing a constraint does to the slots.
-/

namespace ClauseLearning

structure Arena (κ : Type) where
  slots : Array (Option (Constraint κ))
  /-- The empty slots that may be handed out again, the next one first. -/
  recycled : List Reference
  deriving Repr

namespace Arena

variable {κ : Type}

def empty : Arena κ := ⟨#[], []⟩

@[inline] def get? (s : Arena κ) (r : Reference) : Option (Constraint κ) := s.slots[r.slot]?.join

def isAlive (s : Arena κ) (r : Reference) : Bool := (s.get? r).isSome

/-- The constraint of a reference, which has to be alive. -/
@[inline] def get (s : Arena κ) (r : Reference) : Except Fault (Constraint κ) :=
  match s.get? r with
  | some c => .ok c
  | none => .error (.deletedConstraint r)

@[inline] def set (r : Reference) (c : Constraint κ) : Arena κ → Arena κ
  | ⟨slots, recycled⟩ => ⟨slots.setIfInBounds r.slot (some c), recycled⟩

/-- Puts a constraint into the newest recycled slot, or into a new one if there is none. -/
def allocate (c : Constraint κ) : Arena κ → Reference × Arena κ
  | ⟨slots, r :: recycled⟩ => (r, ⟨slots.setIfInBounds r.slot (some c), recycled⟩)
  | ⟨slots, []⟩ => (⟨slots.size⟩, ⟨slots.push (some c), []⟩)

/-- Empties a slot. -/
def free (r : Reference) : Arena κ → Arena κ
  | ⟨slots, recycled⟩ => ⟨slots.setIfInBounds r.slot none, recycled⟩

/-- Lets the slots be handed out again, the last one first. -/
def recycle (rs : List Reference) : Arena κ → Arena κ
  | ⟨slots, recycled⟩ => ⟨slots, rs.reverse ++ recycled⟩

/-- The constraints that are alive, in the order of their slots. -/
def toList (s : Arena κ) : List (Reference × Constraint κ) :=
  s.slots.toList.zipIdx.filterMap fun entry => entry.1.map fun c => (⟨entry.2⟩, c)

/-- The false literals that force the value of a variable; none if it has no reason. -/
def reasonOf [CustomConstraint κ] (s : Arena κ) (a : Assignment) (v : Nat) :
    Except Fault (Option (List Literal)) :=
  match a.reason? v, a.satisfiedLiteral? v with
  | some r, some p => do
    let c ← s.get r
    return some (c.reason a (some p))
  | _, _ => .ok none

theorem get?_set_self (s : Arena κ) (r : Reference) (c : Constraint κ) (h : s.isAlive r) :
    (s.set r c).get? r = some c := by
  have hlt : r.slot < s.slots.size := by
    by_cases hlt : r.slot < s.slots.size
    · exact hlt
    · simp [isAlive, get?, Array.getElem?_eq_none (Nat.le_of_not_lt hlt)] at h
  simp [set, get?, hlt]

theorem get?_set_of_ne (s : Arena κ) {r q : Reference} (c : Constraint κ) (h : r ≠ q) :
    (s.set r c).get? q = s.get? q := by
  have hs : r.slot ≠ q.slot := fun hs => h (by cases r; cases q; simp_all)
  simp [set, get?, hs]

end Arena

end ClauseLearning
