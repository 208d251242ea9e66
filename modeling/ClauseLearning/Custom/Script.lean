import ClauseLearning.Board

/-!
# Constraints of the user's own

A constraint from outside answers a notification with a script: the watches it wants, the undo
entries it registers, the literals it makes true, and the looks at the assignment on which all that
depends. A script can only ask for what it lists, so no constraint touches the board in another
way, and it is a finite tree, so every answer ends.

The class `CustomConstraint` is the interface. Its values are kept in the description they were
added with, and every rebuild starts from that value again.
-/

namespace ClauseLearning

/-- What a notified constraint does to the board, with a result. -/
inductive Script (α : Type)
  | done (result : α)
  | watch (l : Literal) (next : Script α)
  | unwatch (l : Literal) (next : Script α)
  | registerUndo (v : Nat) (next : Script α)
  | enqueue (l : Literal) (next : Bool → Script α)
  | look (next : Assignment → Script α)

namespace Script

variable {α β : Type}

/-- Carries a script out in the name of the constraint `r`. -/
def run (r : Reference) : Script α → Board → α × Board
  | done result, b => (result, b)
  | watch l next, b => next.run r (b.watch r l none)
  | unwatch l next, b => next.run r (b.unwatch r l)
  | registerUndo v next, b => next.run r (b.registerUndo r v)
  | enqueue l next, b =>
    let (ok, b) := b.enqueue (some r) l
    (next ok).run r b
  | look next, b => (next b.assignment).run r b

/-- Changes the result. -/
def map (f : α → β) : Script α → Script β
  | done result => .done (f result)
  | watch l next => .watch l (next.map f)
  | unwatch l next => .unwatch l (next.map f)
  | registerUndo v next => .registerUndo v (next.map f)
  | enqueue l next => .enqueue l fun ok => (next ok).map f
  | look next => .look fun a => (next a).map f

/-- Watches the literals in order and goes on. -/
def watchAll (ls : List Literal) (next : Script α) : Script α :=
  ls.foldr watch next

def unwatchAll (ls : List Literal) (next : Script α) : Script α :=
  ls.foldr unwatch next

/-- Makes the literals true in order, up to the first that is false, and says whether all are. -/
def enqueueAll (next : Bool → Script α) : List Literal → Script α
  | [] => next true
  | l :: ls => .enqueue l fun ok => if ok then enqueueAll next ls else next false

theorem run_map (f : α → β) (r : Reference) (s : Script α) (b : Board) :
    (s.map f).run r b = ((f (s.run r b).1), (s.run r b).2) := by
  induction s generalizing b with
  | done result => rfl
  | watch l next ih => exact ih _
  | unwatch l next ih => exact ih _
  | registerUndo v next ih => exact ih _
  | enqueue l next ih => exact ih _ _
  | look next ih => exact ih _ _

theorem run_watchAll (r : Reference) (ls : List Literal) (next : Script α) (b : Board) :
    (watchAll ls next).run r b = next.run r (ls.foldl (fun b l => b.watch r l none) b) := by
  induction ls generalizing b with
  | nil => rfl
  | cons l ls ih => exact ih _

theorem run_enqueueAll (r : Reference) (ls : List Literal) (next : Bool → Script α) (b : Board) :
    (enqueueAll next ls).run r b =
      (next (b.enqueueAll (some r) ls).1).run r (b.enqueueAll (some r) ls).2 := by
  induction ls generalizing b with
  | nil => rfl
  | cons l ls ih =>
    cases h : b.enqueue (some r) l with
    | mk ok b' => cases ok <;> simp [enqueueAll, run, Board.enqueueAll, h, ih]

end Script

/-- Sorts literals by their place on the trail, oldest first. -/
def Assignment.sortByPosition (a : Assignment) (ls : List Literal) : List Literal :=
  ls.mergeSort fun l m =>
    decide ((a.position? l.var).getD 0 ≤ (a.position? m.var).getD 0)

/-- A kind of constraints that the search knows only through its answers. -/
class CustomConstraint (κ : Type) where
  /-- Every literal the constraint is defined over. -/
  literals : κ → List Literal
  /-- Called once, at the root, to set up watches; false if the constraint is violated. -/
  attach : κ → Script (Bool × κ)
  /-- Called when a watched literal became true; false on a conflict. The watch is gone unless the
  script asks for it again. -/
  propagate : κ → Literal → Script (Bool × κ)
  /-- The false literals that force a literal, or that are in conflict if none is given. -/
  reason : κ → Assignment → Option Literal → List Literal
  /-- Called when a variable registered for it is unassigned, with the literal that was true. -/
  undo : κ → Literal → κ
  /-- Whether every extension of the assignment satisfies the constraint. -/
  isSatisfied : κ → Assignment → Bool

/-- With no values there is nothing to answer. -/
instance : CustomConstraint Empty where
  literals := nofun
  attach := nofun
  propagate := nofun
  reason := nofun
  undo := nofun
  isSatisfied := nofun

end ClauseLearning
