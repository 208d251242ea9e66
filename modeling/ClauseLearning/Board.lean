import ClauseLearning.Assignment
import ClauseLearning.LiteralTable

/-!
# Watch lists and the board

A constraint asks to be notified when a literal becomes true (a watcher in the list of that literal)
and to be told when a variable loses its value (an undo entry of that variable). The board joins
these lists with the partial assignment: it is all that a constraint can read or change while it is
notified, and whatever a constraint does to it is done in the constraint's name.
-/

namespace ClauseLearning

/-- An entry of a watch list. While the blocker is true the constraint need not be visited. -/
structure Watcher where
  constraint : Reference
  blocker : Option Literal
  deriving DecidableEq, Repr

structure Watches where
  lists : LiteralTable (Array Watcher)
  /-- Per variable, the constraints to tell when it is unassigned. -/
  undos : Array (Array Reference)
  deriving Repr

namespace Watches

def empty : Watches := ⟨.empty, #[]⟩

/-- Makes room for variables `1..n`. -/
def grow (n : Nat) : Watches → Watches
  | ⟨lists, undos⟩ =>
    ⟨lists.grow (2 * (n + 1)) #[], undos ++ Array.replicate (n + 1 - undos.size) #[]⟩

def watchersOf (w : Watches) (l : Literal) : List Watcher := (w.lists.getD l #[]).toList

def undosOf (w : Watches) (v : Nat) : List Reference := (w.undos[v]?.getD #[]).toList

@[inline] def add (l : Literal) (entry : Watcher) : Watches → Watches
  | ⟨lists, undos⟩ => ⟨lists.modify l (·.push entry), undos⟩

def append (l : Literal) (entries : List Watcher) : Watches → Watches
  | ⟨lists, undos⟩ => ⟨lists.modify l (· ++ entries.toArray), undos⟩

/-- Takes the first watcher of a constraint out of a list; the others keep their order. -/
def remove (l : Literal) (r : Reference) : Watches → Watches
  | ⟨lists, undos⟩ =>
    ⟨lists.modify l fun entries => entries.eraseP fun entry => entry.constraint == r, undos⟩

/-- Empties the list of a literal that is about to be visited. -/
def takeWatchers (l : Literal) (w : Watches) : List Watcher × Watches :=
  (w.watchersOf l, match w with | ⟨lists, undos⟩ => ⟨lists.set l #[], undos⟩)

def addUndo (v : Nat) (r : Reference) : Watches → Watches
  | ⟨lists, undos⟩ => ⟨lists, undos.modify v (·.push r)⟩

def takeUndos (v : Nat) (w : Watches) : List Reference × Watches :=
  (w.undosOf v, match w with | ⟨lists, undos⟩ => ⟨lists, undos.setIfInBounds v #[]⟩)

/-- Drops every entry of a constraint that is not alive. -/
def purge (isAlive : Reference → Bool) : Watches → Watches
  | ⟨lists, undos⟩ =>
    ⟨lists.map (·.filter fun entry => isAlive entry.constraint), undos.map (·.filter isAlive)⟩

/-- Drops every entry and keeps the variables. -/
def clear : Watches → Watches
  | ⟨lists, undos⟩ => ⟨lists.map fun _ => #[], undos.map fun _ => #[]⟩

end Watches

structure Board where
  assignment : Assignment
  watches : Watches
  deriving Repr

namespace Board

def empty : Board := ⟨.empty, .empty⟩

def grow (n : Nat) : Board → Board
  | ⟨assignment, watches⟩ => ⟨assignment.grow n, watches.grow n⟩

/-- Asks to be notified, as `r`, when `l` becomes true. -/
@[inline] def watch (r : Reference) (l : Literal) (blocker : Option Literal) : Board → Board
  | ⟨assignment, watches⟩ => ⟨assignment, watches.add l ⟨r, blocker⟩⟩

def unwatch (r : Reference) (l : Literal) : Board → Board
  | ⟨assignment, watches⟩ => ⟨assignment, watches.remove l r⟩

/-- Asks to be told, as `r`, when `v` is unassigned. -/
def registerUndo (r : Reference) (v : Nat) : Board → Board
  | ⟨assignment, watches⟩ => ⟨assignment, watches.addUndo v r⟩

/-- Makes `l` true with a reason; false if it is false already. -/
def enqueue (r : Option Reference) (l : Literal) : Board → Bool × Board
  | ⟨assignment, watches⟩ =>
    let (ok, assignment) := assignment.enqueue l r
    (ok, ⟨assignment, watches⟩)

/-- Makes the literals true in order, up to the first that is false. -/
def enqueueAll (r : Option Reference) : List Literal → Board → Bool × Board
  | [], b => (true, b)
  | l :: ls, b =>
    match b.enqueue r l with
    | (true, b) => enqueueAll r ls b
    | (false, b) => (false, b)

end Board

end ClauseLearning
