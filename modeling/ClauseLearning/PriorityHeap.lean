/-!
# A heap of keys with priorities

The keys are the numbers `0, 1, …` in the order in which they were added. A key can be taken out and
put back; meanwhile its priority is kept and still changes, so it comes back where it belongs. The
first `size` positions form a binary heap with the largest priority first, the other positions hold
the keys that are out.

Nothing is assumed of the comparison here; that the largest key is served first needs an order.

* `contains_iff`: a key is in the heap when its position is below `size`.
* `size_siftUp`, `size_siftDown`: sifting only exchanges positions.
-/

namespace ClauseLearning

structure PriorityHeap (P : Type) where
  /-- The priority at each position. -/
  priorities : Array P
  /-- The key at each position. -/
  keys : Array Nat
  /-- The position of each key. -/
  positions : Array Nat
  /-- How many positions form the heap. -/
  size : Nat
  deriving Repr

namespace PriorityHeap

variable {P : Type}

def empty : PriorityHeap P := ⟨#[], #[], #[], 0⟩

/-- How many keys were added, those that are out included. -/
def numKeys (h : PriorityHeap P) : Nat := h.priorities.size

def position? (h : PriorityHeap P) (key : Nat) : Option Nat := h.positions[key]?

def contains (h : PriorityHeap P) (key : Nat) : Bool :=
  match h.position? key with
  | some i => decide (i < h.size)
  | none => false

def value? (h : PriorityHeap P) (key : Nat) : Option P :=
  (h.position? key).bind fun i => h.priorities[i]?

/-- The key with the largest priority. -/
def peek? (h : PriorityHeap P) : Option Nat := if 0 < h.size then h.keys[0]? else none

/-! ## Sifting -/

/-- Exchanges the contents of two positions. -/
def swap (i j : Nat) : PriorityHeap P → PriorityHeap P
  | ⟨priorities, keys, positions, size⟩ =>
    let k := keys[i]?.getD 0
    let m := keys[j]?.getD 0
    ⟨priorities.swapIfInBounds i j, keys.swapIfInBounds i j,
      (positions.setIfInBounds k j).setIfInBounds m i, size⟩

@[simp] theorem size_swap (h : PriorityHeap P) (i j : Nat) : (h.swap i j).size = h.size := rfl

variable [LE P] [LT P] [DecidableLE P] [DecidableLT P]

/-- The priority at `j` is at most the one at `i`. -/
def dominates (h : PriorityHeap P) (i j : Nat) : Bool :=
  match h.priorities[i]?, h.priorities[j]? with
  | some p, some q => decide (q ≤ p)
  | _, _ => true

/-- The priority at `i` is below the one at `j`. -/
def isBelow (h : PriorityHeap P) (i j : Nat) : Bool :=
  match h.priorities[i]?, h.priorities[j]? with
  | some p, some q => decide (p < q)
  | _, _ => false

/-- Moves the key at a position towards the top until its parent dominates it. -/
def siftUp (i : Nat) (h : PriorityHeap P) : PriorityHeap P :=
  if 0 < i then
    let parent := (i - 1) / 2
    if h.dominates parent i then h
    else siftUp parent (h.swap parent i)
  else h
termination_by i
decreasing_by omega

/-- The child with the larger priority, the left one of two equal ones. -/
def largerChild (h : PriorityHeap P) (i : Nat) : Nat :=
  if 2 * i + 2 < h.size ∧ h.isBelow (2 * i + 1) (2 * i + 2) then 2 * i + 2 else 2 * i + 1

/-- Moves the key at a position down until it dominates its children. -/
def siftDown (i : Nat) (h : PriorityHeap P) : PriorityHeap P :=
  if _hi : 2 * i + 1 < h.size then
    let child := h.largerChild i
    if h.dominates i child then h
    else siftDown child (h.swap i child)
  else h
termination_by h.size - i
decreasing_by
  simp only [largerChild, size_swap]
  split <;> omega

/-! ## Keys in and out -/

/-- Takes a key out. -/
def delete (key : Nat) (h : PriorityHeap P) : PriorityHeap P :=
  match h.position? key with
  | none => h
  | some i =>
    if i < h.size then
      match h.swap i (h.size - 1) with
      | ⟨priorities, keys, positions, size⟩ =>
        let h : PriorityHeap P := ⟨priorities, keys, positions, size - 1⟩
        if i < h.size then h.siftDown i else h
    else h

/-- Puts a key back. -/
def restore (key : Nat) (h : PriorityHeap P) : PriorityHeap P :=
  match h.position? key with
  | none => h
  | some i =>
    if i < h.size then h
    else
      match h.swap i h.size with
      | ⟨priorities, keys, positions, size⟩ =>
        siftUp size ⟨priorities, keys, positions, size + 1⟩

/-- Adds the next key, in the heap. -/
def push (priority : P) : PriorityHeap P → PriorityHeap P
  | ⟨priorities, keys, positions, size⟩ =>
    let i := priorities.size
    match (⟨priorities.push priority, keys.push positions.size, positions.push i, size⟩ :
        PriorityHeap P).swap size i with
    | ⟨priorities, keys, positions, size⟩ =>
      siftUp size ⟨priorities, keys, positions, size + 1⟩

/-- Adds to the priority of a key, in the heap or not. -/
def increase [Add P] (key : Nat) (amount : P) (h : PriorityHeap P) : PriorityHeap P :=
  match h.position? key with
  | none => h
  | some i =>
    match h with
    | ⟨priorities, keys, positions, size⟩ =>
      let h : PriorityHeap P := ⟨priorities.modify i (· + amount), keys, positions, size⟩
      if i < h.size then h.siftUp i else h

/-- Divides every priority. -/
def divideAll [Div P] (divisor : P) : PriorityHeap P → PriorityHeap P
  | ⟨priorities, keys, positions, size⟩ =>
    ⟨priorities.map (· / divisor), keys, positions, size⟩

/-! ## Laws -/

omit [LE P] [LT P] [DecidableLE P] [DecidableLT P] in
theorem contains_iff (h : PriorityHeap P) (key : Nat) :
    h.contains key = true ↔ ∃ i, h.position? key = some i ∧ i < h.size := by
  unfold contains
  cases h.position? key <;> simp

omit [LT P] [DecidableLT P] in
@[simp] theorem size_siftUp (h : PriorityHeap P) (i : Nat) : (h.siftUp i).size = h.size := by
  fun_induction siftUp i h with
  | case1 => rfl
  | case2 _ _ _ _ _ ih => simpa using ih
  | case3 => rfl

@[simp] theorem size_siftDown (h : PriorityHeap P) (i : Nat) : (h.siftDown i).size = h.size := by
  fun_induction siftDown i h with
  | case1 => rfl
  | case2 _ _ _ _ _ ih => simpa using ih
  | case3 => rfl

end PriorityHeap

end ClauseLearning
