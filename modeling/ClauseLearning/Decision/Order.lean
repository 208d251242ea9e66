import ClauseLearning.Assignment
import ClauseLearning.Decision.Phase
import ClauseLearning.PriorityHeap

/-!
# The order of decisions

Variables that took part in recent conflicts are decided first. A variable leaves the heap when it
is picked and comes back when it is unassigned, so the heap holds every unassigned variable that
may be decided. Decisions can be restricted to some variables.

`var_nextDecision` says that a decision is a literal of an unassigned variable.
-/

namespace ClauseLearning

structure DecisionOrder (γ : Type) where
  heap : PriorityHeap Float
  /-- What the next bump adds. -/
  increment : Float
  decayFactor : Float
  /-- The probability of deciding some variable instead of the most active one. -/
  randomFrequency : Float
  generator : γ
  /-- Per variable, whether it may be decided; every variable may be if there is no table. -/
  allowed : Option (Array Bool)
  phase : Phase γ
  deriving Repr

namespace DecisionOrder

variable {γ : Type}

/-- Activities that would reach this are all scaled down first. -/
def maxActivity : Float := 1e100

def make [RandomSource γ] (decayFactor randomFrequency : Float) (seed : UInt64) (rule : PhaseRule) :
    DecisionOrder γ :=
  ⟨.empty, 1.0, decayFactor, randomFrequency, RandomSource.ofSeed seed, none, .ofRule seed rule⟩

def isDecision (o : DecisionOrder γ) (v : Nat) : Bool :=
  v != 0 &&
    match o.allowed with
    | none => true
    | some table => table[v]?.getD false

def modifyHeap (f : PriorityHeap Float → PriorityHeap Float) : DecisionOrder γ → DecisionOrder γ
  | ⟨heap, increment, decayFactor, randomFrequency, generator, allowed, phase⟩ =>
    ⟨f heap, increment, decayFactor, randomFrequency, generator, allowed, phase⟩

/-- Adds the next variable, in the heap if it may be decided. -/
def addVariable (o : DecisionOrder γ) : DecisionOrder γ :=
  let v := o.heap.numKeys
  let isDecision := o.isDecision v
  o.modifyHeap fun heap =>
    let heap := heap.push 0.0
    if isDecision then heap else heap.delete v

/-- Makes room for variables `1..n`. -/
def grow (n : Nat) (o : DecisionOrder γ) : DecisionOrder γ :=
  match (n + 1 - o.heap.numKeys).repeat addVariable o with
  | ⟨heap, increment, decayFactor, randomFrequency, generator, allowed, phase⟩ =>
    ⟨heap, increment, decayFactor, randomFrequency, generator,
      allowed.map fun table => table ++ Array.replicate (n + 1 - table.size) false, phase.grow n⟩

/-- Puts every variable that may be decided into the heap and takes the others out. -/
def restoreAll (o : DecisionOrder γ) : DecisionOrder γ :=
  (List.range' 1 (o.heap.numKeys - 1)).foldl (fun o v =>
    let isDecision := o.isDecision v
    o.modifyHeap fun heap => if isDecision then heap.restore v else heap.delete v) o

/-- The table that allows just the given variables. -/
def allowedTable (numKeys : Nat) (vs : List Nat) : Array Bool :=
  vs.foldl (fun table v =>
    (table ++ Array.replicate (v + 1 - table.size) false).setIfInBounds v true)
    (Array.replicate numKeys false)

/-- Allows just the given variables to be decided, or every variable. -/
def restrictTo (vs : Option (List Nat)) (o : DecisionOrder γ) : DecisionOrder γ :=
  restoreAll { o with allowed := vs.map (allowedTable o.heap.numKeys) }

/-- How many variables a restriction names; all that exist if it is lifted. -/
def restrictionSize (vs : Option (List Nat)) (o : DecisionOrder γ) : Nat :=
  (vs.map List.length).getD (o.heap.numKeys - 1)

/-! ## Activities -/

def rescale (o : DecisionOrder γ) : DecisionOrder γ :=
  match o.modifyHeap (·.divideAll maxActivity) with
  | ⟨heap, increment, decayFactor, randomFrequency, generator, allowed, phase⟩ =>
    ⟨heap, increment / maxActivity, decayFactor, randomFrequency, generator, allowed, phase⟩

def bump (v : Nat) (o : DecisionOrder γ) : DecisionOrder γ :=
  let isLarge := decide ((o.heap.value? v).getD 0 + o.increment ≥ maxActivity)
  let o := if isLarge then o.rescale else o
  let increment := o.increment
  o.modifyHeap (·.increase v increment)

def decay (o : DecisionOrder γ) : DecisionOrder γ :=
  { o with increment := o.increment / o.decayFactor }

/-- Called when the true literal `l` loses its value. -/
def onUnassign (l : Literal) (o : DecisionOrder γ) : DecisionOrder γ :=
  let isDecision := o.isDecision l.var
  match o with
  | ⟨heap, increment, decayFactor, randomFrequency, generator, allowed, phase⟩ =>
    ⟨if isDecision then heap.restore l.var else heap, increment, decayFactor, randomFrequency,
      generator, allowed, phase.onUnassign l⟩

/-! ## Decisions -/

variable [RandomSource γ]

def select (v : Nat) : DecisionOrder γ → Literal × DecisionOrder γ
  | ⟨heap, increment, decayFactor, randomFrequency, generator, allowed, phase⟩ =>
    let (l, phase) := phase.select v
    (l, ⟨heap, increment, decayFactor, randomFrequency, generator, allowed, phase⟩)

/-- Tosses whether to decide some variable, and draws it. -/
def drawVariable? : DecisionOrder γ → Option Nat × DecisionOrder γ
  | ⟨heap, increment, decayFactor, randomFrequency, generator, allowed, phase⟩ =>
    if randomFrequency > 0 ∧ heap.numKeys > 1 then
      let p := if randomFrequency < 1 then randomFrequency else 1
      let (isRandom, generator) := RandomSource.chance p generator
      if isRandom then
        let (v, generator) := RandomSource.index heap.numKeys generator
        (some v, ⟨heap, increment, decayFactor, randomFrequency, generator, allowed, phase⟩)
      else (none, ⟨heap, increment, decayFactor, randomFrequency, generator, allowed, phase⟩)
    else (none, ⟨heap, increment, decayFactor, randomFrequency, generator, allowed, phase⟩)

/-- Takes keys out of the heap up to the first that is unassigned. -/
def popUnassigned (a : Assignment) : Nat → PriorityHeap Float → Option Nat × PriorityHeap Float
  | 0, heap => (none, heap)
  | fuel + 1, heap =>
    match heap.peek? with
    | none => (none, heap)
    | some v =>
      let heap := heap.delete v
      if a.isAssigned v then popUnassigned a fuel heap else (some v, heap)

/-- Picks the most active variable. -/
def nextActive (a : Assignment) : DecisionOrder γ → Option Literal × DecisionOrder γ
  | ⟨heap, increment, decayFactor, randomFrequency, generator, allowed, phase⟩ =>
    let (v?, heap) := popUnassigned a heap.size heap
    match v? with
    | none => (none, ⟨heap, increment, decayFactor, randomFrequency, generator, allowed, phase⟩)
    | some v =>
      let (l, phase) := phase.select v
      (some l, ⟨heap, increment, decayFactor, randomFrequency, generator, allowed, phase⟩)

/-- The next decision; none if every variable that may be decided is assigned. -/
def nextDecision (a : Assignment) (o : DecisionOrder γ) : Option Literal × DecisionOrder γ :=
  match o.drawVariable? with
  | (some v, o) =>
    if !a.isAssigned v && o.isDecision v then
      let (l, o) := o.select v
      (some l, o)
    else o.nextActive a
  | (none, o) => o.nextActive a

theorem popUnassigned_isAssigned {a : Assignment} {fuel v : Nat}
    {heap heap' : PriorityHeap Float} (h : popUnassigned a fuel heap = (some v, heap')) :
    a.isAssigned v = false := by
  induction fuel generalizing heap with
  | zero => simp [popUnassigned] at h
  | succ fuel ih =>
    unfold popUnassigned at h
    split at h
    · simp at h
    · split at h
      · exact ih h
      · simp_all

theorem nextActive_isAssigned {a : Assignment} {o o' : DecisionOrder γ} {l : Literal}
    (h : o.nextActive a = (some l, o')) : a.isAssigned l.var = false := by
  cases o with
  | mk heap _ _ _ _ _ phase =>
    cases hp : popUnassigned a heap.size heap with
    | mk v? heap' =>
      simp only [nextActive, hp] at h
      cases v? with
      | none => simp at h
      | some v =>
        simp only [Prod.mk.injEq, Option.some.injEq] at h
        rw [← h.1, Phase.var_select]
        exact popUnassigned_isAssigned hp

/-- A decision is about an unassigned variable. -/
theorem var_nextDecision {a : Assignment} {o o' : DecisionOrder γ} {l : Literal}
    (h : o.nextDecision a = (some l, o')) : a.isAssigned l.var = false := by
  unfold nextDecision at h
  split at h
  · split at h
    · rename_i v o₁ _ hv
      cases o₁
      simp only [select, Prod.mk.injEq, Option.some.injEq] at h
      rw [← h.1, Phase.var_select]
      simp_all
    · exact nextActive_isAssigned h
  · exact nextActive_isAssigned h

end DecisionOrder

end ClauseLearning
