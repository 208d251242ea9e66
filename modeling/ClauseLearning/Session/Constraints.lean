import ClauseLearning.Session.Basic

/-!
# Adding and removing constraints

A constraint is added as a whole or not at all. It is removed by building everything anew from what
is left, which forgets what was learned; or in place, which is sound if the others imply it.

* `addConstraint_refused`: a constraint that is refused is not entered in the book.
-/

namespace ClauseLearning.Session

variable {κ : Type} [CustomConstraint κ]

/-! ## Adding -/

/-- Adds the parts of a constraint; the result is its handle. -/
def addConstraint (ds : List (Description κ)) : SessionM κ (Except Refusal Nat) := do
  let handle ← readBook (·.entries.size)
  match ← ofEngine (·.add handle ds) with
  | .error refusal => return .error refusal
  | .ok references =>
    modifyBook fun
      | ⟨options, entries, model, implicant, core, stopRequested, sharedBudget⟩ =>
        ⟨options, entries.push ⟨ds, references, false⟩, model, implicant, core, stopRequested,
          sharedBudget⟩
    return .ok handle

def addClause (ns : List Int) : SessionM κ (Except Refusal Nat) := do
  addConstraint [.clause (← literals ns)]

def addAtLeast (ns : List Int) (degree : Nat) : SessionM κ (Except Refusal Nat) := do
  addConstraint [.atLeast (← literals ns) degree]

def addAtMost (ns : List Int) (degree : Nat) : SessionM κ (Except Refusal Nat) := do
  addConstraint [.atMost (← literals ns) degree]

def addExactly (ns : List Int) (degree : Nat) : SessionM κ (Except Refusal Nat) := do
  addConstraint (Description.exactly (← literals ns) degree)

def addParity (ns : List Int) (even : Bool) : SessionM κ (Except Refusal Nat) := do
  addConstraint [.parity (← literals ns) even]

/-- Adds a constraint of the caller's own kind. -/
def addCustom (c : κ) : SessionM κ (Except Refusal Nat) := addConstraint [.custom c]

/-! ## Building anew -/

/-- Adds entries in order under their handles, the first of which is given. After a refusal the
others are left out; the flag says whether there was one. -/
def attachEntries : Nat → List (BookEntry κ) → Engine κ →
    Except Fault ((Bool × List (BookEntry κ)) × Engine κ)
  | _, [], e => .ok ((false, []), e)
  | handle, entry :: entries, e => do
    if entry.removed then
      let ((refused, rest), e) ← attachEntries (handle + 1) entries e
      return ((refused, { entry with references := [] } :: rest), e)
    match ← e.add handle entry.descriptions with
    | (.ok references, e) =>
      let ((refused, rest), e) ← attachEntries (handle + 1) entries e
      return ((refused, { entry with references } :: rest), e)
    | (.error refusal, e) =>
      let e := e.report (.rebuildStopped handle refusal)
      let rest := entries.map fun entry => { entry with references := [] }
      return ((true, { entry with references := [] } :: rest), e)

/-- Builds the engine anew from the constraints that are present. -/
def rebuild : SessionM κ Unit := do
  modifyEngine (·.clear)
  let entries ← readBook (·.entries.toList)
  let (refused, entries) ← ofEngine (attachEntries 0 entries)
  modifyBook fun book => { book with entries := entries.toArray }
  if refused then
    modifyEngine (·.modifyControl fun control => { control with infeasible := true })

/-! ## Removing -/

/-- Notes in the book that a constraint is gone. -/
def markRemoved (handle : Nat) : SessionM κ Unit := do
  match ← readBook (·.entries[handle]?) with
  | none => throw (.foreignHandle handle)
  | some entry =>
    if entry.removed then throw (.removedAlready handle)
    modifyBook fun book => { book with
      entries := book.entries.setIfInBounds handle { entry with removed := true } }

/-- Removes a constraint and forgets what was learned. -/
def remove (handle : Nat) : SessionM κ Unit := do
  markRemoved handle
  rebuild

/-- Removes the newest constraint and keeps what was learned. -/
def removeSubsumed (handle : Nat) : SessionM κ Unit := do
  if handle + 1 ≠ (← readBook (·.entries.size)) then throw .notNewest
  markRemoved handle
  let references ← readBook fun book =>
    ((book.entries[handle]?).map (·.references)).getD []
  modifyBook fun book => { book with
    entries := book.entries.modify handle fun entry => { entry with references := [] } }
  ofEngine fun e => do return ((), ← e.remove references handle)

/-- The constraint of the caller's own kind that was added with a handle, as the engine has it now;
none if it was removed, or deleted because the root facts satisfy it. -/
def customConstraint? (handle : Nat) (s : Session κ) : Option κ := do
  let entry ← s.book.entries[handle]?
  if entry.removed then none
  else
    entry.references.findSome? fun r => do
      let c ← s.engine.search.arena.get? r
      if c.metadata.handle ≠ some handle then none
      else
        match c.kind with
        | .custom k => some k
        | _ => none

/-! ## Restricting decisions -/

/-- Allows just the given variables to be decided, or every variable. What was derived under the
old restriction is given up. -/
def restrictDecisions (vs : Option (List Nat)) : SessionM κ Unit := do
  ofEngine fun e => do return ((), (← e.backtrack 0).restrictDecisions vs)
  if ← readEngine (·.control.restricted) then rebuild

/-- Makes a variable known, and checks that it can be named. -/
def decisionVariable (v : Nat) : SessionM κ Nat := do
  if maxVariable < v then throw (.variableTooLarge v)
  return (← literal v).var

/-- Only decides the given variables; the others are assigned by propagation alone. -/
def decideOnly (vs : List Nat) : SessionM κ Unit := do
  let vs ← vs.mapM decisionVariable
  restrictDecisions (some vs)

/-- Allows every variable to be decided. -/
def decideAll : SessionM κ Unit := restrictDecisions none

theorem addConstraint_refused {s s' : Session κ} {ds : List (Description κ)} {refusal : Refusal}
    (h : (addConstraint ds).run s = (.ok (.error refusal), s')) : s'.book = s.book := by
  have hrun : (addConstraint ds).run s =
      (ofEngine (·.add s.book.entries.size ds) >>= _).run s := rfl
  rw [hrun, run_ofEngine_bind] at h
  cases hadd : s.engine.add s.book.entries.size ds with
  | error fault =>
    simp only [hadd] at h
    cases (Prod.mk.inj h).1
  | ok result =>
    obtain ⟨result, engine⟩ := result
    simp only [hadd] at h
    cases result with
    | error r => cases h; rfl
    | ok references => cases (Prod.mk.inj h).1

end ClauseLearning.Session
