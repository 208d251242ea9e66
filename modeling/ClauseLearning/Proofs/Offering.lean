import ClauseLearning.Proofs.Asserting
import ClauseLearning.Proofs.Counting
import ClauseLearning.Proofs.Stock
import ClauseLearning.Proofs.Upholding

/-!
# No variable is lost

Whatever an engine is asked to do, its heap stays right for its assignment (`Engine.Stocked`): at
the moment a variable is asked for, the heap has every unassigned variable that may be decided and
no other that may not. So no answer is given too early, and nothing is decided that is settled or
may not be decided.

The constraints of the caller's own kinds need not keep any of their promises for this. After an
internal fault of the search there is a new engine.

* `Engine.invariant_stocked`: what operations of engines keep, calls of sessions keep.
* `Engine.Seeks`: the moment at which a search asks for a variable.
* `Session.Arises.never_loses_variables`: what is in the heap at this moment, and what is decided.
-/

namespace ClauseLearning

variable {κ : Type}

namespace Engine

/-- The heap of the order is right for the assignment. -/
def Stocked (e : Engine κ) : Prop := e.search.Stocked

section

variable {e e' : Engine κ}

theorem Stocked.grow (h : e.Stocked) (n : Nat) : (e.grow n).Stocked := by
  obtain ⟨search, analyser, control⟩ := e
  unfold Engine.grow
  dsimp only
  split
  · exact h
  · exact SearchState.Stocked.grow h n

theorem Stocked.model (h : e.Stocked) : e.model.2.Stocked := by
  obtain ⟨search, analyser, control⟩ := e
  exact SearchState.Stocked.model h

theorem Stocked.modifyControl (h : e.Stocked) (f : Control → Control) :
    (e.modifyControl f).Stocked :=
  h

theorem Stocked.openLevel (h : e.Stocked) : (e.modifySearch (·.openLevel)).Stocked :=
  (SearchState.Widens.openLevel e.search).stocked h

theorem Stocked.decay (h : e.Stocked) : e.decay.Stocked := by
  obtain ⟨⟨board, arena, learned, order, head⟩, analyser, control⟩ := e
  exact DecisionOrder.Stocks.widen h (DecisionOrder.sameKeys_decay h.wellFormed.valid) (.refl _)

theorem Stocked.restrictDecisions (h : e.Stocked) (vs : Option (List Nat)) :
    (e.restrictDecisions vs).Stocked := by
  obtain ⟨⟨board, arena, learned, order, head⟩, analyser, control⟩ := e
  exact DecisionOrder.Stocks.restrictTo h vs

theorem Stocked.decideOn (h : e.Stocked) (l : Literal) : (e.decideOn l).Stocked := by
  obtain ⟨search, analyser, control⟩ := e
  exact ((SearchState.Widens.openLevel search).trans (.enqueue _ l)).stocked h

variable [CustomConstraint κ]

omit [CustomConstraint κ] in
theorem stocked_make (o : Options) : (make o : Engine κ).Stocked :=
  DecisionOrder.stocks_make o.activityDecay o.randomFrequency o.seed o.phase

omit [CustomConstraint κ] in
theorem Stocked.clear (h : e.Stocked) : e.clear.Stocked := by
  obtain ⟨search, analyser, control⟩ := e
  exact SearchState.Stocked.clear h

theorem Stocked.backtrack (h : e.Stocked) {level : Nat} (hrun : e.backtrack level = .ok e') :
    e'.Stocked := by
  obtain ⟨search, analyser, control⟩ := e
  obtain ⟨search', hback, hret⟩ := ok_of_bind hrun
  cases hret
  exact SearchState.Stocked.backtrack h hback

theorem Stocked.remove (h : e.Stocked) {rs : List Reference} {handle : Nat}
    (hrun : e.remove rs handle = .ok e') : e'.Stocked := by
  obtain ⟨search, analyser, control⟩ := e
  obtain ⟨search', hdelete, hret⟩ := ok_of_bind hrun
  cases hret
  exact SearchState.Stocked.deleteOwned h hdelete

theorem Stocked.propagate (h : e.Stocked) {conflict : Option Reference}
    (hrun : e.propagate = .ok (conflict, e')) : e'.Stocked := by
  obtain ⟨search, analyser, control⟩ := e
  obtain ⟨⟨conflict', search'⟩, hprop, hret⟩ := ok_of_bind hrun
  cases hret
  exact (SearchState.Widens.propagate hprop).stocked h

/-! ### Additions -/

omit [CustomConstraint κ] in
theorem widens_assertUnits (ls : List Literal) (s : SearchState κ) :
    s.Widens (assertUnits ls s).2 := by
  induction ls generalizing s with
  | nil => exact .refl s
  | cons l ls ih =>
    have hfirst := SearchState.Widens.enqueue s l
    unfold assertUnits
    split
    · rename_i heq
      rw [heq] at hfirst
      exact hfirst.trans (ih _)
    · rename_i heq
      rw [heq] at hfirst
      exact hfirst

theorem widens_attachNormal (handle : Nat) (attached : List Reference) (k : Normal κ)
    (s : SearchState κ) : s.Widens (attachNormal handle attached k s).2.2 := by
  cases k with
  | satisfied => exact .refl s
  | unsatisfiable => exact .refl s
  | units ls => exact widens_assertUnits ls s
  | constraint k => exact .attach s _

theorem Stocked.withdraw (h : e.Stocked) {checkpoint : Nat} {attached : List Reference}
    {result : Except Refusal (List Reference)}
    (hrun : e.withdraw checkpoint attached = .ok (result, e')) : e'.Stocked := by
  obtain ⟨search, analyser, control⟩ := e
  obtain ⟨search', hback, hret⟩ := ok_of_bind hrun
  cases hret
  exact (SearchState.Widens.delete search' attached).stocked
    (SearchState.Stocked.backtrackRoot h hback)

theorem Stocked.addParts (h : e.Stocked) {handle checkpoint : Nat} {ds : List (Description κ)}
    {attached : List Reference} {result : Except Refusal (List Reference)}
    (hrun : addParts handle checkpoint ds attached e = .ok (result, e')) : e'.Stocked := by
  induction ds generalizing attached e with
  | nil =>
    cases hrun
    exact h
  | cons d ds ih =>
    unfold Engine.addParts at hrun
    have hgrown := h.grow (Description.maxVariable d.literals)
    generalize e.grow (Description.maxVariable d.literals) = e₁ at *
    obtain ⟨search, analyser, control⟩ := e₁
    dsimp only at hrun
    have hwide := widens_attachNormal handle attached (d.normalise search.assignment) search
    split at hrun
    · exact ih hgrown hrun
    · split at hrun
      · rename_i search' heq
        rw [heq] at hwide
        have hattached : (⟨search', analyser, control⟩ : Engine κ).Stocked := hwide.stocked hgrown
        exact hattached.withdraw hrun
      · rename_i search' heq
        rw [heq] at hwide
        have hattached : (⟨search', analyser, control⟩ : Engine κ).Stocked := hwide.stocked hgrown
        obtain ⟨⟨conflict, e₂⟩, hprop, hrun⟩ := ok_of_bind hrun
        have hpropagated := hattached.propagate hprop
        cases conflict with
        | none => exact ih hpropagated hrun
        | some r => exact hpropagated.withdraw hrun

theorem Stocked.add (h : e.Stocked) {handle : Nat} {ds : List (Description κ)}
    {result : Except Refusal (List Reference)} (hrun : e.add handle ds = .ok (result, e')) :
    e'.Stocked := by
  unfold Engine.add at hrun
  split at hrun
  · cases hrun
    exact h
  · obtain ⟨e₁, hback, hrun⟩ := ok_of_bind hrun
    exact (h.backtrack hback).addParts hrun

/-! ### Conflicts -/

theorem Stocked.learnUnit (h : e.Stocked) {l : Literal} {numAssigned : Nat}
    (hrun : e.learnUnit l numAssigned = .ok e') : e'.Stocked := by
  obtain ⟨search, analyser, control⟩ := e
  obtain ⟨search', hback, hret⟩ := ok_of_bind hrun
  cases hret
  exact (SearchState.Widens.enqueue search' l).stocked (SearchState.Stocked.backtrack h hback)

theorem Stocked.learnClause (h : e.Stocked) {k : Clause} {level numAssigned : Nat}
    (hrun : e.learnClause k level numAssigned = .ok e') : e'.Stocked := by
  obtain ⟨⟨board, arena, learned, order, head⟩, analyser, control⟩ := e
  obtain ⟨search', hback, hret⟩ := ok_of_bind hrun
  cases hret
  refine (SearchState.Widens.learn search' k _ _).stocked (SearchState.Stocked.backtrack ?_ hback)
  exact h

theorem Stocked.resolveConflict (h : e.Stocked) {r : Reference} {resolved : Bool}
    (hrun : e.resolveConflict r = .ok (resolved, e')) : e'.Stocked := by
  obtain ⟨search, analyser, control⟩ := e
  obtain ⟨c, -, hrun⟩ := ok_of_bind hrun
  dsimp only at hrun
  split at hrun
  · cases hrun
    exact h
  · obtain ⟨⟨board, arena, learned, order, head⟩, hback, hrun⟩ := ok_of_bind hrun
    have hlow : order.Stocks board.assignment := SearchState.Stocked.backtrack h hback
    obtain ⟨lesson, hanalyse, hrun⟩ := ok_of_bind hrun
    have hsame := Analyser.sameKeys_analyse hlow.wellFormed.valid hanalyse
    obtain ⟨clause, numRemoved, analyser', order', learned', arena'⟩ := lesson
    dsimp only at hrun
    have htaught : ∀ control' : Control,
        (⟨⟨board, arena', learned', order', head⟩, analyser', control'⟩ : Engine κ).Stocked :=
      fun _ => hlow.widen hsame (.refl _)
    split at hrun
    · cases hrun
    · obtain ⟨e₁, hlearn, hret⟩ := ok_of_bind hrun
      cases hret
      exact ((htaught _).learnUnit hlearn).decay
    · obtain ⟨e₁, hlearn, hret⟩ := ok_of_bind hrun
      cases hret
      exact ((htaught _).learnClause hlearn).decay

theorem Stocked.rootConflict (h : e.Stocked) {outcome : Outcome}
    (hrun : e.rootConflict = .ok (outcome, e')) : e'.Stocked := by
  obtain ⟨e₁, hback, hrun⟩ := ok_of_bind hrun
  have hlow := h.backtrack hback
  dsimp only at hrun
  split at hrun
  · cases hrun
    exact hlow
  · cases hrun
    exact hlow

/-! ### Decisions -/

theorem Stocked.failAssumption (h : e.Stocked) {l : Literal} {outcome : Outcome}
    (hrun : e.failAssumption l = .ok (outcome, e')) : e'.Stocked := by
  obtain ⟨search, ⟨minimisation, seen, minimiser⟩, control⟩ := e
  obtain ⟨⟨core, seen'⟩, -, hrun⟩ := ok_of_bind hrun
  obtain ⟨search', hback, hret⟩ := ok_of_bind hrun
  cases hret
  exact SearchState.Stocked.backtrack h hback

theorem Stocked.blockDecisions (h : e.Stocked) {outcome : Option Outcome}
    (hrun : e.blockDecisions = .ok (outcome, e')) : e'.Stocked := by
  obtain ⟨search, analyser, control⟩ := e
  simp only [Engine.blockDecisions] at hrun
  split at hrun
  · obtain ⟨search', hback, hret⟩ := ok_of_bind hrun
    cases hret
    exact SearchState.Stocked.backtrack h hback
  · split at hrun
    · obtain ⟨⟨board, arena, learned, order, head⟩, hback, hret⟩ := ok_of_bind hrun
      cases hret
      have hlow : order.Stocks board.assignment := SearchState.Stocked.backtrack h hback
      exact (SearchState.Widens.learn ⟨board, arena, _, order, head⟩ _ _ _).stocked hlow
    · obtain ⟨search', hback, hret⟩ := ok_of_bind hrun
      cases hret
      exact (SearchState.Widens.enqueue search' _).stocked (SearchState.Stocked.backtrack h hback)
    · cases hrun

theorem Stocked.decideVariable (h : e.Stocked) {outcome : Option Outcome}
    (hrun : e.decideVariable = .ok (outcome, e')) : e'.Stocked := by
  obtain ⟨⟨board, arena, learned, order, head⟩, analyser, control⟩ := e
  have hstocks : order.Stocks board.assignment := h
  simp only [Engine.decideVariable] at hrun
  split at hrun
  · rename_i l order' hnext
    cases hrun
    exact hstocks.nextDecision_some hnext
  · rename_i order' hnext
    have hnone : ∀ control', (⟨⟨board, arena, learned, order', head⟩, analyser, control'⟩ :
        Engine κ).Stocked := fun _ => hstocks.nextDecision_none hnext
    split at hrun
    · cases hrun
      exact hnone control
    · exact (hnone control).blockDecisions hrun

theorem Stocked.assume (h : e.Stocked) {ls : List Literal} {outcome : Option Outcome}
    (hrun : e.assume ls = .ok (outcome, e')) : e'.Stocked := by
  induction ls generalizing e with
  | nil => exact h.decideVariable hrun
  | cons l ls ih =>
    unfold Engine.assume at hrun
    split at hrun
    · exact ih h.openLevel hrun
    · split at hrun
      · obtain ⟨⟨outcome', e₁⟩, hfail, hret⟩ := ok_of_bind hrun
        cases hret
        exact h.failAssumption hfail
      · cases hrun
        exact h.decideOn l

/-! ### Upkeep -/

theorem Stocked.simplifyIfDue (h : e.Stocked) (hrun : e.simplifyIfDue = .ok e') : e'.Stocked := by
  unfold Engine.simplifyIfDue at hrun
  split at hrun
  · obtain ⟨search, analyser, control⟩ := e
    obtain ⟨⟨n, search'⟩, hsimplify, hret⟩ := ok_of_bind hrun
    cases hret
    exact (SearchState.Widens.simplify hsimplify).stocked h
  · cases hrun
    exact h

theorem Stocked.reduceIfDue (h : e.Stocked) (hrun : e.reduceIfDue = .ok e') : e'.Stocked := by
  simp only [Engine.reduceIfDue] at hrun
  split at hrun
  · obtain ⟨⟨board, arena, learned, order, head⟩, analyser, control⟩ := e
    obtain ⟨⟨rs, learned'⟩, -, hret⟩ := ok_of_bind hrun
    cases hret
    exact (SearchState.Widens.delete ⟨board, arena, learned', order, head⟩ rs).stocked h
  · cases hrun
    exact h

theorem Stocked.restartIfDue (h : e.Stocked) (hrun : e.restartIfDue = .ok e') : e'.Stocked := by
  unfold Engine.restartIfDue at hrun
  split at hrun
  · obtain ⟨search, analyser, control⟩ := e
    obtain ⟨search', hback, hret⟩ := ok_of_bind hrun
    cases hret
    exact SearchState.Stocked.backtrack h hback
  · cases hrun
    exact h

/-! ### Searches -/

theorem Stocked.step (h : e.Stocked) {stage : Stage} {next : Except Outcome Stage}
    (hrun : e.step stage = .ok (next, e')) : e'.Stocked := by
  cases stage with
  | propagating =>
    obtain ⟨⟨conflict, e₁⟩, hprop, hret⟩ := ok_of_bind hrun
    cases hret
    exact h.propagate hprop
  | conflict r =>
    obtain ⟨⟨resolved, e₁⟩, hresolve, hrun⟩ := ok_of_bind hrun
    have hresolved := Stocked.resolveConflict (e := e.countConflict) h hresolve
    dsimp only at hrun
    split at hrun
    · cases hrun
      exact hresolved
    · obtain ⟨⟨outcome, e₂⟩, hroot, hret⟩ := ok_of_bind hrun
      cases hret
      exact hresolved.rootConflict hroot
  | deciding =>
    obtain ⟨e₁, hsimplify, hrun⟩ := ok_of_bind hrun
    obtain ⟨e₂, hreduce, hrun⟩ := ok_of_bind hrun
    obtain ⟨e₃, hrestart, hrun⟩ := ok_of_bind hrun
    obtain ⟨⟨outcome, e₄⟩, hdecide, hrun⟩ := ok_of_bind hrun
    have hdecided := (((h.simplifyIfDue hsimplify).reduceIfDue hreduce).restartIfDue
      hrestart).assume hdecide
    cases outcome with
    | none =>
      cases hrun
      exact hdecided
    | some outcome =>
      cases hrun
      exact hdecided

theorem Stocked.reaches {stage last : Stage} (hr : Reaches stage e last e') (h : e.Stocked) :
    e'.Stocked := by
  induction hr with
  | here => exact h
  | later hstep _ ih => exact ih (h.step hstep)

omit [CustomConstraint κ] in
theorem Stocked.posed (h : e.Stocked) (assumptions : List Literal) :
    (e.posed assumptions).Stocked :=
  (h.modifyControl _).grow _

end

section

variable [CustomConstraint κ] {τ : Type} [Termination τ] {e e' : Engine κ}

theorem Stocked.run (h : e.Stocked) {n : Nat} {stage : Stage} {limit limit' : τ} {outcome : Outcome}
    (hrun : run n stage limit e = .ok (outcome, limit', e')) : e'.Stocked := by
  induction n generalizing stage limit e with
  | zero => cases hrun
  | succ n ih =>
    unfold Engine.run at hrun
    split at hrun
    · obtain ⟨e₁, hback, hret⟩ := ok_of_bind hrun
      cases hret
      exact Stocked.backtrack (e := e.report .searchStopped) h hback
    · obtain ⟨⟨next, e₁⟩, hstep, hrun⟩ := ok_of_bind hrun
      have hstepped := h.step hstep
      cases next with
      | error outcome =>
        cases hrun
        exact hstepped
      | ok stage => exact ih hstepped hrun

theorem Stocked.solve (h : e.Stocked) {assumptions : List Literal} {limit limit' : τ}
    {outcome : Outcome} (hrun : e.solve assumptions limit = .ok (outcome, limit', e')) :
    e'.Stocked := by
  unfold Engine.solve at hrun
  split at hrun
  · cases hrun
    exact h
  · obtain ⟨e₁, hback, hrun⟩ := ok_of_bind hrun
    exact ((h.backtrack hback).posed assumptions).run hrun

end

theorem invariant_stocked [CustomConstraint κ] :
    Invariant (Stocked : Engine κ → Prop) (fun _ => True) (fun _ => True) where
  make := stocked_make
  nil := trivial
  grow := Stocked.grow
  clear := Stocked.clear
  model := Stocked.model
  restrictDecisions := Stocked.restrictDecisions
  modifyControl := Stocked.modifyControl
  backtrack := fun h hrun => h.backtrack hrun
  add := fun h hrun => ⟨h.add hrun, fun _ _ => trivial⟩
  remove := fun h _ hrun => h.remove hrun
  solve := fun h hrun => h.solve hrun
  fails_backtrack := fun _ _ _ _ => trivial
  fails_add := fun _ _ _ _ _ => trivial
  fails_remove := fun _ _ _ _ _ => trivial
  fails_solve := fun _ _ _ _ _ => trivial
  fails_implicant := fun _ _ _ _ _ => trivial

end Engine

/-! ## The moment of a decision -/

namespace Engine

variable [CustomConstraint κ]

/-- What a search sees to before it makes a decision. -/
def upkeep (e : Engine κ) : Except Fault (Engine κ) := do
  let e ← e.simplifyIfDue
  let e ← e.reduceIfDue
  e.restartIfDue

/-- The assumptions are all true, and a level is opened for each. -/
inductive Opens : List Literal → Engine κ → Engine κ → Prop
  | done {e : Engine κ} : Opens [] e e
  | next {l : Literal} {ls : List Literal} {e e' : Engine κ}
      (htrue : e.search.assignment.isSatisfied l = true)
      (hrest : Opens ls (e.modifySearch (·.openLevel)) e') : Opens (l :: ls) e e'

theorem Opens.assume_eq {ls : List Literal} {e e' : Engine κ} (h : Opens ls e e') :
    e.assume ls = e'.decideVariable := by
  induction h with
  | done => rfl
  | next htrue _ ih => rw [assume, if_pos htrue, ih]

/-- A stage of decisions that begins with the first engine asks for a variable with the second. -/
def Seeks (e e' : Engine κ) : Prop :=
  ∃ e₁, e.upkeep = .ok e₁ ∧ Opens (e₁.control.assumptions.drop e₁.search.decisionLevel) e₁ e'

theorem Seeks.step_eq {e e' : Engine κ} (h : e.Seeks e') :
    e.step .deciding = (do
      match ← e'.decideVariable with
      | (none, e) => return (.ok .propagating, e)
      | (some outcome, e) => return (.error outcome, e)) := by
  obtain ⟨e₁, hupkeep, hopens⟩ := h
  obtain ⟨e₂, hsimplify, hupkeep⟩ := ok_of_bind hupkeep
  obtain ⟨e₃, hreduce, hrestart⟩ := ok_of_bind hupkeep
  rw [← hopens.assume_eq]
  simp only [step, hsimplify, hreduce, hrestart, bind, Except.bind]
  rfl

omit [CustomConstraint κ] in
theorem Opens.stocked {ls : List Literal} {e e' : Engine κ} (ho : Opens ls e e') (h : e.Stocked) :
    e'.Stocked := by
  induction ho with
  | done => exact h
  | next _ _ ih => exact ih h.openLevel

theorem Stocked.seeks {e e' : Engine κ} (h : e.Stocked) (hs : e.Seeks e') : e'.Stocked := by
  obtain ⟨e₁, hupkeep, hopens⟩ := hs
  obtain ⟨e₂, hsimplify, hupkeep⟩ := ok_of_bind hupkeep
  obtain ⟨e₃, hreduce, hrestart⟩ := ok_of_bind hupkeep
  exact hopens.stocked (((h.simplifyIfDue hsimplify).reduceIfDue hreduce).restartIfDue hrestart)

/-- Of the known variables, the heap has all that are unassigned and may be decided, and only such
that may be decided. A decision is about one of the former, and there is none only if there are none
of them. -/
structure Offering (e : Engine κ) : Prop where
  offered : ∀ v, v ≤ e.numVariables → e.search.order.isDecision v = true →
    e.search.assignment.isAssigned v = false → e.search.order.heap.contains v = true
  confined : ∀ v, e.search.order.heap.contains v = true →
    v ≤ e.numVariables ∧ e.search.order.isDecision v = true
  settled : ∀ order, e.search.order.nextDecision e.search.assignment = (none, order) →
    ∀ v, v ≤ e.numVariables → e.search.order.isDecision v = true →
      e.search.assignment.isAssigned v = true
  decided : ∀ l order, e.search.order.nextDecision e.search.assignment = (some l, order) →
    l.var ≤ e.numVariables ∧ e.search.order.isDecision l.var = true ∧
      e.search.assignment.isAssigned l.var = false

omit [CustomConstraint κ] in
theorem Stocked.offering {e : Engine κ} (h : e.Stocked) : e.Offering := by
  have hw : e.search.order.WellFormed e.search.assignment.cells.size := h.wellFormed
  have hknown : ∀ v, v ≤ e.numVariables → e.search.order.isDecision v = true →
      v < e.search.assignment.cells.size := by
    intro v hv hd
    have hne : v ≠ 0 := by
      rintro rfl
      cases hd
    have hle : v ≤ e.search.assignment.cells.size - 1 := hv
    omega
  have hbelow : ∀ v, v < e.search.assignment.cells.size → v ≤ e.numVariables :=
    fun v hv => Nat.le_sub_one_of_lt hv
  refine ⟨fun v hv hd ha => ?_, fun v hv => ⟨hbelow v ?_, h.confined v hv⟩,
    fun order hrun v hv hd => ?_, fun l order hrun => ?_⟩
  · exact h.offers v (hw.numKeys ▸ hknown v hv hd) hd ha
  · exact hw.numKeys ▸ hw.valid.lt_of_contains hv
  · obtain ⟨-, -, hall⟩ := DecisionOrder.nextDecision_none hw hrun
    exact hall h.offers v (hknown v hv hd) hd
  · have hd := DecisionOrder.nextDecision_some hw hrun
    exact ⟨hbelow _ hd.var_lt, h.isDecision_nextDecision hrun, DecisionOrder.var_nextDecision hrun⟩

end Engine

namespace Session

variable [CustomConstraint κ]

/-- No variable is lost: whenever a query asks for a variable to decide, the heap has all unassigned
variables that may be decided and no other variables that may not, and what is decided is one of
those. -/
theorem Arises.never_loses_variables {s : Session κ} (h : s.Arises) {assumptions : List Int}
    {e e' : Engine κ} (hm : Meets assumptions s .deciding e) (hs : e.Seeks e') : e'.Offering := by
  obtain ⟨ls, s₁, hliterals, -, e₀, hback, hreaches⟩ := hm
  have h₁ : s₁.engine.Stocked := by
    have hread := (keeps_literals Engine.invariant_stocked assumptions s
      (h.upheld Engine.invariant_stocked)).after
    rw [hliterals] at hread
    exact hread.engine
  exact (((h₁.backtrack hback).posed ls).reaches hreaches |>.seeks hs).offering

/-- A literal of one of two variables is assumed, which leaves the other one to decide. -/
theorem Arises.never_loses_variables_of_pair :
    ∃ (s : Session Empty) (e e' : Engine Empty), s.Arises ∧ Meets [1] s .deciding e ∧ e.Seeks e' ∧
      e'.search.assignment.trues = [.make 1 true] ∧ e'.search.decisionLevel = 1 ∧ e'.Offering := by
  let s : Session Empty := ((Call.newVariables 2).run.run (Session.make Options.standard)).2
  have hresult : (Engine.advance 3 .propagating ((s.engine.growAll [1]).posed [.make 1 true])).any
      (fun x => x.2.upkeep.toOption.any fun e => decide (x.1 = .deciding ∧
        e.control.assumptions.drop e.search.decisionLevel = [] ∧
        e.search.assignment.trues = [.make 1 true] ∧ e.search.decisionLevel = 1)) = true := by
    decide +kernel
  obtain ⟨⟨stage, e⟩, hadvance, hx⟩ := (Option.any_eq_true ..).mp hresult
  obtain ⟨e', hupkeep, hx⟩ := (Option.any_eq_true ..).mp hx
  obtain ⟨rfl, hleft, htrues, hlevel⟩ := of_decide_eq_true hx
  have hupkeep : e.upkeep = .ok e' := by
    cases hrun : e.upkeep with
    | error fault =>
      rw [hrun] at hupkeep
      cases hupkeep
    | ok e₁ =>
      rw [hrun] at hupkeep
      cases hupkeep
      rfl
  have hs : s.Arises := .call (.make Options.standard) (.newVariables 2)
  have hmeets : Meets [1] s .deciding e :=
    ⟨[.make 1 true], ⟨s.engine.growAll [1], s.book⟩, rfl, rfl, s.engine.growAll [1], rfl,
      Engine.reaches_of_advance hadvance⟩
  have hseeks : e.Seeks e' := ⟨e', hupkeep, by rw [hleft]; exact .done⟩
  exact ⟨s, e, e', hs, hmeets, hseeks, htrues, hlevel,
    Arises.never_loses_variables hs hmeets hseeks⟩

end Session

end ClauseLearning
