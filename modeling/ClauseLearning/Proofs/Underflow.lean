import ClauseLearning.Implicant.Basic
import ClauseLearning.Proofs.Undergoing

/-!
# Where a counter could go below zero

A constraint that counts is told to take back one notification at a time. Almost all of an
operation tells nobody anything, so it does not end because a count would go below zero. What
remains is taking values back, and it comes up at a moment of a course: to say that no count goes
below zero it is enough that at every moment of a course the newest value can be taken back.

* `Spares`: computations that take nothing back.
* `SearchState.Exposes`: computations that lead to the moment at which a count would go below zero.
* `Engine.exposes_backtrack`, `Engine.exposes_add`, `Engine.exposes_remove`, `Engine.exposes_solve`:
  the operations of an engine.
-/

namespace ClauseLearning

variable {κ : Type} {α β : Type}

/-! ## Computations that take nothing back -/

/-- The computation does not end because a constraint had to take back more than it counted. -/
def Spares (x : Except Fault α) : Prop := FailsWith (· ≠ .counterUnderflow) x

theorem spares_ok (a : α) : Spares (.ok a) := .ok a

theorem spares_error {fault : Fault} (h : fault ≠ .counterUnderflow) :
    Spares (.error fault : Except Fault α) := .error h

theorem Spares.bind {x : Except Fault α} {f : α → Except Fault β} (hx : Spares x)
    (hf : ∀ a, Spares (f a)) : Spares (x >>= f) := FailsWith.bind hx fun a _ => hf a

theorem spares_mapM {f : α → Except Fault β} (hf : ∀ x, Spares (f x)) (xs : List α) :
    Spares (xs.mapM f) := by
  induction xs with
  | nil => exact spares_ok []
  | cons x xs ih =>
    rw [List.mapM_cons]
    exact (hf x).bind fun b => ih.bind fun bs => spares_ok (b :: bs)

theorem spares_foldlM {f : β → α → Except Fault β} (hf : ∀ b x, Spares (f b x)) (xs : List α)
    (b : β) : Spares (xs.foldlM f b) := by
  induction xs generalizing b with
  | nil => exact spares_ok b
  | cons x xs ih =>
    rw [List.foldlM_cons]
    exact (hf b x).bind ih

theorem spares_filterM {p : α → Except Fault Bool} (hp : ∀ x, Spares (p x)) (xs : List α) :
    Spares (xs.filterM p) := by
  have haux : ∀ kept, Spares (List.filterAuxM p xs kept) := by
    induction xs with
    | nil => exact fun kept => spares_ok kept
    | cons x xs ih => exact fun kept => (hp x).bind fun b => ih _
  exact (haux []).bind fun kept => spares_ok kept.reverse

theorem Arena.spares_get (s : Arena κ) (r : Reference) : Spares (s.get r) := by
  unfold get
  split
  · exact spares_ok _
  · exact spares_error (by rintro ⟨⟩)

variable [CustomConstraint κ]

theorem Arena.spares_reasonOf (s : Arena κ) (a : Assignment) (v : Nat) :
    Spares (s.reasonOf a v) := by
  unfold reasonOf
  split
  · exact (s.spares_get _).bind fun c => spares_ok _
  · exact spares_ok none

/-! ### Conflicts -/

namespace Resolution

variable (d : LearnedDatabase) (a : Assignment)

theorem spares_resolve (r : Reference) (p : Option Literal) (s : Resolution κ) :
    Spares (resolve d a r p s) := by
  refine (s.arena.spares_get r).bind fun c => ?_
  dsimp only
  split
  · exact spares_error (by rintro ⟨⟩)
  · exact spares_ok _

theorem spares_descend (n : Nat) (s : Resolution κ) : Spares (descend d a n s) := by
  induction n generalizing s with
  | zero => exact spares_error (by rintro ⟨⟩)
  | succ n ih =>
    unfold descend
    split
    · exact ih s
    · split
      · split
        · exact spares_ok _
        · split
          · exact spares_error (by rintro ⟨⟩)
          · exact (spares_resolve d a _ _ _).bind ih
      · exact ih s

end Resolution

namespace Minimiser

variable (s : Arena κ) (a : Assignment)

omit [CustomConstraint κ] in
theorem spares_anyPoison {label : Nat → Minimiser → Except Fault (Label × Minimiser)}
    (hlabel : ∀ v m, Spares (label v m)) (ls : List Literal) (m : Minimiser) :
    Spares (anyPoison a label ls m) := by
  induction ls generalizing m with
  | nil => exact spares_ok _
  | cons l ls ih =>
    unfold anyPoison
    split
    · exact ih m
    · refine (hlabel l.var m).bind fun found => ?_
      dsimp only
      split
      · exact spares_ok _
      · exact ih _

theorem spares_ofReason {label : Nat → Minimiser → Except Fault (Label × Minimiser)}
    (hlabel : ∀ v m, Spares (label v m)) (v : Nat) (m : Minimiser) :
    Spares (ofReason s a label v m) := by
  refine (s.spares_reasonOf a v).bind fun reason => ?_
  split
  · exact spares_ok _
  · split
    · refine (spares_anyPoison a hlabel _ m).bind fun found => ?_
      dsimp only
      split <;> exact spares_ok _
    · exact spares_ok _

theorem spares_label (depth v : Nat) (m : Minimiser) : Spares (label s a depth v m) := by
  induction depth generalizing v m with
  | zero =>
    unfold label
    split
    · exact spares_ok _
    · exact spares_ok _
    · exact spares_ok _
    · exact spares_ok _
  | succ depth ih =>
    unfold label
    split
    · exact spares_ok _
    · exact spares_ok _
    · exact spares_ok _
    · exact (spares_ofReason s a ih v m).bind fun found => spares_ok _

theorem spares_removeLabelled (ls : List Literal) (m : Minimiser) :
    Spares (removeLabelled s a ls m) := by
  induction ls generalizing m with
  | nil => exact spares_ok _
  | cons l ls ih =>
    exact (spares_label s a maxDepth l.var m).bind fun found =>
      (ih found.2).bind fun kept => spares_ok _

end Minimiser

theorem spares_removeSeen (s : Arena κ) (a : Assignment) (isSeen : Nat → Bool) (ls : List Literal) :
    Spares (removeSeen s a isSeen ls) := by
  cases ls with
  | nil => exact spares_ok []
  | cons l ls =>
    refine (spares_filterM (fun l => ?_) ls).bind fun kept => spares_ok _
    refine (s.spares_reasonOf a l.var).bind fun reason => ?_
    split <;> exact spares_ok _

omit [CustomConstraint κ] in
theorem LearnedDatabase.spares_rescale (d : LearnedDatabase) (s : Arena κ) :
    Spares (d.rescale s) :=
  (spares_foldlM (fun s r => (s.spares_get r).bind fun _ => spares_ok _) _ s).bind fun _ =>
    spares_ok _

theorem LearnedDatabase.spares_reduce (d : LearnedDatabase) (s : Arena κ) (a : Assignment) :
    Spares (d.reduce s a) :=
  (spares_mapM (fun r => (s.spares_get r).bind fun _ => spares_ok _) _).bind fun _ =>
    spares_ok _

namespace Analyser

theorem spares_minimise (arena : Arena κ) (a : Assignment) (ls : List Literal)
    (analyser : Analyser) : Spares (minimise arena a ls analyser) := by
  obtain ⟨minimisation, seen, minimiser⟩ := analyser
  cases minimisation with
  | none => exact spares_ok _
  | simple => exact (spares_removeSeen arena a _ ls).bind fun ls => spares_ok _
  | expensive =>
    exact ((Minimiser.spares_removeLabelled arena a ls _).bind fun kept => spares_ok _).bind
      fun kept => spares_ok _

theorem spares_analyse (r : Reference) (a : Assignment) (analyser : Analyser)
    (order : DecisionOrder Generator) (learned : LearnedDatabase) (arena : Arena κ) :
    Spares (analyser.analyse r a order learned arena) := by
  obtain ⟨minimisation, seen, minimiser⟩ := analyser
  simp only [analyse]
  split
  · exact spares_error (by rintro ⟨⟩)
  · refine (Resolution.spares_resolve learned a r none _).bind fun start =>
      (Resolution.spares_descend learned a _ start).bind fun found => ?_
    split
    · exact (learned.spares_rescale _).bind fun rescaled =>
        (spares_minimise _ a _ _).bind fun ls => spares_ok _
    · exact (spares_minimise _ a _ _).bind fun ls => spares_ok _

end Analyser

theorem spares_sweepCore (s : Arena κ) (a : Assignment) (failed : Literal) (start n : Nat)
    (core : List Literal) (seen : Array Bool) :
    Spares (sweepCore s a failed start n core seen) := by
  induction n generalizing core seen with
  | zero => exact spares_ok _
  | succ n ih =>
    unfold sweepCore
    split
    · exact ih core seen
    · split
      · refine (s.spares_reasonOf a _).bind fun reason => ?_
        split <;> exact ih _ _
      · exact ih core seen

theorem spares_unsatCore (s : Arena κ) (a : Assignment) (failed : Literal) (seen : Array Bool) :
    Spares (unsatCore s a failed seen) := by
  unfold unsatCore
  split
  · exact spares_ok _
  · exact (spares_sweepCore s a failed _ _ _ _).bind fun found => spares_ok _

/-! ### Implicants -/

namespace Quadratic

theorem spares_countTrue (table : LiteralTable Bool) (ls : List Literal) :
    Spares (countTrue table ls) := by
  induction ls with
  | nil => exact spares_ok 0
  | cons l ls ih =>
    unfold countTrue
    split
    · exact spares_error (by rintro ⟨⟩)
    · exact ih.bind fun n => spares_ok _

theorem spares_meetsAll (table : LiteralTable Bool) (rs : List Requirement) :
    Spares (meetsAll table rs) := by
  induction rs with
  | nil => exact spares_ok true
  | cons r rs ih =>
    cases r with
    | mandatory l => exact ih
    | atLeast ls degree =>
      refine (spares_countTrue table ls).bind fun n => ?_
      split
      · exact ih
      · exact spares_ok false

theorem spares_dropEach (mandatory : Array Bool) (rs : List Requirement) (ls : List Literal)
    (table : LiteralTable Bool) : Spares (dropEach mandatory rs ls table) := by
  induction ls generalizing table with
  | nil => exact spares_ok table
  | cons l ls ih =>
    unfold dropEach
    split
    · exact ih table
    · refine (spares_meetsAll _ rs).bind fun met => ?_
      split <;> exact ih _

end Quadratic

theorem spares_primeImplicant (strategy : ImplicantStrategy) (model : List Literal)
    (rs : List Requirement) : Spares (primeImplicant strategy model rs) := by
  cases strategy with
  | quadratic => exact (Quadratic.spares_dropEach _ rs model _).bind fun table => spares_ok _
  | counterBased => exact spares_ok _
  | watcherBased => exact spares_ok _

/-! ### Propagation and deletion -/

namespace SearchState

theorem spares_visit (p : Literal) (r : Reference) (n : Nat) (s : SearchState κ) :
    Spares (visit p r n s) := by
  obtain ⟨board, arena, learned, order, head⟩ := s
  refine (arena.spares_get r).bind fun c => ?_
  split
  · exact spares_ok _
  · split <;> exact spares_ok _

theorem spares_notify (p : Literal) (ws : List Watcher) (s : SearchState κ) :
    Spares (notify p ws s) := by
  induction ws generalizing s with
  | nil => exact spares_ok _
  | cons w ws ih =>
    unfold notify
    split
    · exact ih _
    · refine (spares_visit p w.constraint _ s).bind fun visited => ?_
      split
      · exact ih _
      · exact spares_ok _

theorem spares_propagate (s : SearchState κ) : Spares s.propagate := by
  have hsteps : ∀ n s', Spares (propagateSteps n s' : Except Fault (_ × SearchState κ)) := by
    intro n
    induction n with
    | zero => exact fun _ => spares_error (by rintro ⟨⟩)
    | succ n ih =>
      rintro ⟨⟨a, w⟩, arena, learned, order, head⟩
      unfold propagateSteps
      split
      · exact spares_ok _
      · refine (spares_notify _ _ _).bind fun notified => ?_
        split
        · exact ih _
        · exact spares_ok _
  exact hsteps _ s

omit [CustomConstraint κ] in
theorem spares_forgetReasons (s : SearchState κ) : Spares s.forgetReasons := by
  obtain ⟨⟨a, w⟩, arena, learned, order, head⟩ := s
  simp only [forgetReasons]
  split
  · exact spares_error (by rintro ⟨⟩)
  · exact spares_ok _

theorem spares_simplify (s : SearchState κ) : Spares s.simplify :=
  s.spares_forgetReasons.bind fun _ => spares_ok _

end SearchState

/-! ## Where a computation came to -/

/-- If the computation ends because a constraint had to take back more than it counted, then a
course leads to where this happens: to a state whose newest value cannot be taken back. -/
def SearchState.Exposes (s : SearchState κ) (x : Except Fault α) : Prop :=
  FailsWith (fun fault => fault = .counterUnderflow → ∃ s' l, s.Courses s' ∧
    s'.assignment.newest? = some l ∧
    undoAll l (s'.board.watches.undosOf l.var) s'.arena = .error .counterUnderflow) x

theorem Spares.exposes {x : Except Fault α} (h : Spares x) {s : SearchState κ} : s.Exposes x :=
  FailsWith.imp h fun _ hne heq => absurd heq hne

namespace SearchState

variable {s s' : SearchState κ}

theorem exposes_ok (a : α) : s.Exposes (.ok a) := .ok a

theorem exposes_error {fault : Fault} (h : fault ≠ .counterUnderflow) :
    s.Exposes (.error fault : Except Fault α) := (spares_error h).exposes

theorem Exposes.bind {x : Except Fault α} {f : α → Except Fault β} (hx : s.Exposes x)
    (hf : ∀ a, x = .ok a → s.Exposes (f a)) : s.Exposes (x >>= f) := FailsWith.bind hx hf

/-- What comes to be later came to be. -/
theorem Courses.exposes {x : Except Fault α} (hc : s.Courses s') (h : s'.Exposes x) :
    s.Exposes x :=
  FailsWith.imp h fun _ hex heq =>
    have ⟨s'', l, hc', hundo⟩ := hex heq
    ⟨s'', l, hc.trans hc', hundo⟩

theorem exposes_undoNewest (n : Nat) {board : Board} {arena : Arena κ}
    {order : DecisionOrder Generator} {learned : LearnedDatabase} {head : Nat}
    (h : (⟨board, arena, learned, order, head⟩ : SearchState κ).Sane) :
    (⟨board, arena, learned, order, head⟩ : SearchState κ).Exposes
      (undoNewest n board arena order) := by
  induction n generalizing board arena order with
  | zero => exact exposes_ok _
  | succ n ih =>
    obtain ⟨a, w⟩ := board
    unfold undoNewest
    split
    · exact exposes_ok _
    · rename_i l hl
      have hfirst : (⟨⟨a, w⟩, arena, learned, order, head⟩ : SearchState κ).Exposes
          (undoAll l (w.undosOf l.var) arena) :=
        fun fault hundo heq => ⟨_, l, .refl h, hl, heq ▸ hundo⟩
      refine hfirst.bind fun arena' hundo => ?_
      have hc := (proceeds_unassign h hl hundo).toCourses
      exact hc.exposes (ih hc.sane)

theorem exposes_backtrack (h : s.Sane) (level : Nat) : s.Exposes (s.backtrack level) := by
  obtain ⟨board, arena, learned, order, head⟩ := s
  simp only [SearchState.backtrack]
  split
  · exact exposes_ok _
  · exact (exposes_undoNewest _ h).bind fun _ _ => exposes_ok _

theorem exposes_backtrackRoot (h : s.Sane) (checkpoint : Nat) :
    s.Exposes (s.backtrackRoot checkpoint) := by
  obtain ⟨board, arena, learned, order, head⟩ := s
  simp only [SearchState.backtrackRoot]
  split
  · exact exposes_error (by rintro ⟨⟩)
  · exact (exposes_undoNewest _ h).bind fun _ _ => exposes_ok _

theorem exposes_deleteOwned (h : s.Sane) (rs : List Reference) (handle : Nat) :
    s.Exposes (s.deleteOwned rs handle) :=
  (exposes_backtrack h 0).bind fun s' _ =>
    (s'.spares_forgetReasons.bind fun _ => spares_ok _).exposes

end SearchState

namespace Engine

open SearchState

variable {e e' : Engine κ}

theorem exposes_backtrack (h : e.search.Sane) (level : Nat) :
    e.search.Exposes (e.backtrack level) := by
  obtain ⟨search, analyser, control⟩ := e
  exact (SearchState.exposes_backtrack h level).bind fun _ _ => exposes_ok _

theorem exposes_remove (h : e.search.Sane) (rs : List Reference) (handle : Nat) :
    e.search.Exposes (e.remove rs handle) := by
  obtain ⟨search, analyser, control⟩ := e
  exact (exposes_deleteOwned h rs handle).bind fun _ _ => exposes_ok _

theorem spares_propagate (e : Engine κ) : Spares e.propagate := by
  obtain ⟨search, analyser, control⟩ := e
  exact search.spares_propagate.bind fun _ => spares_ok _

/-! ### Additions -/

theorem exposes_withdraw (h : e.search.Sane) (checkpoint : Nat) (attached : List Reference) :
    e.search.Exposes (e.withdraw checkpoint attached) := by
  obtain ⟨search, analyser, control⟩ := e
  exact (exposes_backtrackRoot h checkpoint).bind fun _ _ => exposes_ok _

theorem exposes_addParts (h : e.search.Sane) (handle checkpoint : Nat) (ds : List (Description κ))
    {attached : List Reference} (hattached : e.search.Holding attached) :
    e.search.Exposes (addParts handle checkpoint ds attached e) := by
  induction ds generalizing attached e with
  | nil => exact exposes_ok _
  | cons d ds ih =>
    unfold Engine.addParts
    have hgrown := proceeds_grow h (Description.maxVariable d.literals)
    generalize e.grow (Description.maxVariable d.literals) = e₁ at *
    obtain ⟨search, analyser, control⟩ := e₁
    refine hgrown.toCourses.exposes ?_
    dsimp only
    have hheld := hgrown.holding hattached
    obtain ⟨hcame, hheld'⟩ :=
      proceeds_attachNormal handle (fun _ => Description.falsified_normalise) hgrown.sane hheld
    split
    · exact ih hgrown.sane hheld
    · split
      · rename_i attached' search' heq
        rw [heq] at hcame hheld'
        exact hcame.toCourses.exposes (exposes_withdraw hcame.sane checkpoint attached')
      · rename_i attached' search' heq
        rw [heq] at hcame hheld'
        refine hcame.toCourses.exposes ((spares_propagate _).exposes.bind ?_)
        rintro ⟨conflict, e₂⟩ hprop
        have hpropagated := proceeds_propagate hcame.sane (search_of_propagate hprop)
        refine hpropagated.toCourses.exposes ?_
        cases conflict with
        | none => exact ih hpropagated.sane (hpropagated.holding hheld')
        | some r => exact exposes_withdraw hpropagated.sane checkpoint attached'

theorem exposes_add (h : e.search.Sane) (handle : Nat) (ds : List (Description κ)) :
    e.search.Exposes (e.add handle ds) := by
  unfold Engine.add
  split
  · exact exposes_ok _
  · refine (exposes_backtrack h 0).bind fun e₁ hback => ?_
    have hlow := courses_backtrack h hback
    exact hlow.exposes (exposes_addParts hlow.sane handle _ ds
      ⟨List.nodup_nil, fun r hr => absurd hr List.not_mem_nil⟩)

/-! ### Conflicts -/

theorem exposes_learnUnit (h : e.search.Sane) (l : Literal) (n : Nat) :
    e.search.Exposes (e.learnUnit l n) := by
  obtain ⟨search, analyser, control⟩ := e
  exact (SearchState.exposes_backtrack h 0).bind fun _ _ => exposes_ok _

theorem exposes_learnClause (h : e.search.Sane) (k : Clause) (level n : Nat) :
    e.search.Exposes (e.learnClause k level n) := by
  obtain ⟨⟨board, arena, learned, order, head⟩, analyser, control⟩ := e
  simp only [learnClause]
  have hmeasured : (⟨board, arena, learned, order, head⟩ : SearchState κ).Courses
      ⟨board, arena, (learned.nextAge.2.measure board.assignment k.literals).2, order, head⟩ :=
    courses_of_board h rfl (.refl _) rfl
  exact hmeasured.exposes
    ((SearchState.exposes_backtrack hmeasured.sane level).bind fun _ _ => exposes_ok _)

theorem exposes_resolveConflict (h : e.search.Sane) (r : Reference) :
    e.search.Exposes (e.resolveConflict r) := by
  obtain ⟨search, analyser, control⟩ := e
  refine (search.arena.spares_get r).exposes.bind fun c _ => ?_
  dsimp only
  split
  · exact exposes_ok _
  · refine (SearchState.exposes_backtrack h _).bind fun low hback => ?_
    have hlow := proceeds_backtrack h hback
    refine hlow.toCourses.exposes
      ((Analyser.spares_analyse _ _ _ _ _ _).exposes.bind fun lesson hanalyse => ?_)
    obtain ⟨hretagged, hrefs⟩ := Analyser.retagged_analyse hanalyse
    have htaught : low.Courses (low.taught lesson) :=
      courses_of_board hlow.sane rfl hretagged hrefs
    refine htaught.exposes ?_
    split
    · exact exposes_error (by rintro ⟨⟩)
    · exact (exposes_learnUnit (e := ⟨low.taught lesson, _, _⟩) htaught.sane _ _).bind
        fun _ _ => exposes_ok _
    · exact (exposes_learnClause (e := ⟨low.taught lesson, _, _⟩) htaught.sane _ _ _).bind
        fun _ _ => exposes_ok _

theorem exposes_rootConflict (h : e.search.Sane) : e.search.Exposes e.rootConflict := by
  refine (exposes_backtrack h 0).bind fun e₁ _ => ?_
  split <;> exact exposes_ok _

/-! ### Decisions -/

theorem exposes_failAssumption (h : e.search.Sane) (l : Literal) :
    e.search.Exposes (e.failAssumption l) := by
  obtain ⟨search, ⟨minimisation, seen, minimiser⟩, control⟩ := e
  exact (spares_unsatCore _ _ _ _).exposes.bind fun _ _ =>
    (SearchState.exposes_backtrack h 0).bind fun _ _ => exposes_ok _

theorem exposes_blockDecisions (h : e.search.Sane) : e.search.Exposes e.blockDecisions := by
  obtain ⟨search, analyser, control⟩ := e
  simp only [blockDecisions]
  split
  · exact (SearchState.exposes_backtrack h 0).bind fun _ _ => exposes_ok _
  · split
    · exact (SearchState.exposes_backtrack h _).bind fun _ _ => exposes_ok _
    · exact (SearchState.exposes_backtrack h 0).bind fun _ _ => exposes_ok _
    · exact exposes_error (by rintro ⟨⟩)

theorem exposes_decideVariable (h : e.search.Sane) : e.search.Exposes e.decideVariable := by
  obtain ⟨⟨board, arena, learned, order, head⟩, analyser, control⟩ := e
  simp only [decideVariable]
  split
  · exact exposes_ok _
  · rename_i order' hnext
    split
    · exact exposes_ok _
    · have hasked : (⟨board, arena, learned, order, head⟩ : SearchState κ).Courses
          ⟨board, arena, learned, order', head⟩ := courses_of_board h rfl (.refl _) rfl
      exact hasked.exposes (exposes_blockDecisions (e := ⟨_, analyser, control⟩) hasked.sane)

theorem exposes_assume (h : e.search.Sane) (ls : List Literal) :
    e.search.Exposes (e.assume ls) := by
  induction ls generalizing e with
  | nil => exact exposes_decideVariable h
  | cons l ls ih =>
    unfold Engine.assume
    split
    · obtain ⟨search, analyser, control⟩ := e
      have hopened := (proceeds_openLevel h).toCourses
      exact hopened.exposes (ih (e := ⟨search.openLevel, analyser, control⟩) hopened.sane)
    · split
      · exact (exposes_failAssumption h l).bind fun _ _ => exposes_ok _
      · exact exposes_ok _

/-! ### Searches -/

theorem spares_simplifyIfDue (e : Engine κ) : Spares e.simplifyIfDue := by
  unfold simplifyIfDue
  split
  · exact e.search.spares_simplify.bind fun _ => spares_ok _
  · exact spares_ok _

theorem spares_reduceIfDue (e : Engine κ) : Spares e.reduceIfDue := by
  obtain ⟨⟨board, arena, learned, order, head⟩, analyser, control⟩ := e
  simp only [reduceIfDue]
  split
  · exact (learned.spares_reduce arena _).bind fun _ => spares_ok _
  · exact spares_ok _

theorem exposes_restartIfDue (h : e.search.Sane) : e.search.Exposes e.restartIfDue := by
  unfold restartIfDue
  split
  · exact (SearchState.exposes_backtrack h 0).bind fun _ _ => exposes_ok _
  · exact exposes_ok _

theorem exposes_step (h : e.search.Sane) (stage : Stage) : e.search.Exposes (e.step stage) := by
  cases stage with
  | propagating => exact (e.spares_propagate.bind fun _ => spares_ok _).exposes
  | conflict r =>
    have hcounted : e.countConflict.search.Sane := h
    refine (exposes_resolveConflict hcounted r).bind ?_
    rintro ⟨resolved, e₁⟩ hresolve
    dsimp only
    split
    · exact exposes_ok _
    · have hresolved := courses_resolveConflict hcounted hresolve
      exact hresolved.exposes ((exposes_rootConflict hresolved.sane).bind fun _ _ => exposes_ok _)
  | deciding =>
    refine (e.spares_simplifyIfDue.exposes).bind fun e₁ hsimplify => ?_
    have h₁ := courses_simplifyIfDue h hsimplify
    refine h₁.exposes ((e₁.spares_reduceIfDue.exposes).bind fun e₂ hreduce => ?_)
    have h₂ := courses_reduceIfDue h₁.sane hreduce
    refine h₂.exposes ((exposes_restartIfDue h₂.sane).bind fun e₃ hrestart => ?_)
    have h₃ := courses_restartIfDue h₂.sane hrestart
    refine h₃.exposes ((exposes_assume h₃.sane _).bind fun decided _ => ?_)
    split <;> exact exposes_ok _

variable {τ : Type} [Termination τ]

theorem exposes_run (h : e.search.Sane) (n : Nat) (stage : Stage) (limit : τ) :
    e.search.Exposes (run n stage limit e) := by
  induction n generalizing stage limit e with
  | zero => exact exposes_error (by rintro ⟨⟩)
  | succ n ih =>
    unfold Engine.run
    split
    · exact (exposes_backtrack (e := e.report .searchStopped) h 0).bind fun _ _ => exposes_ok _
    · refine (exposes_step h stage).bind ?_
      rintro ⟨next, e₁⟩ hstep
      have hstepped := courses_step h hstep
      cases next with
      | error outcome => exact exposes_ok _
      | ok stage => exact hstepped.exposes (ih hstepped.sane stage _)

theorem exposes_solve (h : e.search.Sane) (assumptions : List Literal) (limit : τ) :
    e.search.Exposes (e.solve assumptions limit) := by
  unfold Engine.solve
  split
  · exact exposes_ok _
  · refine (exposes_backtrack h 0).bind fun e₁ hback => ?_
    have hlow := courses_backtrack h hback
    have hposed : e₁.search.Courses (e₁.posed assumptions).search :=
      (proceeds_grow (e := e₁.under assumptions) hlow.sane _).toCourses
    exact (hlow.trans hposed).exposes (exposes_run hposed.sane _ _ limit)

end Engine

end ClauseLearning
