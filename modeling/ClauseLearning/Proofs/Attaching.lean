import ClauseLearning.Proofs.Sessions

/-!
# Constraints that are added as they are

A constraint that is its own normal form, and from which nothing follows at the root, is attached as
it is. All that its addition does otherwise is to enter it in the book.

* `Engine.add_of_constraint`, `Session.run_add`: the addition of such a constraint.
* `Session.withCopies`, `Session.withChain`: sessions with one and with two such constraints.
-/

namespace ClauseLearning

/-! ## Normal forms -/

/-- A sorted clause of different literals that have no value yet stays as it is. -/
theorem Engine.normalise_clause {κ : Type} {a : Assignment} {k : Clause}
    (htrue : k.literals.any a.isSatisfied = false)
    (hfalse : (k.literals.filter fun l => !a.isFalsified l) = k.literals)
    (hsorted : k.literals.Pairwise fun l m => Literal.le l m = true)
    (hreps : k.literals.eraseReps = k.literals)
    (hcomplement : Normal.hasComplement k.literals = false) :
    (Description.clause k.literals : Description κ).normalise a = .constraint (.clause k) := by
  have hsort : Normal.sort k.literals = k.literals := List.mergeSort_of_pairwise hsorted
  show Normal.ofClause a k.literals = _
  unfold Normal.ofClause
  rw [hfalse, hsort, hreps]
  simp only [htrue, hcomplement]
  rfl

/-! ## Additions -/

variable {κ : Type} [CustomConstraint κ]

namespace Engine

omit [CustomConstraint κ] in
theorem grow_of_le {n : Nat} {e : Engine κ} (h : n ≤ e.numVariables) : e.grow n = e := by
  obtain ⟨search, analyser, control⟩ := e
  have h' : n ≤ search.numVariables := h
  unfold grow
  dsimp only
  rw [if_pos h']

/-- A part with a normal form of its own is attached. -/
theorem addParts_of_constraint {handle checkpoint : Nat} {d : Description κ} {k : Kind κ}
    (ds : List (Description κ)) (attached : List Reference) {search search' : SearchState κ}
    {analyser : Analyser} {control : Control} {e e' : Engine κ} {r : Reference}
    (hgrow : e.grow (Description.maxVariable d.literals) = ⟨search, analyser, control⟩)
    (hnorm : d.normalise search.assignment = .constraint k)
    (hattach : search.attach ⟨k, .ofHandle handle⟩ = (r, true, search'))
    (hrun : propagate ⟨search', analyser, control⟩ = .ok (none, e')) :
    addParts handle checkpoint (d :: ds) attached e =
      addParts handle checkpoint ds (attached ++ [r]) e' := by
  conv_lhs => unfold addParts
  simp only [hgrow, hnorm, attachNormal, hattach, hrun, bind, Except.bind]

/-- At the root it is all that there is to do. -/
theorem add_of_constraint {handle : Nat} {d : Description κ} {k : Kind κ} {search' : SearchState κ}
    {e e' : Engine κ} {r : Reference} (hinf : e.control.infeasible = false)
    (hback : e.backtrack 0 = .ok e) (hle : Description.maxVariable d.literals ≤ e.numVariables)
    (hnorm : d.normalise e.search.assignment = .constraint k)
    (hattach : e.search.attach ⟨k, .ofHandle handle⟩ = (r, true, search'))
    (hrun : propagate ⟨search', e.analyser, e.control⟩ = .ok (none, e')) :
    e.add handle [d] = .ok (.ok [r], e') := by
  simp only [add, hinf, hback, Bool.false_eq_true, if_false, bind, Except.bind]
  rw [addParts_of_constraint [] [] (grow_of_le hle) hnorm hattach hrun]
  rfl

end Engine

namespace Session

/-- What was attached is entered in the book. -/
theorem run_add {a : Addition} {ls : List Literal} {rs : List Reference} {s : Session κ}
    {e e' : Engine κ} (hls : (literals a.numbers).run s = (.ok ls, ⟨e, s.book⟩))
    (hadd : e.add s.book.entries.size (a.descriptions ls) = .ok (.ok rs, e')) :
    ((Call.add a).run).run s = (.ok (),
      ⟨e', { s.book with entries := s.book.entries.push ⟨a.descriptions ls, rs, false⟩ }⟩) := by
  have hone : (addConstraint (a.descriptions ls)).run ⟨e, s.book⟩ = (.ok (.ok s.book.entries.size),
      ⟨e', { s.book with entries := s.book.entries.push ⟨a.descriptions ls, rs, false⟩ }⟩) := by
    show (ofEngine (·.add s.book.entries.size (a.descriptions ls)) >>= _).run ⟨e, s.book⟩ = _
    rw [run_ofEngine_bind, hadd]
    rfl
  have hall : (a.run).run s = (.ok (.ok s.book.entries.size),
      ⟨e', { s.book with entries := s.book.entries.push ⟨a.descriptions ls, rs, false⟩ }⟩) := by
    rw [Addition.run_eq, run_bind, hls]
    exact hone
  exact run_discard_of_ok hall

/-! ### Two of three copies -/

/-- Two of three copies of a literal have to be true. Propagation does not notice at the root that
the literal has to be. -/
def copies : Cardinality := ⟨[.make 1 true, .make 1 true, .make 1 true], 2, 0⟩

/-- A new session in which the variable is known. -/
def beforeCopies : Session Empty :=
  ⟨(make Options.standard : Session Empty).engine.growAll [1, 1, 1],
    (make Options.standard : Session Empty).book⟩

theorem normalise_copies :
    (Description.atLeast copies.literals 2 : Description Empty).normalise
      beforeCopies.engine.search.assignment = .constraint (.cardinality copies) := by
  have hsort : Normal.sort copies.literals = copies.literals :=
    List.mergeSort_of_pairwise (by decide +kernel)
  have hfilter : copies.literals.filter beforeCopies.engine.search.assignment.isUnassigned =
      copies.literals := by decide +kernel
  have hcount : copies.literals.countP beforeCopies.engine.search.assignment.isSatisfied = 0 := by
    decide +kernel
  have hgroups : (copies.literals.splitBy fun l m => l.var == m.var).map Normal.cancelPairs =
      [(0, copies.literals)] := by decide +kernel
  show Normal.ofAtLeast beforeCopies.engine.search.assignment copies.literals 2 = _
  unfold Normal.ofAtLeast
  rw [hfilter, hsort, hcount]
  simp only [hgroups]
  rfl

/-- The session after the addition of the constraint. -/
def withCopies : Session Empty :=
  ⟨⟨(beforeCopies.engine.search.attach ⟨.cardinality copies, .ofHandle 0⟩).2.2,
      beforeCopies.engine.analyser, beforeCopies.engine.control.count fun s =>
        { s with propagations := s.propagations + 0 }⟩,
    { beforeCopies.book with entries := #[⟨[.atLeast copies.literals 2], [⟨0⟩], false⟩] }⟩

theorem add_copies : beforeCopies.engine.add 0 [.atLeast copies.literals 2] =
    .ok (.ok [⟨0⟩], withCopies.engine) :=
  Engine.add_of_constraint rfl rfl (by decide +kernel) normalise_copies rfl rfl

theorem run_add_copies :
    ((Call.add (.atLeast [1, 1, 1] 2)).run).run (make Options.standard : Session Empty) =
      (.ok (), withCopies) := by
  have hls : (literals [1, 1, 1]).run (make Options.standard : Session Empty) =
      (.ok copies.literals, beforeCopies) := rfl
  exact run_add hls add_copies

theorem reachable_withCopies : withCopies.Reachable :=
  .call (.make Options.standard) run_add_copies

/-! ### And what follows -/

/-- A literal that follows from the one of which there are copies. -/
def consequence : Clause := ⟨.make 1 false, .make 2 true, []⟩

/-- The session in which both variables are known. -/
def beforeChain : Session Empty := ⟨withCopies.engine.growAll [1, 2], withCopies.book⟩

/-- The session after the addition of the clause. -/
def withChain : Session Empty :=
  ⟨⟨(beforeChain.engine.search.attach ⟨.clause consequence, .ofHandle 1⟩).2.2,
      beforeChain.engine.analyser, beforeChain.engine.control.count fun s =>
        { s with propagations := s.propagations + 0 }⟩,
    { beforeChain.book with
      entries := beforeChain.book.entries.push ⟨[.clause consequence.literals], [⟨1⟩], false⟩ }⟩

theorem add_consequence : beforeChain.engine.add 1 [.clause consequence.literals] =
    .ok (.ok [⟨1⟩], withChain.engine) := by
  have hnorm : (Description.clause consequence.literals : Description Empty).normalise
      beforeChain.engine.search.assignment = .constraint (.clause consequence) := by
    apply Engine.normalise_clause
    all_goals decide +kernel
  exact Engine.add_of_constraint rfl rfl (by decide +kernel) hnorm rfl rfl

theorem run_add_consequence :
    ((Call.add (.clause [-1, 2])).run).run withCopies = (.ok (), withChain) := by
  have hls : (literals [-1, 2]).run withCopies = (.ok consequence.literals, beforeChain) := rfl
  exact run_add hls add_consequence

/-- Nothing waits for its notifications while the constraints are added. -/
theorem undisturbed_withCopies : withCopies.Undisturbed :=
  .call (.make Options.standard) run_add_copies trivial fun hloses => hloses.2.1 rfl

theorem undisturbed_withChain : withChain.Undisturbed :=
  .call undisturbed_withCopies run_add_consequence trivial fun hloses => hloses.2.1 rfl

end Session

end ClauseLearning
