import ClauseLearning.Proofs.Records
import ClauseLearning.Proofs.Standing
import ClauseLearning.Proofs.Traces

/-!
# Nothing goes wrong on the inside

A fault (`Fault`) would be a broken promise between two parts of an engine. No call that a caller
may make ends with one, apart from a query that has used up its steps (`Session.Faultless`).

Not every lookup outside of a table and not every negative difference is a fault: some have a value
all the same. That there are none of these either is said of the states (`Engine.InBounds`): between
any two operations of an engine, in the midst of additions and removals as well, and while it
propagates between any two notifications.

* `Engine.Reachable.inBounds`: lookups and differences.
* `Session.Reachable.never_faults`: calls, the stages of queries, and both of these.
-/

namespace ClauseLearning

variable {κ : Type}

/-! ## Lookups and differences -/

/-- What a propagation or a way back looks up is there, and what they subtract is not too large. -/
structure SearchState.InBounds (s : SearchState κ) : Prop where
  known : ∀ l ∈ s.assignment.trues, l.Known s.assignment.cells.size
  head_le : s.head ≤ s.assignment.trues.length
  layered : s.assignment.Layered
  sized : s.board.watches.Sized s.assignment.cells.size
  /-- Literals are of known variables, and no more of them are asked for than there are. -/
  constraints : ∀ {r c}, s.arena.get? r = some c → c.kind.WellFormed s.assignment.cells.size
  watchers : ∀ {l w}, w ∈ s.board.watches.watchersOf l → s.arena.isAlive w.constraint = true
  undos : ∀ {v r}, r ∈ s.board.watches.undosOf v → s.arena.isAlive r = true
  reasons : ∀ {v r}, s.assignment.reason? v = some r → s.arena.isAlive r = true
  /-- A constraint counted as many reports as it will be told to take back. -/
  counted : ∀ {r c}, s.arena.get? r = some c →
    (s.board.watches.notified r).length = c.kind.falsified

/-- Some of the watchers may be out of their lists, to be put back later. -/
theorem Arena.OnBoard.inBounds {s : SearchState κ} {w : Watches}
    (h : s.arena.OnBoard ⟨s.assignment, w⟩ s.head)
    (hw : s.board.watches.Sized s.assignment.cells.size)
    (hlists : ∀ l, ∀ x ∈ s.board.watches.watchersOf l, x ∈ w.watchersOf l)
    (hundos : w.undos = s.board.watches.undos) (hlayered : s.assignment.Layered)
    (hhead : s.head ≤ s.assignment.trues.length) : s.InBounds := by
  obtain ⟨⟨a, ⟨lists, undos⟩⟩, arena, learned, order, head⟩ := s
  obtain ⟨lists', undos'⟩ := w
  cases hundos
  exact {
    known := fun l hl => ⟨h.consistent.var_ne_zero hl, h.consistent.var_lt hl⟩
    head_le := hhead
    layered := hlayered
    sized := hw
    constraints := h.wellFormed
    watchers := fun hx => h.isAlive_of_watcher (hlists _ _ hx)
    undos := h.isAlive_of_undo
    reasons := h.isAlive_of_reason
    counted := h.counted }

theorem SearchState.WellFormed.inBounds {s : SearchState κ} (h : s.WellFormed) : s.InBounds :=
  Arena.OnBoard.inBounds (w := s.board.watches) h.onBoard h.onBoard.sized (fun _ _ hx => hx) rfl
    h.layered h.head_le

theorem SearchState.Notifying.inBounds {s : SearchState κ} {p : Literal} {ws : List Watcher}
    (h : s.Notifying p ws) (hhead : s.head ≤ s.assignment.trues.length) :
    s.InBounds ∧ ∀ w ∈ ws, s.arena.isAlive w.constraint = true := by
  have hsized := h.onBoard.sized.of_append
  have hp : p.var < s.assignment.cells.size :=
    h.onBoard.consistent.var_lt (List.mem_of_mem_take h.mem)
  have hlists := Watches.watchersOf_append hsized hp ws
  refine ⟨h.onBoard.inBounds hsized (fun l x hx => ?_) rfl h.layered hhead, fun w hw => ?_⟩
  · rw [hlists]
    split
    · exact List.mem_append_left _ hx
    · exact hx
  · refine h.onBoard.isAlive_of_watcher (l := p) ?_
    show w ∈ (s.board.watches.append p ws).watchersOf p
    rw [hlists, if_pos rfl]
    exact List.mem_append_right _ hw

namespace Engine

variable [CustomConstraint κ]

/-- What an engine looks up is there, and what it subtracts is not too large, whatever it is in the
midst of. -/
structure InBounds (moment : Moment κ) (e : Engine κ) : Prop where
  search : e.search.InBounds
  listed : ∀ r ∈ e.search.learned.references.toList, e.search.arena.isAlive r = true
  heap : e.search.order.WellFormed e.search.assignment.cells.size
  marks : e.analyser.seen.size = e.search.assignment.cells.size
  tabled : e.Tabled
  /-- Wherever a propagation is between two notifications. -/
  passing : ∀ {pause s}, e.search.Passes pause s → pause ≠ .acting → s.InBounds
  waiting : ∀ {p ws s}, e.search.Passes (.notifying p ws) s →
    ∀ w ∈ ws, s.arena.isAlive w.constraint = true
  /-- The constraint in conflict is there. Above the root its analysis ends with a clause, so no
  step lacks an open literal or a reason, and the level to go back to is lower than the current
  one. -/
  conflict : ∀ {r}, moment = .searching (.conflict r) → ∃ c, e.search.arena.get? r = some c ∧
    (highestLevel e.search.assignment (c.reason e.search.assignment none) ≠ 0 →
      ∃ low lesson, e.search.backtrack
          (highestLevel e.search.assignment (c.reason e.search.assignment none)) = .ok low ∧
        e.analyser.analyse r low.assignment low.order low.learned low.arena = .ok lesson ∧
        lesson.clause.backjumpLevel < low.decisionLevel)

/-- Whatever an engine is in the midst of, its lookups and differences are in bounds. -/
theorem Reachable.inBounds {moment : Moment κ} {e : Engine κ} (h : Reachable moment e) :
    e.InBounds moment := by
  have ho := h.orderly
  have hw := ho.wellFormed.search
  refine ⟨hw.inBounds, fun r hr => ?_, hw.order, ho.wellFormed.clean.size, ho.tabled,
    fun {pause s} hs hne => ?_, fun hs => ?_, fun {r} hm => ?_⟩
  · exact Arena.isAlive_iff.mpr ((hw.lists.learned r hr).imp fun _ hc => hc.1)
  · have hfits := hs.fits hw
    cases pause with
    | between => exact SearchState.WellFormed.inBounds hfits
    | notifying p ws => exact (hfits.1.inBounds hfits.2.1).1
    | acting => exact absurd rfl hne
  · obtain ⟨hn, hhead, -⟩ := hs.fits hw
    exact (hn.inBounds hhead).2
  · subst hm
    obtain ⟨-, c, hc, hv⟩ := ho.fits.at_stage
    refine ⟨c, hc, fun hne => ?_⟩
    obtain ⟨low, lesson, first, rest, hr⟩ := exists_resolves ho.wellFormed ho.fits.honours hc hv hne
    obtain ⟨c', hc', hback⟩ := hr.lowered
    cases hc.symm.trans hc'
    exact ⟨low, lesson, hback, hr.analysed, hr.lower⟩

end Engine

/-! ## Calls -/

namespace Session

variable [CustomConstraint κ] {s : Session κ}

/-- Nothing that a caller may ask for next ends with a fault. -/
structure Faultless (s : Session κ) : Prop where
  engine : Engine.Reachable .resting s.engine
  /-- A call returns, and calls may go on, unless it is a query that has used up its steps. -/
  calls : ∀ c : Call, c.Valid s →
    (∃ s', (c.run : SessionM κ Unit).run s = (.ok (), s') ∧ s'.Reachable) ∨
      c.Endures s ∧ ∃ s', (c.run : SessionM κ Unit).run s = (.error (.internal .outOfSteps), s')
  /-- However many stages a query goes through, each of them has a result. -/
  stages : ∀ {assumptions last e}, Meets assumptions s last e →
    Engine.Reachable (.searching last) e ∧ ∃ x, e.step last = .ok x
  /-- A model can be checked. -/
  checked : ∀ ls, s.book.model = some ls →
    (∃ b, s.checkModel = .ok b) ∧ ∀ l ∈ ls, l.var ≠ 0 ∧ l.var ≤ s.numVariables
  described : ∀ d ∈ s.descriptions, ∀ l ∈ d.literals, l.var ≠ 0 ∧ l.var ≤ s.numVariables

omit [CustomConstraint κ] in
theorem le_numVariables {l : Literal} (h : l.Known s.engine.search.assignment.cells.size) :
    l.var ≠ 0 ∧ l.var ≤ s.numVariables := ⟨h.1, Nat.le_sub_one_of_lt h.2⟩

theorem checkModel_total {ls : List Literal} (h : s.book.model = some ls) :
    ∃ b, s.checkModel = .ok b := by
  have hmodel : s.model = .ok ls := by
    unfold model
    rw [h]
  unfold checkModel
  rw [hmodel]
  exact ⟨_, rfl⟩

/-- What is said of the present constraints is about known variables. -/
theorem Standing.described (h : s.Standing) {d : Description κ} (hd : d ∈ s.descriptions) :
    ∀ l ∈ d.literals, l.Known s.engine.search.assignment.cells.size := by
  obtain ⟨entry, hentry, hmem⟩ := List.mem_flatMap.mp hd
  have hknown := (h.entries entry (List.mem_filter.mp hentry).1).known d hmem
  cases d with
  | custom c => exact hknown.elim
  | _ => exact hknown

theorem Standing.faultless (h : s.Standing) (hreach : s.Reachable) : s.Faultless := by
  refine ⟨h.engine, fun c hvalid => ?_, fun hm => ?_, fun ls hls => ?_, fun d hd l hl => ?_⟩
  · have hends := Call.ends h c
    unfold Ends at hends
    rcases hrun : (c.run : SessionM κ Unit).run s with ⟨result, s'⟩
    rw [hrun] at hends
    cases result with
    | ok a => exact Or.inl ⟨s', rfl, hreach.call hrun⟩
    | error v =>
      obtain ⟨rfl, hendures⟩ := hends hvalid
      exact Or.inr ⟨hendures, s', rfl⟩
  · have he := hm.reachable h
    obtain ⟨x, hx, -⟩ := he.step_yields
    exact ⟨he, x, hx⟩
  · exact ⟨checkModel_total hls, fun l hl => le_numVariables (h.model ls hls l hl)⟩
  · exact le_numVariables (h.described hd l hl)

/-- In a session, no call that may be made ends with a fault, whatever came before, and no engine
ever looks up or subtracts what it may not. -/
theorem Reachable.never_faults (h : s.Reachable) :
    s.Faultless ∧ ∀ (moment : Moment κ) (e : Engine κ), Engine.Reachable moment e →
      e.InBounds moment :=
  ⟨h.standing.faultless h, fun _ _ he => he.inBounds⟩

/-- The constraint that a session got can be removed again. -/
theorem Reachable.never_faults_withCopies :
    (Call.remove 0).Valid withCopies ∧ withCopies.Faultless ∧
      ∀ (moment : Moment Empty) (e : Engine Empty), Engine.Reachable moment e → e.InBounds moment :=
  ⟨.remove ⟨_, rfl, rfl⟩, Session.Reachable.never_faults reachable_withCopies⟩

end Session

end ClauseLearning
