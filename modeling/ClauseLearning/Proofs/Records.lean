import ClauseLearning.Proofs.Running

/-!
# The arena, the lists and the database agree

Constraints are named in four places: the watch lists, the lists of what is to be taken back, the
reasons of values and the database of learned clauses. Between its operations an engine names
constraints that are there only, and those that are there are named as often as they should be
(`SearchState.Recorded`).

* `Kind.Watches`: which literals a constraint watches, and how often.
* `Engine.Reachable.records_agree`: the records agree whatever happened before.
-/

namespace ClauseLearning

variable {κ : Type}

/-! ## What is watched -/

/-- A constraint that watches a literal `n` times watches what its kind asks for. -/
def Kind.Watches (n : Literal → Nat) : Kind κ → Prop
  | .clause c => n (-c.first) = 1 ∧ n (-c.second) = 1 ∧
      ∀ l, l ≠ -c.first → l ≠ -c.second → n l = 0
  | .cardinality c => ∀ l, n (-l) = c.literals.count l
  | .parity c => (∀ l, l.var = c.first ∨ l.var = c.second → n l = 1) ∧
      ∀ l, l.var ≠ c.first → l.var ≠ c.second → n l = 0
  | .custom _ => False

/-- A clause waits for the negations of its first two literals. -/
theorem Clause.count_watched (c : Clause) (l : Literal) :
    (Kind.clause c : Kind κ).watched.count l =
      (if l = -c.first then 1 else 0) + if l = -c.second then 1 else 0 := by
  simp only [Kind.watched, List.count_cons, List.count_nil, beq_iff_eq, eq_comm (b := l)]
  omega

theorem Kind.WellFormed.watches {k : Kind κ} {size : Nat} (h : k.WellFormed size)
    {n : Literal → Nat} (hn : ∀ l, n l = k.watched.count l) : k.Watches n := by
  cases k with
  | clause c =>
    have hne : -c.first ≠ -c.second := fun heq => by
      have hvar : c.first.var = c.second.var := by
        rw [← Literal.var_negate c.first, heq, Literal.var_negate]
      have hnodup := h.1
      simp only [Clause.literals, List.map_cons, List.nodup_cons, List.mem_cons, not_or] at hnodup
      exact hnodup.1.1 hvar
    refine ⟨?_, ?_, fun l hfirst hsecond => ?_⟩
    · rw [hn, Clause.count_watched, if_pos rfl, if_neg hne]
    · rw [hn, Clause.count_watched, if_pos rfl, if_neg hne.symm]
    · rw [hn, Clause.count_watched, if_neg hfirst, if_neg hsecond]
  | cardinality c =>
    intro l
    have hcount := tally_mul_count_watched (.cardinality c : Kind κ) (-l)
    rw [Literal.negate_negate] at hcount
    rw [hn, ← Nat.one_mul (List.count _ _)]
    exact hcount
  | parity c =>
    have hne : c.first ≠ c.second := by
      have hnodup := h.1
      simp only [Parity.vars, List.nodup_cons, List.mem_cons, not_or] at hnodup
      exact hnodup.1.1
    refine ⟨fun l hl => ?_, fun l hfirst hsecond => ?_⟩
    · rw [hn, Parity.count_watched]
      rcases hl with hl | hl
      · rw [if_pos hl, if_neg fun h => hne (hl.symm.trans h)]
      · rw [if_pos hl, if_neg fun h => hne (h.symm.trans hl)]
    · rw [hn, Parity.count_watched, if_neg hfirst, if_neg hsecond]
  | custom c => exact h

/-! ## What is named -/

namespace Arena.OnBoard

variable {s : Arena κ} {b : Board} {head : Nat} (h : s.OnBoard b head)
include h

theorem isAlive_of_watcher {l : Literal} {w : Watcher} (hw : w ∈ b.watches.watchersOf l) :
    s.isAlive w.constraint = true :=
  isAlive_iff.mpr ((h.entries hw).imp fun _ hc => hc.1)

theorem isAlive_of_undo {v : Nat} {r : Reference} (hr : r ∈ b.watches.undosOf v) :
    s.isAlive r = true := by
  obtain ⟨c, hc, -⟩ := h.reported (Nat.ne_of_gt (List.count_pos_iff.mpr hr))
  exact isAlive_iff.mpr ⟨c, hc⟩

theorem isAlive_of_reason {v : Nat} {r : Reference} (hr : b.assignment.reason? v = some r) :
    s.isAlive r = true := by
  obtain ⟨cell, hcell, -⟩ := Option.bind_eq_some_iff.mp hr
  have hi := h.consistent.getElem?_of_cell hcell
  obtain ⟨c, hc, -⟩ := h.explained hi (by rw [Literal.var_make]; exact hr)
  exact isAlive_iff.mpr ⟨c, hc⟩

end Arena.OnBoard

/-! ## What is recorded -/

/-- What names constraints names those that are there, each as often as it should. A constraint that
depends on a restriction of decisions is there only if `restricted` says so. -/
structure SearchState.Recorded (restricted : Bool) (s : SearchState κ) : Prop where
  watchers : ∀ {l w}, w ∈ s.board.watches.watchersOf l → s.arena.isAlive w.constraint = true
  undos : ∀ {v r}, r ∈ s.board.watches.undosOf v → s.arena.isAlive r = true
  reasons : ∀ {v r}, s.assignment.reason? v = some r → s.arena.isAlive r = true
  recycled_nodup : s.arena.recycled.Nodup
  mem_recycled : ∀ r, r ∈ s.arena.recycled ↔
    r.slot < s.arena.slots.size ∧ s.arena.isAlive r = false
  listed_nodup : s.learned.references.toList.Nodup
  mem_listed : ∀ r, r ∈ s.learned.references.toList ↔
    ∃ c, s.arena.get? r = some c ∧ c.metadata.learned = true
  aged : s.learned.references.toList.Pairwise fun r q => ∀ c d, s.arena.get? r = some c →
    s.arena.get? q = some d → c.metadata.age < d.metadata.age
  watched : ∀ {r c}, s.arena.get? r = some c → c.kind.Watches (s.board.watches.numWatchers r)
  noted : ∀ {r c}, s.arena.get? r = some c → c.metadata.restricted = true → restricted = true

/-- A state in order that accounts for every constraint has its records in order. -/
theorem SearchState.Accounted.recorded {restricted : Bool} {s : SearchState κ}
    (h : s.Accounted restricted) (hw : s.WellFormed) : s.Recorded restricted where
  watchers := hw.onBoard.isAlive_of_watcher
  undos := hw.onBoard.isAlive_of_undo
  reasons := hw.onBoard.isAlive_of_reason
  recycled_nodup := hw.tidy.nodup
  mem_recycled r := by
    rw [Arena.isAlive, Option.isSome_eq_false_iff, Option.isNone_iff_eq_none]
    exact ⟨fun hr => ⟨hw.tidy.lt r hr, hw.tidy.dead r hr⟩, fun hr => h.recycles r hr.1 hr.2⟩
  listed_nodup := hw.lists.nodup
  mem_listed r := ⟨hw.lists.learned r, fun hr => hr.elim fun _ hc => h.listed hc.1 hc.2⟩
  aged := h.aged
  watched hc := (hw.onBoard.wellFormed hc).watches (hw.onBoard.watched hc)
  noted := h.noted

/-- Whatever happened to an engine, its arena, its lists and its database agree. -/
theorem Engine.Reachable.records_agree [CustomConstraint κ] {moment : Moment κ} {e : Engine κ}
    (h : Reachable moment e) : e.search.Recorded e.control.restricted :=
  h.orderly.accounted.recorded h.orderly.wellFormed.search

/-- The reason of a literal is recorded. -/
theorem Engine.Reachable.records_agree_of_withPair :
    ∃ e : Engine Empty, Reachable (.searching .deciding) e ∧
      e.search.assignment.reason? 2 = some ⟨0⟩ ∧ e.search.Recorded e.control.restricted := by
  obtain ⟨e, h, -, hreason⟩ := Reachable.of_withPair
  exact ⟨e, h, hreason, Engine.Reachable.records_agree h⟩

end ClauseLearning
