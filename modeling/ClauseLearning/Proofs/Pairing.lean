import ClauseLearning.Proofs.Chronicle

/-!
# What was asked for is answered

As long as constraints ask to be told only of variables that have a value, the undo entries of a
variable are what was asked for since it got the value. So when it loses the value everyone is told
as often as he asked, and what is counted with every notification and taken back with every answer
is the number of notifications whose literals are still true.

* `Chronicle.Balanced.move`, `Chronicle.Numbered.move`: what every move keeps.
* `Chronicle.Course.prudent`: constraints of a prudent kind do so.
* `Chronicle.Course.answered`: what is true after any course of a new search.
-/

namespace ClauseLearning

open Incident SearchState

variable {κ : Type} [CustomConstraint κ]

namespace Chronicle

/-! ## Entries -/

/-- The undo entries are what was asked for and not answered, and what was answered was paired. -/
structure Balanced (c : Chronicle κ) : Prop where
  sized : c.search.board.watches.Sized c.search.assignment.cells.size
  owed : ∀ r v, c.search.board.watches.numUndos v r = (pending r v c.past).length
  held : ∀ r v, ∀ m ∈ pending r v c.past,
    ∃ l, m = some l ∧ l.var = v ∧ c.search.assignment.isSatisfied l = true
  dead : ∀ r, c.search.arena.get? r = none → ∀ v, pending r v c.past = []
  paired : Paired c.past

omit [CustomConstraint κ] in
theorem balanced_make (o : Options) : Balanced (⟨.make o, []⟩ : Chronicle κ) := by
  refine ⟨⟨rfl, rfl⟩, fun r v => ?_, fun _ _ _ hm => absurd hm List.not_mem_nil, fun _ _ _ => rfl,
    trivial⟩
  show Watches.empty.numUndos v r = 0
  simp [Watches.numUndos, Watches.undosOf, Watches.empty]

namespace Balanced

variable {s s' : SearchState κ} {past past' : List (Incident κ)} {r : Reference}
  {asked : List (Nat × Option Literal)}

omit [CustomConstraint κ] in
theorem calm (h : Balanced ⟨s, past⟩) (hc : s.Calm s') : Balanced ⟨s', past⟩ where
  sized := hc.sized h.sized
  owed := fun r v => by
    rw [← h.owed r v]
    simp only [Watches.numUndos, hc.undos v]
  held := fun r v m hm => by
    obtain ⟨l, rfl, hv, hl⟩ := h.held r v m hm
    exact ⟨l, rfl, hv, hc.keeps.satisfied l hl⟩
  dead := fun r hr => h.dead r <| by
    cases hget : s.arena.get? r with
    | none => rfl
    | some d =>
      obtain ⟨m, hm, -⟩ := hc.arena.alive hget
      cases hr.symm.trans hm
  paired := h.paired

omit [CustomConstraint κ] in
/-- A constraint asks for something, while nothing else happens that matters to the entries. -/
theorem asking (h : Balanced ⟨s, past⟩) (hreg : Board.Registers r asked s.board s'.board)
    (hpending : ∀ q v, pending q v past' = pending q v past) (hpaired : Paired past')
    (hdead : ∀ q, s'.arena.get? q = none → s.arena.get? q = none ∧ q ≠ r)
    (hprudent : ∀ v, (v, none) ∉ asked) : Balanced ⟨s', Incident.asking r asked past'⟩ where
  sized := hreg.sized h.sized
  owed := fun q v => by
    rw [length_pending_asking, hpending, ← h.owed q v]
    exact hreg.numUndos h.sized hprudent v q
  held := fun q v m hm => by
    rcases mem_pending_asking hm with ⟨-, hmem⟩ | hm
    · cases m with
      | none => exact absurd hmem (hprudent v)
      | some l => exact ⟨l, rfl, hreg.known v l hmem⟩
    · rw [hpending] at hm
      obtain ⟨l, rfl, hv, hl⟩ := h.held q v m hm
      exact ⟨l, rfl, hv, hreg.keeps.satisfied l hl⟩
  dead := fun q hq v => by
    obtain ⟨hget, hne⟩ := hdead q hq
    apply List.eq_nil_of_length_eq_zero
    rw [length_pending_asking, hpending, h.dead q hget, if_neg hne]
    rfl
  paired := paired_asking.mpr hpaired

theorem attached (h : Balanced ⟨s, past⟩) (ht : s.arena.Tidy) (c : Constraint κ)
    (hprudent : ∀ v, (v, none) ∉ c.registeredAtAttach (s.attach c).1 s.board) :
    Balanced ⟨(s.attach c).2.2, Incident.asking (s.attach c).1
      (c.registeredAtAttach (s.attach c).1 s.board) (.attached (s.attach c).1 c.kind :: past)⟩ := by
  have ha := attaches ht c
  refine h.asking ha.registers (fun q v => ?_) h.paired (fun q hq => ?_) hprudent
  · rw [pending]
    split
    · rename_i hr
      exact (h.dead q (hr ▸ ha.dead) v).symm
    · rfl
  · rw [ha.get?] at hq
    split at hq
    · cases hq
    · rename_i hne
      exact ⟨hq, hne⟩

theorem notified (h : Balanced ⟨s, past⟩) {p : Literal} {n : Nat} {ok : Bool} {c : Constraint κ}
    (hc : s.arena.get? r = some c) (hrun : visit p r n s = .ok (ok, s'))
    (hprudent : ∀ v, (v, none) ∉ c.registeredAtPropagate r p s.board) :
    Balanced ⟨s', Incident.asking r (c.registeredAtPropagate r p s.board)
      (.notified r p :: past)⟩ := by
  have hn := notifies hc hrun
  obtain ⟨m, -, hget⟩ := hn.get?
  refine h.asking hn.registers (fun q v => rfl) h.paired (fun q hq => ?_) hprudent
  rw [hget] at hq
  split at hq
  · cases hq
  · rename_i hne
    exact ⟨hq, hne⟩

theorem unassigned {a : Assignment} {w : Watches} {arena arena' : Arena κ}
    {learned : LearnedDatabase} {order order' : DecisionOrder Generator} {head : Nat} {l : Literal}
    (h : Balanced ⟨⟨⟨a, w⟩, arena, learned, order, head⟩, past⟩) (htrue : a.isSatisfied l = true)
    (hrun : undoAll l (w.undosOf l.var) arena = .ok arena') :
    Balanced ⟨⟨⟨a.unassign l, (w.takeUndos l.var).2⟩, arena', learned, order', head⟩,
      .unassigned l (w.undosOf l.var) :: past⟩ := by
  have hr := recounts hrun
  have howed : ∀ r v, w.numUndos v r = (pending r v past).length := h.owed
  refine ⟨?_, fun r v => ?_, fun r v m hm => ?_, fun r hdead v => ?_, fun r => ⟨howed r l.var, ?_⟩,
    h.paired⟩
  · show (w.takeUndos l.var).2.Sized (a.unassign l).cells.size
    rw [Assignment.unassign, Array.size_setIfInBounds]
    exact Watches.Sized.takeUndos h.sized l.var
  · show (w.takeUndos l.var).2.numUndos v r = _
    rw [Watches.numUndos_takeUndos, pending]
    split
    · rfl
    · exact howed r v
  · rw [pending] at hm
    split at hm
    · exact absurd hm List.not_mem_nil
    · rename_i hne
      obtain ⟨k, rfl, rfl, hk⟩ := h.held r v m hm
      refine ⟨k, rfl, rfl, ?_⟩
      show (a.unassign l).isSatisfied k = true
      rw [Assignment.isSatisfied, Assignment.cell?_unassign_of_ne a hne]
      exact hk
  · rw [pending]
    split
    · rfl
    · refine h.dead r ?_ v
      show arena.get? r = none
      cases hget : arena.get? r with
      | none => rfl
      | some d =>
        obtain ⟨d', hd', -⟩ := hr.alive r d hget
        cases hdead.symm.trans hd'
  · intro m hm
    obtain ⟨k, rfl, hv, hk⟩ := h.held r l.var m hm
    exact congrArg some (Assignment.eq_of_isSatisfied hk htrue hv)

omit [CustomConstraint κ] in
theorem dropped (h : Balanced ⟨s, past⟩) (rs : List Reference) :
    Balanced ⟨s.delete rs, .dropped rs :: past⟩ := by
  have hassignment : (s.delete rs).assignment = s.assignment := assignment_delete s rs
  have hdead : ∀ q, (s.delete rs).arena.get? q = none → ∀ v,
      pending q v (.dropped rs :: past) = [] := by
    intro q hq v
    rw [pending]
    rw [get?_delete] at hq
    split
    · rfl
    · rename_i hmem
      rw [if_neg hmem] at hq
      exact h.dead q hq v
  refine ⟨?_, fun q v => ?_, fun q v m hm => ?_, hdead, h.paired⟩
  · show (s.delete rs).board.watches.Sized (s.delete rs).assignment.cells.size
    rw [hassignment]
    obtain ⟨⟨a, w⟩, arena, learned, order, head⟩ := s
    simp only [delete]
    split
    · exact h.sized
    · exact Watches.Sized.purge h.sized _
  · show (s.delete rs).board.watches.numUndos v q = _
    rw [numUndos_delete fun hq => by rw [h.owed q v, h.dead q hq v]; rfl, pending]
    split
    · rfl
    · exact h.owed q v
  · rw [pending] at hm
    split at hm
    · exact absurd hm List.not_mem_nil
    · obtain ⟨l, rfl, hv, hl⟩ := h.held q v m hm
      exact ⟨l, rfl, hv, by rw [hassignment]; exact hl⟩

omit [CustomConstraint κ] in
theorem cleared (h : Balanced ⟨s, past⟩) : Balanced ⟨s.clear, .cleared :: past⟩ := by
  obtain ⟨⟨a, w⟩, arena, learned, order, head⟩ := s
  have hsized : w.Sized a.cells.size := h.sized
  refine ⟨?_, fun r v => ?_, fun _ _ _ hm => absurd hm List.not_mem_nil, fun _ _ _ => rfl, h.paired⟩
  · show w.clear.Sized a.clear.cells.size
    rw [Assignment.clear, Array.size_replicate]
    exact hsized.clear
  · show w.clear.numUndos v r = 0
    rw [Watches.numUndos, Watches.undosOf_clear, List.count_nil]

/-- Every move keeps the balance, if it asks only to be told of variables that have a value. -/
theorem move {c c' : Chronicle κ} (h : c.Balanced) (hm : Move c c') (hprudent : Prudent c'.past) :
    c'.Balanced := by
  cases hm with
  | calm hcalm => exact h.calm hcalm
  | attached ht _ => exact h.attached ht _ hprudent.of_asking.2
  | notified _ hc hrun => exact h.notified hc hrun hprudent.of_asking.2
  | unassigned _ htrue hrun => exact h.unassigned htrue hrun
  | dropped rs => exact h.dropped rs
  | cleared => exact h.cleared

end Balanced

/-! ## Counters -/

/-- A constraint that was `k` when it was attached is `k'` now: if it counts, it counted every
notification whose literal is still true, and asked to be told once for each. -/
structure Numbers (count : κ → Option Nat) (past : List (Incident κ)) (r : Reference)
    (k k' : Kind κ) : Prop where
  untold : k.falsified = 0
  counter : k'.counter count = (k.counter count).map (· + (standing r past).length)
  pending : (k.counter count).isSome = true → ∀ v,
    (pending r v past).length = (standing r past).countP fun p => decide (p.var = v)

/-- Every constraint that counts counted the notifications whose literals are still true. -/
structure Numbered (count : κ → Option Nat) (c : Chronicle κ) : Prop where
  standing : ∀ r, ∀ p ∈ standing r c.past, c.search.assignment.isSatisfied p = true
  numbers : ∀ r d, c.search.arena.get? r = some d →
    ∃ k, origin r c.past = some k ∧ Numbers count c.past r k d.kind

variable {count : κ → Option Nat}

omit [CustomConstraint κ] in
theorem numbered_make (o : Options) : Numbered count (⟨.make o, []⟩ : Chronicle κ) := by
  refine ⟨fun _ _ hm => absurd hm List.not_mem_nil, fun r d hd => ?_⟩
  simp [SearchState.make, Arena.get?, Arena.empty] at hd

omit [CustomConstraint κ] in
/-- What matters to the counter of a constraint is what happened to it. -/
theorem Numbers.congr {past past' : List (Incident κ)} {r : Reference} {k k' : Kind κ}
    (h : Numbers count past r k k')
    (hstanding : Incident.standing r past' = Incident.standing r past)
    (hpending : ∀ v, (Incident.pending r v past').length = (Incident.pending r v past).length) :
    Numbers count past' r k k' where
  untold := h.untold
  counter := by rw [hstanding, h.counter]
  pending := fun hk v => by rw [hpending, hstanding, h.pending hk v]

omit [CustomConstraint κ] in
/-- What stood for the literal that lost its value is taken back. -/
theorem Numbers.unassigned {past : List (Incident κ)} {r : Reference} {k k' k'' : Kind κ}
    (h : Numbers count past r k k') {l : Literal} {told : List Reference}
    (htold : told.count r = (Incident.pending r l.var past).length)
    (hcounter : k''.counter count = (k'.counter count).map (· - told.count r)) :
    Numbers count (.unassigned l told :: past) r k k'' where
  untold := h.untold
  counter := by
    rw [hcounter, h.counter, Incident.standing]
    cases hk : k.counter count with
    | none => rfl
    | some n =>
      have hpending := h.pending (by rw [hk]; rfl) l.var
      have hsplit : ((Incident.standing r past).filter fun p => decide (p.var ≠ l.var)).length +
          (Incident.standing r past).countP (fun p => decide (p.var = l.var)) =
          (Incident.standing r past).length := by
        rw [← List.countP_eq_length_filter, Nat.add_comm,
          List.length_eq_countP_add_countP fun p : Literal => decide (p.var = l.var)]
        simp only [decide_not, Bool.not_eq_true, decide_eq_false_iff_not]
      simp only [Option.map_some, Option.some.injEq]
      omega
  pending := fun hsome v => by
    rw [Incident.pending, Incident.standing, List.countP_filter]
    split
    · rename_i hv
      subst hv
      simp
    · rename_i hv
      rw [h.pending hsome v]
      refine List.countP_congr fun p _ => ?_
      simp only [decide_eq_true_eq, ne_eq, decide_not, Bool.and_eq_true, Bool.not_eq_true',
        decide_eq_false_iff_not, iff_self_and]
      rintro rfl heq
      exact hv heq.symm

namespace Numbered

variable {s s' : SearchState κ} {past past' : List (Incident κ)} {r : Reference}

omit [CustomConstraint κ] in
theorem calm (h : Numbered count ⟨s, past⟩) (hc : s.Calm s') : Numbered count ⟨s', past⟩ where
  standing := fun r p hp => hc.keeps.satisfied p (h.standing r p hp)
  numbers := fun r d hd => by
    obtain ⟨d', hd', hkind, -⟩ := hc.arena.of_alive hd
    obtain ⟨k, hk, hn⟩ := h.numbers r d' hd'
    exact ⟨k, hk, hkind ▸ hn⟩

theorem attached (h : Numbered count ⟨s, past⟩) (hcount : CustomConstraint.Counts count)
    (ht : s.arena.Tidy) {c : Constraint κ} (hc : c.kind.falsified = 0) :
    Numbered count ⟨(s.attach c).2.2, Incident.asking (s.attach c).1
      (c.registeredAtAttach (s.attach c).1 s.board) (.attached (s.attach c).1 c.kind :: past)⟩ := by
  have ha := attaches ht c
  refine ⟨fun q p hp => ?_, fun q d hd => ?_⟩
  · rw [standing_asking, Incident.standing] at hp
    split at hp
    · exact absurd hp List.not_mem_nil
    · exact ha.registers.keeps.satisfied p (h.standing q p hp)
  · rw [ha.get?] at hd
    rw [origin_asking, origin]
    by_cases hq : q = (s.attach c).1
    · rw [if_pos hq, Option.some.injEq] at hd
      subst hq hd
      refine ⟨c.kind, if_pos rfl, hc, ?_, fun hk v => ?_⟩
      · rw [hcount.counter_attach, standing_asking, Incident.standing, if_pos rfl]
        cases c.kind.counter count <;> rfl
      · rw [hcount.registeredAtAttach_eq _ _ _ hk]
        show (Incident.pending _ v (.attached _ c.kind :: past)).length =
          (Incident.standing _ (.attached _ c.kind :: past)).countP _
        rw [Incident.pending, Incident.standing, if_pos rfl, if_pos rfl]
        rfl
    · rw [if_neg hq] at hd
      rw [if_neg fun heq => hq heq.symm]
      obtain ⟨k, hk, hn⟩ := h.numbers q d hd
      refine ⟨k, hk, hn.congr ?_ fun v => ?_⟩
      · rw [standing_asking, Incident.standing, if_neg fun heq => hq heq.symm]
      · rw [length_pending_asking, if_neg hq, Incident.pending, if_neg fun heq => hq heq.symm,
          Nat.add_zero]

theorem notified (h : Numbered count ⟨s, past⟩) (hcount : CustomConstraint.Counts count)
    {p : Literal} {n : Nat} {ok : Bool} {c : Constraint κ} (hp : s.assignment.isSatisfied p = true)
    (hc : s.arena.get? r = some c) (hrun : visit p r n s = .ok (ok, s')) :
    Numbered count ⟨s', Incident.asking r (c.registeredAtPropagate r p s.board)
      (.notified r p :: past)⟩ := by
  have hn := notifies hc hrun
  obtain ⟨m, -, hget⟩ := hn.get?
  refine ⟨fun q x hx => ?_, fun q d hd => ?_⟩
  · apply hn.registers.keeps.satisfied
    rw [standing_asking, Incident.standing] at hx
    split at hx
    · rcases List.mem_cons.mp hx with rfl | hx
      · exact hp
      · exact h.standing q x hx
    · exact h.standing q x hx
  · rw [hget] at hd
    rw [origin_asking, origin]
    by_cases hq : q = r
    · rw [if_pos hq, Option.some.injEq] at hd
      subst hq hd
      obtain ⟨k, hk, hnum⟩ := h.numbers q c hc
      refine ⟨k, hk, hnum.untold, ?_, fun hsome v => ?_⟩
      · show (c.propagate q p s.board).2.1.kind.counter count = _
        rw [hcount.counter_propagate, hnum.counter, standing_asking, Incident.standing, if_pos rfl]
        cases k.counter count <;> rfl
      · have hasked := hcount.registeredAtPropagate_eq q p c s.board <| by
          rw [hnum.counter, Option.isSome_map]
          exact hsome
        rw [length_pending_asking, if_pos rfl, hasked, Incident.pending, hnum.pending hsome v,
          standing_asking, Incident.standing, if_pos rfl, List.countP_cons, List.count_singleton]
        simp
    · rw [if_neg hq] at hd
      obtain ⟨k, hk, hnum⟩ := h.numbers q d hd
      refine ⟨k, hk, hnum.congr ?_ fun v => ?_⟩
      · rw [standing_asking, Incident.standing, if_neg fun heq => hq heq.symm]
      · rw [length_pending_asking, if_neg hq, Incident.pending, Nat.add_zero]

theorem unassigned {a : Assignment} {w : Watches} {arena arena' : Arena κ}
    {learned : LearnedDatabase} {order order' : DecisionOrder Generator} {head : Nat} {l : Literal}
    (h : Numbered count ⟨⟨⟨a, w⟩, arena, learned, order, head⟩, past⟩)
    (hcount : CustomConstraint.Counts count)
    (hbalance : Balanced ⟨⟨⟨a, w⟩, arena, learned, order, head⟩, past⟩)
    (hrun : undoAll l (w.undosOf l.var) arena = .ok arena') :
    Numbered count ⟨⟨⟨a.unassign l, (w.takeUndos l.var).2⟩, arena', learned, order', head⟩,
      .unassigned l (w.undosOf l.var) :: past⟩ := by
  have hr := recounts hrun
  refine ⟨fun r p hp => ?_, fun r d' hd' => ?_⟩
  · obtain ⟨hp, hne⟩ := List.mem_filter.mp hp
    show (a.unassign l).isSatisfied p = true
    rw [Assignment.isSatisfied, Assignment.cell?_unassign_of_ne a fun heq =>
      of_decide_eq_true hne heq.symm]
    exact h.standing r p hp
  · have hd' : arena'.get? r = some d' := hd'
    cases hget : arena.get? r with
    | none =>
      rw [hr.dead r hget] at hd'
      cases hd'
    | some d =>
      obtain ⟨d'', hd'', -, hcounter⟩ := hr.alive r d hget
      rw [hd'] at hd''
      cases hd''
      obtain ⟨k, hk, hnum⟩ := h.numbers r d hget
      exact ⟨k, hk, hnum.unassigned (hbalance.owed r l.var) (hcounter count hcount)⟩

omit [CustomConstraint κ] in
theorem dropped (h : Numbered count ⟨s, past⟩) (rs : List Reference) :
    Numbered count ⟨s.delete rs, .dropped rs :: past⟩ := by
  refine ⟨fun q p hp => ?_, fun q d hd => ?_⟩
  · rw [Incident.standing] at hp
    split at hp
    · exact absurd hp List.not_mem_nil
    · show (s.delete rs).assignment.isSatisfied p = true
      rw [assignment_delete]
      exact h.standing q p hp
  · rw [get?_delete] at hd
    split at hd
    · cases hd
    · rename_i hmem
      obtain ⟨k, hk, hnum⟩ := h.numbers q d hd
      refine ⟨k, by rw [origin, if_neg hmem, hk], hnum.congr ?_ fun v => ?_⟩
      · rw [Incident.standing, if_neg hmem]
      · rw [Incident.pending, if_neg hmem]

omit [CustomConstraint κ] in
theorem cleared (s : SearchState κ) (past : List (Incident κ)) :
    Numbered count ⟨s.clear, .cleared :: past⟩ := by
  obtain ⟨⟨a, w⟩, arena, learned, order, head⟩ := s
  refine ⟨fun _ _ hm => absurd hm List.not_mem_nil, fun r d hd => ?_⟩
  simp [SearchState.clear, Arena.get?, Arena.empty] at hd

/-- Every move keeps the counters right, in a balanced chronicle. -/
theorem move {c c' : Chronicle κ} (h : c.Numbered count) (hcount : CustomConstraint.Counts count)
    (hbalance : c.Balanced) (hm : Move c c') : c'.Numbered count := by
  cases hm with
  | calm hcalm => exact h.calm hcalm
  | attached ht hc => exact h.attached hcount ht hc
  | notified hp hc hrun => exact h.notified hcount hp hc hrun
  | unassigned _ _ hrun => exact h.unassigned hcount hbalance hrun
  | dropped rs => exact h.dropped rs
  | cleared => exact cleared _ _

end Numbered

/-! ## Courses -/

/-- What being asked and telling come to. -/
structure Answered (c : Chronicle κ) : Prop where
  paired : Paired c.past
  /-- When the newest literal loses its value, whoever is told can take that back. -/
  answers : ∀ l, c.search.assignment.newest? = some l →
    ∃ arena, undoAll l (c.search.board.watches.undosOf l.var) c.search.arena = .ok arena
  standing : ∀ r, ∀ p ∈ standing r c.past, c.search.assignment.isSatisfied p = true
  /-- A counter is at the number of the notifications that stand, more than where it began. No
  variable makes it count down further. -/
  counted : ∀ count, CustomConstraint.Counts count → ∀ r d, c.search.arena.get? r = some d →
    ∃ k, origin r c.past = some k ∧
      d.kind.counter count = (k.counter count).map (· + (Incident.standing r c.past).length) ∧
      ((k.counter count).isSome = true → ∀ v,
        (c.search.board.watches.undosOf v).count r ≤ (Incident.standing r c.past).length)
  /-- Cardinality constraints begin at zero. -/
  cardinality : ∀ r k m, c.search.arena.get? r = some ⟨.cardinality k, m⟩ →
    k.falsified = (Incident.standing r c.past).length

/-- Whoever is told counted at least as often as he is told. -/
theorem Balanced.answered {c : Chronicle κ} (h : c.Balanced)
    (hnumbered : ∀ count, CustomConstraint.Counts count → c.Numbered count) : c.Answered := by
  have hnone := hnumbered (fun _ => none) CustomConstraint.Counts.none
  have hle : ∀ {count : κ → Option Nat} {k k' : Kind κ} {r : Reference} (v : Nat),
      Numbers count c.past r k k' → (k.counter count).isSome = true →
      (c.search.board.watches.undosOf v).count r ≤ (Incident.standing r c.past).length := by
    intro count k k' r v hn hsome
    have howed : (c.search.board.watches.undosOf v).count r =
        (Incident.pending r v c.past).length :=
      h.owed r v
    rw [howed, hn.pending hsome v]
    exact List.countP_le_length
  refine ⟨h.paired, fun l _ => ?_, hnone.standing, fun count hcount r d hd => ?_,
    fun r k m hk => ?_⟩
  · refine exists_undoAll CustomConstraint.Counts.none l fun r hr => ?_
    cases hget : c.search.arena.get? r with
    | none =>
      have howed : (c.search.board.watches.undosOf l.var).count r = _ := h.owed r l.var
      rw [h.dead r hget l.var] at howed
      exact absurd (List.count_pos_iff.mpr hr) (by rw [howed]; exact Nat.lt_irrefl 0)
    | some d =>
      refine ⟨d, rfl, fun n hn => ?_⟩
      obtain ⟨k, -, hnum⟩ := hnone.numbers r d hget
      rw [hnum.counter] at hn
      obtain ⟨m, hm, rfl⟩ := Option.map_eq_some_iff.mp hn
      exact Nat.le_add_left_of_le (hle l.var hnum (by rw [hm]; rfl))
  · obtain ⟨k, hk, hnum⟩ := (hnumbered count hcount).numbers r d hd
    exact ⟨k, hk, hnum.counter, fun hsome v => hle v hnum hsome⟩
  · obtain ⟨k₀, -, hnum⟩ := hnone.numbers r _ hk
    have hcounter := hnum.counter
    cases k₀ with
    | cardinality k₀ =>
      have huntold : k₀.falsified = 0 := hnum.untold
      have hcounter : k.falsified = k₀.falsified + (Incident.standing r c.past).length :=
        Option.some.inj hcounter
      omega
    | _ => cases hcounter

/-- What was asked for before is asked for. -/
theorem Move.prudent {c c' : Chronicle κ} (hm : Move c c') (h : Prudent c'.past) :
    Prudent c.past := by
  cases hm with
  | calm _ => exact h
  | attached _ _ => exact h.of_asking.1.of_cons
  | notified _ _ _ => exact h.of_asking.1.of_cons
  | unassigned _ _ _ => exact h.of_cons
  | dropped _ => exact h.of_cons
  | cleared => exact h.of_cons

/-- Prudent constraints ask for nothing else in a course. -/
theorem Course.prudent (h : CustomConstraint.Prudent κ) {o : Options} {c : Chronicle κ}
    (hcourse : Course ⟨.make o, []⟩ c) : Prudent c.past := by
  induction hcourse with
  | refl => exact fun _ _ => List.not_mem_nil
  | tail _ hm ih =>
    cases hm with
    | calm _ => exact ih
    | attached _ _ =>
      exact Prudent.asking (Prudent.cons ih nofun) fun v => Constraint.prudent_attach h _ _ _ v
    | notified hp _ _ =>
      exact Prudent.asking (Prudent.cons ih nofun) fun v =>
        Constraint.prudent_propagate h _ _ _ v hp
    | unassigned _ _ _ => exact Prudent.cons ih nofun
    | dropped _ => exact Prudent.cons ih nofun
    | cleared => exact Prudent.cons ih nofun

/-- From a new search on everything that is asked for is answered. -/
theorem Course.answered {o : Options} {c : Chronicle κ} (h : Course ⟨.make o, []⟩ c)
    (hprudent : Prudent c.past) : c.Answered := by
  have hboth : c.Balanced ∧ ∀ count, CustomConstraint.Counts count → c.Numbered count := by
    induction h with
    | refl => exact ⟨balanced_make o, fun _ _ => numbered_make o⟩
    | tail _ hm ih =>
      obtain ⟨hbalance, hnumbered⟩ := ih (hm.prudent hprudent)
      exact ⟨hbalance.move hm hprudent,
        fun count hcount => (hnumbered count hcount).move hcount hbalance hm⟩
  exact hboth.1.answered hboth.2

end Chronicle

end ClauseLearning
