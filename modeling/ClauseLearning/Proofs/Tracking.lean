import ClauseLearning.Proofs.Heeding
import ClauseLearning.Proofs.Reduced

/-!
# How far the trail was propagated

Whether going back needs no watch repair depends on the past: on how many of the literals that are
left had been propagated to a fixpoint without conflict. So an engine is tracked with that number,
which no operation looks at (`Engine.Tracked`), and with whether every variable could be decided
since the open levels were opened. Forgetting both gives the reachable engines
(`Engine.Reachable.tracked`, `Engine.Tracked.reachable`).

A propagation that meets no conflict is the only thing that makes the number larger, and only if it
began within. What an addition that is withdrawn propagated does not count, since what followed from
it goes as well.

* `Engine.Tracked.minds`: everything before the number is heeded.
* `Engine.Tracked.backtrack_quiet`: where a level ends that was propagated, nothing has to be done.
-/

namespace ClauseLearning

variable {κ : Type}

/-- The literals of the first levels are those at the front of the trail. -/
theorem Assignment.filter_levelOf {a : Assignment} (hcon : a.Consistent) (hl : a.Layered)
    (level : Nat) :
    a.trues.filter (fun p => decide (a.levelOf p.var ≤ level)) =
      a.trues.take (a.startOfLevel (level + 1)) := by
  have hiff : ∀ {i p}, a.trues[i]? = some p →
      (i < a.startOfLevel (level + 1) ↔ a.levelOf p.var ≤ level) := by
    intro i p hi
    have hlt : i < a.trail.size := by
      rw [size_trail]
      exact (List.getElem?_eq_some_iff.mp hi).1
    rw [hcon.levelOf_eq hi]
    exact lt_startOfLevel_iff hl.sorted hlt
  have hfront : (a.trues.take (a.startOfLevel (level + 1))).filter
      (fun p => decide (a.levelOf p.var ≤ level)) = a.trues.take (a.startOfLevel (level + 1)) := by
    rw [List.filter_eq_self]
    intro p hp
    obtain ⟨i, hi, hget⟩ := mem_take_iff.mp hp
    exact decide_eq_true ((hiff hget).mp hi)
  have hback : (a.trues.drop (a.startOfLevel (level + 1))).filter
      (fun p => decide (a.levelOf p.var ≤ level)) = [] := by
    rw [List.filter_eq_nil_iff]
    intro p hp hle
    obtain ⟨i, hi⟩ := List.mem_iff_getElem?.mp hp
    rw [List.getElem?_drop] at hi
    have := (hiff hi).mpr (of_decide_eq_true hle)
    omega
  conv_lhs => rw [← List.take_append_drop (a.startOfLevel (level + 1)) a.trues]
  rw [List.filter_append, hfront, hback, List.append_nil]

namespace SearchState

/-- Nothing is left to do for any constraint: what a cardinality constraint counted is what is
false, a clause or a parity constraint that watches for something that happened is satisfied, and
nothing is violated or forced. -/
structure Quiet (s : SearchState κ) : Prop where
  counted : ∀ {r c k}, s.arena.get? r = some c → c.kind = .cardinality k →
    k.falsified = numFalse s.assignment.trues k.literals
  /-- The clause watches the negation of `p`, which is false. -/
  clauses : ∀ {r c k p}, s.arena.get? r = some c → c.kind = .clause k →
    s.board.watches.numWatchers r p ≠ 0 → p ∈ s.assignment.trues →
    ∃ l ∈ k.literals, l ∈ s.assignment.trues
  /-- The constraint watches the variable of `p`, which has a value. -/
  parities : ∀ {r c k p}, s.arena.get? r = some c → c.kind = .parity k →
    s.board.watches.numWatchers r p ≠ 0 → p ∈ s.assignment.trues →
    (∀ v ∈ k.vars, v ∈ s.assignment.trues.map Literal.var) ∧ k.IsRight s.assignment.trues
  unviolated : ¬ s.arena.Clashes s.assignment.trues
  exhausted : s.arena.Exhausted s.assignment.trues

theorem Propagated.quiet {s : SearchState κ} (hp : s.Propagated) (hw : s.WellFormed)
    (hhead : s.head = s.assignment.trues.length) : s.Quiet := by
  have hset : ∀ {r c}, s.arena.get? r = some c →
      c.kind.Settled s.assignment.trues s.assignment.trues
        (fun v => s.board.watches.numUndos v r) := fun {r c} hc => by
    have hsettled := (hp r c hc).1
    rwa [hhead, List.take_length] at hsettled
  have hwatched : ∀ {r c p}, s.arena.get? r = some c → s.board.watches.numWatchers r p ≠ 0 →
      p ∈ c.kind.watched := fun hc hn =>
    List.count_pos_iff.mp (Nat.pos_of_ne_zero (hw.onBoard.watched hc _ ▸ hn))
  obtain ⟨hno, hex⟩ := hp.closed hw hhead
  refine ⟨fun {r c k} hc hk => ?_, fun {r c k p} hc hk hn hmem => ?_,
    fun {r c k p} hc hk hn hmem => ?_, hno, hex⟩
  · have hsettled := hset hc
    have hcounted := hw.onBoard.counted hc
    rw [hk] at hsettled hcounted
    rw [← show (s.board.watches.notified r).length = k.falsified from hcounted]
    refine Watches.length_notified_eq hw.onBoard.consistent.functional hsettled.1 fun v hv => ?_
    refine hw.onBoard.numUndos_eq_zero (fun hmem => hv ?_) r
    obtain ⟨x, hx, hxv⟩ := List.mem_map.mp hmem
    exact List.mem_map.mpr ⟨x, List.mem_of_mem_take hx, hxv⟩
  · have hsettled := hset hc
    have hp := hwatched hc hn
    rw [hk] at hsettled hp
    rcases List.mem_pair.mp hp with rfl | rfl
    · exact hsettled k.first (List.mem_cons_self ..) hmem
    · exact hsettled k.second (List.mem_cons_of_mem _ (List.mem_singleton_self _)) hmem
  · have hsettled := hset hc
    have hp := hwatched hc hn
    rw [hk] at hsettled hp
    have hvar : p.var ∈ [k.first, k.second] := by
      simp only [Kind.watched, List.mem_cons, List.not_mem_nil, or_false] at hp
      rcases hp with rfl | rfl | rfl | rfl <;> simp
    exact hsettled p.var hvar (List.mem_map_of_mem hmem)

end SearchState

namespace Engine

variable [CustomConstraint κ]

/-! ## Operations -/

/-- One operation of an engine, other than those that matter to how far its trail was propagated. -/
inductive Operates : Moment κ → Engine κ → Moment κ → Engine κ → Prop
  | noted {moment : Moment κ} {e : Engine κ} {control : Control}
      (hc : e.control.Continues control) (hrestricted : control.restricted = e.control.restricted) :
      Operates moment e moment ⟨e.search, e.analyser, control⟩
  | rested {moment : Moment κ} {e : Engine κ} : Operates moment e .resting e
  | rewound {moment : Moment κ} {level : Nat} {e e' : Engine κ}
      (hrun : e.backtrack level = .ok e') : Operates moment e .resting e'
  | grown {e : Engine κ} (n : Nat) : Operates .resting e .resting (e.grow n)
  | modelled {e : Engine κ} : Operates .resting e .resting e.model.2
  | cleared {e : Engine κ} : Operates .resting e .resting e.clear
  | begun {e : Engine κ} (hroot : e.search.decisionLevel = 0) :
      Operates .resting e (.adding e.search []) e
  | widened {start : SearchState κ} {rs : List Reference} {e : Engine κ} (n : Nat) :
      Operates (.adding start rs) e (.adding start rs) (e.grow n)
  | asserted {start : SearchState κ} {rs : List Reference} {e : Engine κ} {l : Literal}
      (hk : l.Known e.search.assignment.cells.size) :
      Operates (.adding start rs) e (.adding start rs) (e.modifySearch fun s => (s.enqueue l).2)
  | attached {start : SearchState κ} {rs : List Reference} {e : Engine κ} {d : Description κ}
      {k : Kind κ} (hd : d.Known e.search.assignment.cells.size)
      (hk : d.normalise e.search.assignment = .constraint k) (handle : Nat) :
      Operates (.adding start rs) e
        (.adding start (rs ++ [(e.search.attach ⟨k, .ofHandle handle⟩).1]))
        (e.modifySearch fun s => (s.attach ⟨k, .ofHandle handle⟩).2.2)
  | refused {rs : List Reference} {e : Engine κ} :
      Operates (.refusing rs) e .resting (e.modifySearch (·.delete rs))
  | forgot {moment : Moment κ} {e : Engine κ} {s : SearchState κ}
      (hrun : e.search.forgetReasons = .ok s) :
      Operates moment e .removing ⟨s, e.analyser, e.control⟩
  | deleted {e : Engine κ} (rs : List Reference) (hrs : rs.Nodup)
      (halive : ∀ r ∈ rs, ∃ c, e.search.arena.get? r = some c) :
      Operates .removing e .resting (e.modifySearch (·.delete rs))
  | counted {r : Reference} {e : Engine κ} :
      Operates (.searching (.conflict r)) e (.searching (.conflict r)) e.countConflict
  | lowered {r : Reference} {c : Constraint κ} {e e' : Engine κ}
      (hc : e.search.arena.get? r = some c)
      (hrun : e.backtrack
        (highestLevel e.search.assignment (c.reason e.search.assignment none)) = .ok e') :
      Operates (.searching (.conflict r)) e (.analysing r) e'
  | taught {r : Reference} {e : Engine κ} {lesson : Lesson κ}
      (hrun : e.analyser.analyse r e.search.assignment e.search.order e.search.learned
        e.search.arena = .ok lesson) :
      Operates (.analysing r) e .resting ⟨e.search.taught lesson, lesson.analyser, e.control⟩
  | resolved {r : Reference} {e e' : Engine κ} (hrun : e.resolveConflict r = .ok (true, e')) :
      Operates (.searching (.conflict r)) e (.searching .propagating) e'
  | simplified {e e' : Engine κ} (hrun : e.simplifyIfDue = .ok e') :
      Operates (.searching .deciding) e (.searching .deciding) e'
  | reduced {e e' : Engine κ} (hrun : e.reduceIfDue = .ok e') :
      Operates (.searching .deciding) e (.searching .deciding) e'
  | restarted {e e' : Engine κ} (hrun : e.restartIfDue = .ok e') :
      Operates (.searching .deciding) e (.searching .deciding) e'
  | opened {e : Engine κ} :
      Operates (.searching .deciding) e .resting (e.modifySearch (·.openLevel))
  | assumed {e : Engine κ} {l : Literal}
      (hnext : e.control.assumptions[e.search.decisionLevel]? = some l)
      (htrue : e.search.assignment.isSatisfied l = true) :
      Operates (.searching .deciding) e (.searching .deciding) (e.modifySearch (·.openLevel))
  | decided {e : Engine κ} {l : Literal}
      (hnext : e.control.assumptions[e.search.decisionLevel]? = some l)
      (hfree : e.search.assignment.isUnassigned l = true) :
      Operates (.searching .deciding) e (.searching .propagating) (e.decideOn l)
  | chosen {e e' : Engine κ} (hmade : e.control.assumptions.length ≤ e.search.decisionLevel)
      (hrun : e.decideVariable = .ok (none, e')) :
      Operates (.searching .deciding) e (.searching .propagating) e'
  | concluded {e e' : Engine κ} {outcome : Outcome}
      (hmade : e.control.assumptions.length ≤ e.search.decisionLevel)
      (hrun : e.decideVariable = .ok (some outcome, e')) :
      Operates (.searching .deciding) e .resting e'
  | failed {e e' : Engine κ} {l : Literal} {outcome : Outcome}
      (hnext : e.control.assumptions[e.search.decisionLevel]? = some l)
      (hfalse : e.search.assignment.isFalsified l = true)
      (hrun : e.failAssumption l = .ok (outcome, e')) :
      Operates (.searching .deciding) e .resting e'

/-- How many of the first literals were propagated without conflict after one more propagation, if
it was `n` before. -/
def extent (n : Nat) (e : Engine κ) (conflict : Option Reference) (e' : Engine κ) : Nat :=
  if conflict = none ∧ e.search.head ≤ n then e'.search.head else n

/-- The engines that operations make of a new one, with what they are in the midst of, whether every
variable could be decided since the open levels were opened, and how many of the first literals were
propagated to a fixpoint without conflict. -/
inductive Tracked : Moment κ → Bool → Nat → Engine κ → Prop
  | make (o : Options) : Tracked .resting true 0 (make o)
  | operated {moment moment' : Moment κ} {free : Bool} {n : Nat} {e e' : Engine κ}
      (h : Tracked moment free n e) (hop : Operates moment e moment' e') :
      Tracked moment' free (min n e'.search.head) e'
  | confined {free : Bool} {n : Nat} {e : Engine κ} (h : Tracked .resting free n e)
      (vs : Option (List Nat)) : Tracked .resting false n (e.restrictDecisions vs)
  | extended {start : SearchState κ} {rs : List Reference} {free : Bool} {n : Nat} {e e' : Engine κ}
      {conflict : Option Reference} (h : Tracked (.adding start rs) free n e)
      (hrun : e.propagate = .ok (conflict, e')) :
      Tracked (.adding start rs) free (extent n e conflict e') e'
  | withdrawn {start : SearchState κ} {rs : List Reference} {free : Bool} {n : Nat} {e : Engine κ}
      {s : SearchState κ} (h : Tracked (.adding start rs) free n e)
      (hrun : e.search.backtrackRoot start.trailLength = .ok s) :
      Tracked (.refusing rs) free (min n start.head) ⟨s, e.analyser, e.control⟩
  | posed {free : Bool} {n : Nat} {e e' : Engine κ} (h : Tracked .resting free n e)
      (hrun : e.backtrack 0 = .ok e') {assumptions : List Literal}
      (hne : ∀ l ∈ assumptions, l.var ≠ 0) :
      Tracked (.searching .propagating) e.search.order.allowed.isNone (min n e'.search.head)
        (e'.posed assumptions)
  | propagated {free : Bool} {n : Nat} {e e' : Engine κ} {conflict : Option Reference}
      (h : Tracked (.searching .propagating) free n e) (hrun : e.propagate = .ok (conflict, e')) :
      Tracked (.searching ((conflict.map Stage.conflict).getD .deciding)) free
        (extent n e conflict e') e'

variable {moment moment' : Moment κ} {free : Bool} {n : Nat} {e e' : Engine κ}

theorem Reachable.operates (h : Reachable moment e) (hop : Operates moment e moment' e') :
    Reachable moment' e' := by
  cases hop with
  | noted hc hrestricted => exact h.noted _ hc hrestricted
  | rested => exact h.rested
  | rewound hrun => exact h.rewound hrun
  | grown n => exact h.grown n
  | modelled => exact h.modelled
  | cleared => exact h.cleared
  | begun hroot => exact h.begun hroot
  | widened n => exact h.widened n
  | asserted hk => exact h.asserted hk
  | attached hd hk handle => exact h.attached hd hk handle
  | refused => exact h.refused
  | forgot hrun => exact h.forgot hrun
  | deleted rs hrs halive => exact h.deleted rs hrs halive
  | counted => exact h.counted
  | lowered hc hrun => exact h.lowered hc hrun
  | taught hrun => exact h.taught hrun
  | resolved hrun => exact h.resolved hrun
  | simplified hrun => exact h.simplified hrun
  | reduced hrun => exact h.reduced hrun
  | restarted hrun => exact h.restarted hrun
  | opened => exact h.opened
  | assumed hnext htrue => exact h.assumed hnext htrue
  | decided hnext hfree => exact h.decided hnext hfree
  | chosen hmade hrun => exact h.chosen hmade hrun
  | concluded hmade hrun => exact h.concluded hmade hrun
  | failed hnext hfalse hrun => exact h.failed hnext hfalse hrun

/-- Tracking an engine does not make it another one. -/
theorem Tracked.reachable (h : Tracked moment free n e) : Reachable moment e := by
  induction h with
  | make o => exact .make o
  | operated _ hop ih => exact ih.operates hop
  | confined _ vs ih => exact ih.confined vs
  | extended _ hrun ih => exact ih.extended hrun
  | withdrawn _ hrun ih => exact ih.withdrawn hrun
  | posed _ hrun hne ih => exact ih.posed hrun hne
  | propagated _ hrun ih => exact ih.propagated hrun

/-- Every engine can be tracked. -/
theorem Reachable.tracked (h : Reachable moment e) : ∃ free n, Tracked moment free n e := by
  have hstep : ∀ {moment moment' : Moment κ} {e e' : Engine κ},
      (∃ free n, Tracked moment free n e) → Operates moment e moment' e' →
        ∃ free n, Tracked moment' free n e' :=
    fun ⟨free, _, h⟩ hop => ⟨free, _, h.operated hop⟩
  induction h with
  | make o => exact ⟨true, 0, .make o⟩
  | noted _ control hc hrestricted ih => exact hstep ih (.noted hc hrestricted)
  | rested _ ih => exact hstep ih .rested
  | rewound _ hrun ih => exact hstep ih (.rewound hrun)
  | grown _ n ih => exact hstep ih (.grown n)
  | modelled _ ih => exact hstep ih .modelled
  | confined _ vs ih =>
    obtain ⟨free, n, ih⟩ := ih
    exact ⟨_, _, ih.confined vs⟩
  | cleared _ ih => exact hstep ih .cleared
  | begun _ hroot ih => exact hstep ih (.begun hroot)
  | widened _ n ih => exact hstep ih (.widened n)
  | asserted _ hk ih => exact hstep ih (.asserted hk)
  | attached _ hd hk handle ih => exact hstep ih (.attached hd hk handle)
  | extended _ hrun ih =>
    obtain ⟨free, n, ih⟩ := ih
    exact ⟨_, _, ih.extended hrun⟩
  | withdrawn _ hrun ih =>
    obtain ⟨free, n, ih⟩ := ih
    exact ⟨_, _, ih.withdrawn hrun⟩
  | refused _ ih => exact hstep ih .refused
  | forgot _ hrun ih => exact hstep ih (.forgot hrun)
  | deleted _ rs hrs halive ih => exact hstep ih (.deleted rs hrs halive)
  | posed _ hrun hne ih =>
    obtain ⟨free, n, ih⟩ := ih
    exact ⟨_, _, ih.posed hrun hne⟩
  | propagated _ hrun ih =>
    obtain ⟨free, n, ih⟩ := ih
    exact ⟨_, _, ih.propagated hrun⟩
  | counted _ ih => exact hstep ih .counted
  | lowered _ hc hrun ih => exact hstep ih (.lowered hc hrun)
  | taught _ hrun ih => exact hstep ih (.taught hrun)
  | resolved _ hrun ih => exact hstep ih (.resolved hrun)
  | simplified _ hrun ih => exact hstep ih (.simplified hrun)
  | reduced _ hrun ih => exact hstep ih (.reduced hrun)
  | restarted _ hrun ih => exact hstep ih (.restarted hrun)
  | opened _ ih => exact hstep ih .opened
  | assumed _ hnext htrue ih => exact hstep ih (.assumed hnext htrue)
  | decided _ hnext hfree ih => exact hstep ih (.decided hnext hfree)
  | chosen _ hmade hrun ih => exact hstep ih (.chosen hmade hrun)
  | concluded _ hmade hrun ih => exact hstep ih (.concluded hmade hrun)
  | failed _ hnext hfalse hrun ih => exact hstep ih (.failed hnext hfalse hrun)

/-! ## Heeding -/

/-- A part in normal form has nothing to do when it comes in: it leaves a choice, and none of its
variables has a value. -/
theorem attached_acts {s : SearchState κ} (hw : s.WellFormed) {d : Description κ} {k : Kind κ}
    (hd : d.Known s.assignment.cells.size) (hk : d.normalise s.assignment = .constraint k)
    (handle : Nat) :
    ∃ r, (s.attach ⟨k, .ofHandle handle⟩).2.2.WellFormed ∧
      s.Gains r ⟨k, .ofHandle handle⟩ (s.attach ⟨k, .ofHandle handle⟩).2.2 ∧
      ∀ {us seen : List Literal}, (∀ l ∈ seen, l ∈ s.assignment.trues) →
        k.Settled us seen (fun v => s.board.watches.numUndos v r) ∧ k.Spent us seen := by
  have hcon : s.assignment.Consistent := hw.onBoard.consistent
  have hreduced := Description.reduced_normalise hcon hd
  rw [hk] at hreduced
  obtain ⟨hkind, hfalsified, hfresh⟩ := Description.wellFormed_of_normalise hcon hd hk
  rcases hrun : s.attach ⟨k, .ofHandle handle⟩ with ⟨r, ok, s'⟩
  obtain ⟨-, hw', hg, -⟩ :=
    SearchState.attach_spec (c := ⟨k, .ofHandle handle⟩) hw hkind hfalsified hrun
  refine ⟨r, hw', hg, hg.acts_of_fresh hw hfresh fun c hc => ?_⟩
  subst hc
  exact Nat.sub_pos_of_lt hreduced.2.1

variable {deep : Prop}

omit [CustomConstraint κ] in
theorem heeds_grow (hw : e.WellFormed) (k : Nat) (h : e.search.Heeds deep n) :
    (e.grow k).search.Heeds deep n ∧ (e.grow k).search.head = e.search.head := by
  obtain ⟨search, analyser, control⟩ := e
  simp only [grow]
  split
  · exact ⟨h, rfl⟩
  · exact ⟨h.grow hw.search k, rfl⟩

/-- No operation lets go of what was heeded. -/
theorem heeds_operates (ho : Orderly moment e) (hop : Operates moment e moment' e')
    (h : e.search.Heeds deep n) : e'.search.Heeds deep n := by
  have hw := ho.wellFormed.search
  cases hop with
  | noted => exact h
  | rested => exact h
  | rewound hrun => exact h.backtrack hw (search_of_backtrack hrun)
  | grown k | widened k => exact (heeds_grow ho.wellFormed k h).1
  | modelled =>
    obtain ⟨⟨board, arena, learned, order, head⟩, analyser, control⟩ := e
    exact h.reorder (select_spec _ hw.order.valid []).2.allowed
  | cleared =>
    obtain ⟨⟨⟨a, w⟩, arena, learned, order, head⟩, analyser, control⟩ := e
    have hallowed : order.restoreAll.allowed = order.allowed := hw.order.restoreAll.2.1
    exact .of_root rfl (fun _ => SearchState.Blank.propagated rfl) fun hd =>
      hallowed.trans (h.free hd)
  | begun => exact h
  | asserted hk =>
    obtain ⟨hextends, hw', -⟩ := SearchState.enqueue_spec hw hk
    exact hextends.heeds hw hw' h
  | attached hd hk handle =>
    obtain ⟨r, hw', hg, hacts⟩ := attached_acts hw hd hk handle
    exact hg.heeds hw hw' (fun _ _ => hacts fun l hl => List.mem_of_mem_take hl)
      (hacts fun l hl => List.mem_of_mem_take hl) h
  | refused =>
    obtain ⟨hnodup, halive, hreason⟩ := ho.fits
    exact (SearchState.delete_spec hw hnodup halive hreason).2.1.heeds h
  | forgot hrun => exact (SearchState.forgetReasons_spec hw hrun).2.2.1.heeds h
  | deleted rs hrs halive =>
    refine (SearchState.delete_spec hw hrs halive fun l hl r _ hreason => ?_).2.1.heeds h
    rw [ho.fits l hl] at hreason
    cases hreason
  | counted => exact h
  | lowered _ hrun => exact h.backtrack hw (search_of_backtrack hrun)
  | taught hrun =>
    obtain ⟨c, hc, hv⟩ := ho.fits
    exact (taught_spec hw ho.wellFormed.clean hc hv hrun).1.heeds h
  | resolved hrun =>
    obtain ⟨-, c, hc, hv⟩ := ho.fits.at_stage
    exact heeds_resolveConflict ho.wellFormed hc hv hrun h
  | simplified hrun =>
    rcases simplifyIfDue_cases hrun with rfl | ⟨k, hsimplify⟩
    · exact h
    · exact (SearchState.simplify_spec hw hsimplify).2.2.1.heeds h
  | reduced hrun =>
    rcases reduceIfDue_cases hrun with rfl | ⟨rs, learned, hreduce, hs⟩
    · exact h
    · rw [hs]
      exact (SearchState.reduce_spec hw hreduce).2.1.heeds h
  | restarted hrun =>
    rcases restartIfDue_cases hrun with rfl | hback
    · exact h
    · exact h.backtrack hw hback
  | opened => exact h.openLevel ho.fits.at_stage
  | assumed => exact h.openLevel ho.fits.at_stage
  | decided hnext =>
    have hk := ho.fits.known _ (List.mem_of_getElem? hnext)
    exact heeds_decideOn ho.wellFormed ho.fits.at_stage hk h
  | chosen _ hrun | concluded _ hrun =>
    exact heeds_decideVariable ho.wellFormed ho.fits.at_stage ho.fits.peopled hrun h
  | failed _ _ hrun => exact h.backtrack hw (search_of_failAssumption hrun)

/-- What is true of a tracked engine: the number is one of literals before the head that were
heeded, and in the midst of an addition so were those that were there when it began, if all of them
count. -/
structure Minds (moment : Moment κ) (free : Bool) (n : Nat) (e : Engine κ) : Prop where
  within : n ≤ e.search.head
  heeds : e.search.Heeds (free = true) n
  start : ∀ start rs, moment = .adding start rs → start.head = start.assignment.trues.length →
    start.assignment.trues.length ≤ n → e.search.ActedAt start.assignment.trues.length

/-- What an addition began with is not touched by what comes in. -/
theorem start_operates (ho : Orderly moment e) (hm : Minds moment free n e)
    (hop : Operates moment e moment' e') {start : SearchState κ} {rs : List Reference}
    (hadding : moment' = .adding start rs) (hhead : start.head = start.assignment.trues.length)
    (hle : start.assignment.trues.length ≤ n) :
    e'.search.ActedAt start.assignment.trues.length := by
  have hw := ho.wellFormed.search
  have hpast : ∀ {start' : SearchState κ} {rs' : List Reference}, moment = .adding start' rs' →
      start'.assignment.trues.length ≤ e.search.assignment.trues.length := by
    rintro start' rs' rfl
    exact ho.fits.2.2.length_le
  cases hop with
  | noted => exact hm.start _ _ hadding hhead hle
  | begun hroot =>
    cases hadding
    exact SearchState.actedAt_of_propagated (hm.heeds.front (.inl hroot) (hhead ▸ hle)) hhead
  | widened k =>
    cases hadding
    have ha := hm.start _ _ rfl hhead hle
    obtain ⟨search, analyser, control⟩ := e
    simp only [grow]
    split
    · exact ha
    · exact Arena.Acted.congr ha fun r c hc =>
        ⟨c, hc, rfl, fun v => SearchState.numUndos_grow search k v r⟩
  | asserted hk =>
    cases hadding
    exact (SearchState.enqueue_spec hw hk).1.actedAt (hpast rfl) (hm.start _ _ rfl hhead hle)
  | attached hd hk handle =>
    cases hadding
    obtain ⟨r, -, hg, hacts⟩ := attached_acts hw hd hk handle
    exact hg.actedAt hw.onBoard.consistent (hpast rfl) (hacts fun l hl => List.mem_of_mem_take hl)
      (hm.start _ _ rfl hhead hle)
  | _ => cases hadding

theorem minds_propagate {conflict : Option Reference} (ho : Orderly moment e)
    (hm : Minds moment free n e) (hrun : e.propagate = .ok (conflict, e')) :
    extent n e conflict e' ≤ e'.search.head ∧
      e'.search.Heeds (free = true) (extent n e conflict e') := by
  have hw := ho.wellFormed.search
  have hsearch := search_of_propagate hrun
  obtain ⟨hgrows, hstays⟩ := hm.heeds.propagate hw hsearch
  have hle := (SearchState.propagate_spec hw (Nat.le_refl _) hsearch).1.head_le
  unfold extent
  split
  · rename_i hclean
    exact ⟨Nat.le_refl _, hgrows hclean.1 hclean.2⟩
  · exact ⟨Nat.le_trans hm.within hle, hstays hm.within⟩

/-- Everything before the number was heeded, whatever was done to the engine. -/
theorem Tracked.minds (h : Tracked moment free n e) : Minds moment free n e := by
  induction h with
  | make o =>
    refine ⟨Nat.le_refl _, .of_root rfl (fun _ => SearchState.Blank.propagated rfl) fun _ => rfl,
      ?_⟩
    rintro _ _ ⟨⟩
  | operated h hop ih =>
    have ho := h.reachable.orderly
    exact ⟨Nat.min_le_right _ _, (heeds_operates ho hop ih.heeds).mono (Nat.min_le_left _ _),
      fun start rs hadding hhead hle => start_operates ho ih hop hadding hhead
        (Nat.le_trans hle (Nat.min_le_left _ _))⟩
  | @confined free n e h vs ih =>
    obtain ⟨⟨board, arena, learned, order, head⟩, analyser, control⟩ := e
    refine ⟨ih.within, ⟨fun hi hd => ih.heeds.levels hi (.inl ?_), fun hd => ih.heeds.front
      (.inl ?_), nofun⟩, nofun⟩
    · exact hd.resolve_right Bool.false_ne_true
    · exact hd.resolve_right Bool.false_ne_true
  | @extended start rs free n e e' conflict h hrun ih =>
    have ho := h.reachable.orderly
    obtain ⟨hwithin, hheeds⟩ := minds_propagate ho ih hrun
    refine ⟨hwithin, hheeds, ?_⟩
    rintro _ _ ⟨⟩ hhead hle
    have hpast : start.assignment.trues.length ≤ e.search.head := hhead ▸ ho.fits.2.2.head_le
    have hle' : start.assignment.trues.length ≤ n := by
      unfold extent at hle
      split at hle
      · rename_i hclean
        exact Nat.le_trans hpast hclean.2
      · exact hle
    exact SearchState.actedAt_propagate ho.wellFormed.search hpast (search_of_propagate hrun)
      (ih.start _ _ rfl hhead hle')
  | @withdrawn start rs free n e s h hrun ih =>
    have ho := h.reachable.orderly
    obtain ⟨hstart, -, hpreserves⟩ := ho.fits
    have hlength : start.trailLength = start.assignment.trues.length := start.assignment.size_trail
    rw [hlength] at hrun
    obtain ⟨-, hr, -, hhead, hroot⟩ :=
      SearchState.backtrackRoot_spec ho.wellFormed.search hpreserves.length_le hrun
    have hleft : s.assignment.trues.length = start.assignment.trues.length := by
      rw [hr.cut.trues, List.length_take]
      exact Nat.min_eq_left hpreserves.length_le
    have hle : start.head ≤ s.head := hhead ▸ hleft ▸ hstart.head_le
    refine ⟨Nat.le_trans (Nat.min_le_right _ _) hle, .of_root hroot (fun hk => ?_) fun hd =>
      hr.allowed.trans (ih.heeds.free hd), nofun⟩
    have hall : start.assignment.trues.length ≤ min n start.head := by
      rw [← hleft, ← hhead]
      exact hk
    refine SearchState.propagated_of_actedAt hhead ?_
    rw [hleft]
    refine hr.actedAt (Nat.le_refl _) (ih.start _ _ rfl (Nat.le_antisymm hstart.head_le ?_) ?_)
    · exact Nat.le_trans hall (Nat.min_le_right _ _)
    · exact Nat.le_trans hall (Nat.min_le_left _ _)
  | @posed free n e e' h hrun assumptions hne ih =>
    have hw := h.reachable.orderly.wellFormed
    obtain ⟨hadv, hback, -⟩ := backtrack_spec hw hrun
    have hroot : e'.search.decisionLevel = 0 := by
      rw [SearchState.decisionLevel_backtrack hw.search hback, Nat.zero_min]
    have hheeds : e'.search.Heeds (e.search.order.allowed.isNone = true)
        (min n e'.search.head) := by
      refine ((ih.heeds.backtrack hw.search hback).mono (Nat.min_le_left _ _)).root hroot
        fun hnone => ?_
      rw [(SearchState.size_backtrack hw.search hback).2.1]
      exact Option.isNone_iff_eq_none.mp hnone
    have hunder : (e'.under assumptions).WellFormed :=
      ⟨hadv.wellFormed.search, hadv.wellFormed.clean⟩
    obtain ⟨hgrown, hsame⟩ := heeds_grow hunder (Description.maxVariable assumptions) hheeds
    exact ⟨hsame ▸ Nat.min_le_right _ _, hgrown, nofun⟩
  | propagated h hrun ih =>
    obtain ⟨hwithin, hheeds⟩ := minds_propagate h.reachable.orderly ih hrun
    exact ⟨hwithin, hheeds, nofun⟩

theorem tracked_withPair (o : Options) : ∃ n, Tracked .resting true n (withPair o) := by
  have hstart := ((Tracked.make (κ := Empty) o).operated (.begun rfl)).operated (.widened 2)
  have hnorm := normalise_clause (κ := Empty) (a := Assignment.empty.grow 2)
    (k := ⟨.make 1 true, .make 2 true, []⟩) (by decide) (by decide) (by decide) (by decide)
      (by decide)
  have hknown : ∀ l ∈ [Literal.make 1 true, .make 2 true], l.var ≠ 0 ∧ l.var < 3 := by decide
  have hd : (Description.clause [.make 1 true, .make 2 true] : Description Empty).Known
      ((make o : Engine Empty).grow 2).search.assignment.cells.size := fun l hl => hknown l hl
  exact ⟨_, (hstart.operated (.attached hd hnorm 0)).operated .rested⟩

/-- One of two literals is assumed to be false, and then the other one, which follows from that, to
be true. Then the second level is empty, and everything before it was propagated. -/
theorem exists_tracked_withPair :
    ∃ e : Engine Empty, Tracked (.searching .deciding) true 2 e ∧ e.search.decisionLevel = 2 ∧
      e.search.assignment.startOfLevel 2 = 2 ∧
      e.search.assignment.trues = [.make 1 false, .make 2 true] := by
  let e₀ : Engine Empty := (withPair Options.standard).posed [.make 1 false, .make 2 true]
  let trial : Except Fault ((Option Reference × Engine Empty) × Option Reference × Engine Empty) :=
    do
    let x₁ ← e₀.propagate
    let x₂ ← (x₁.2.decideOn (.make 1 false)).propagate
    return (x₁, x₂)
  have hresult : trial.toOption.any (fun x => Decidable.decide (x.1.1 = none ∧ x.2.1 = none ∧
      x.1.2.search.decisionLevel = 0 ∧
      x.1.2.control.assumptions = [.make 1 false, .make 2 true] ∧
      x.1.2.search.assignment.isUnassigned (.make 1 false) = true ∧
      x.2.2.control.assumptions = [.make 1 false, .make 2 true] ∧
      x.2.2.search.assignment.isSatisfied (.make 2 true) = true ∧
      x.2.2.search.assignment.trues = [.make 1 false, .make 2 true] ∧
      x.2.2.search.assignment.levelStarts = #[0])) = true := by decide +kernel
  rcases hrun : trial with fault | ⟨⟨c₁, e₁⟩, c₂, e₂⟩
  · rw [hrun] at hresult
    cases hresult
  rw [hrun] at hresult
  obtain ⟨rfl, rfl, hroot, hassumed, hfree, hassumed', hsat, htrues, hstarts⟩ :=
    of_decide_eq_true hresult
  obtain ⟨⟨c, e⟩, h₁, hrun⟩ := ok_of_bind hrun
  obtain ⟨⟨c', e'⟩, h₂, hrun⟩ := ok_of_bind hrun
  cases hrun
  obtain ⟨n, ht⟩ := tracked_withPair Options.standard
  have ht₀ : Tracked (.searching .propagating) true (min n e₀.search.head) e₀ :=
    ht.posed rfl fun l hl => by rcases List.mem_pair.mp hl with rfl | rfl <;> decide
  have ht₁ : Tracked (.searching .deciding) true (extent (min n e₀.search.head) e₀ none e₁) e₁ :=
    ht₀.propagated h₁
  have ht₂ := ht₁.operated (.decided (l := .make 1 false) (by rw [hassumed, hroot]; rfl) hfree)
  have ht₃ : Tracked (.searching .deciding) true _ e₂ := ht₂.propagated h₂
  have hlevel : e₂.search.decisionLevel = 1 := congrArg Array.size hstarts
  have ht₄ := ht₃.operated (.assumed (l := .make 2 true) (by rw [hassumed', hlevel]; rfl) hsat)
  -- All that was propagated counts, as every propagation began where the last one had ended.
  have hhead : e₂.search.head = 2 := by
    have hspec := SearchState.propagate_spec ht₂.reachable.orderly.wellFormed.search
      (Nat.le_refl _) (search_of_propagate h₂)
    rw [hspec.2.2.1, htrues]
    rfl
  have hsame : (e₁.decideOn (.make 1 false)).search.head = e₁.search.head := rfl
  have hn₁ : extent (min n e₀.search.head) e₀ none e₁ = e₁.search.head :=
    if_pos ⟨rfl, Nat.zero_le _⟩
  have hsame' : (e₂.modifySearch (·.openLevel)).search.head = e₂.search.head := rfl
  rw [hn₁, hsame, Nat.min_self, extent, if_pos ⟨rfl, Nat.le_of_eq hsame⟩, hsame', Nat.min_self,
    hhead] at ht₄
  refine ⟨_, ht₄, ?_, ?_, htrues⟩
  · show e₂.search.openLevel.decisionLevel = 2
    rw [SearchState.decisionLevel_openLevel, hlevel]
  · have hlen : e₂.search.assignment.trail.size = 2 := by
      rw [Assignment.size_trail, htrues]
      rfl
    show e₂.search.assignment.openLevel.startOfLevel 2 = 2
    simp [Assignment.openLevel, Assignment.startOfLevel, hstarts, hlen]

/-- Backtracking needs no watch repair. Where the levels up to `level` had been propagated to a
fixpoint without conflict before the next one was opened, and every variable may be decided, going
back to them leaves their literals on the trail, in the same order, and nothing to do for any
constraint. -/
theorem Tracked.backtrack_quiet {level : Nat} (h : Tracked moment true n e)
    (hlevel : level < e.search.decisionLevel)
    (hfixed : e.search.assignment.startOfLevel (level + 1) ≤ n) :
    ∃ e', e.backtrack level = .ok e' ∧ e'.search.decisionLevel = level ∧
      e'.search.assignment.trues = e.search.assignment.trues.filter
        (fun p => Decidable.decide (e.search.assignment.levelOf p.var ≤ level)) ∧
      e'.search.Quiet := by
  have hw := h.reachable.orderly.wellFormed
  obtain ⟨e', hrun, -⟩ := h.reachable.backtrack_yields level
  have hback := search_of_backtrack hrun
  rcases SearchState.backtrack_spec hw.search hback with ⟨hle, -⟩ | ⟨-, hr, hw', hhead, -⟩
  · omega
  have hdecision : e'.search.decisionLevel = level := by
    rw [SearchState.decisionLevel_backtrack hw.search hback]
    exact Nat.min_eq_left (Nat.le_of_lt hlevel)
  have hcon : e.search.assignment.Consistent := hw.search.onBoard.consistent
  have hle : e'.search.head ≤ n := by
    rw [hhead, hr.cut.trues]
    exact Nat.le_trans (List.length_take_le _ _) hfixed
  have hp := (h.minds.heeds.backtrack hw.search hback).front (.inr rfl) hle
  refine ⟨e', hrun, hdecision, ?_, hp.quiet hw' hhead⟩
  rw [Assignment.filter_levelOf hcon hw.search.layered, hr.cut.trues]

theorem Tracked.backtrack_quiet_of_withPair :
    ∃ e e' : Engine Empty, Tracked (.searching .deciding) true 2 e ∧ 1 < e.search.decisionLevel ∧
      e.search.assignment.startOfLevel 2 ≤ 2 ∧ e.backtrack 1 = .ok e' ∧
      e'.search.assignment.trues = [.make 1 false, .make 2 true] ∧ e'.search.Quiet := by
  obtain ⟨e, h, hlevel, hstart, htrues⟩ := exists_tracked_withPair
  have hopen : 1 < e.search.decisionLevel := hlevel ▸ Nat.lt_succ_self 1
  have hfixed : e.search.assignment.startOfLevel 2 ≤ 2 := Nat.le_of_eq hstart
  obtain ⟨e', hback, -, htrues', hquiet⟩ := h.backtrack_quiet hopen hfixed
  refine ⟨e, e', h, hopen, hfixed, hback, ?_, hquiet⟩
  have hw := h.reachable.orderly.wellFormed.search
  have hcon : e.search.assignment.Consistent := hw.onBoard.consistent
  rw [htrues', Assignment.filter_levelOf hcon hw.layered, hstart, htrues]
  rfl

end Engine

end ClauseLearning
