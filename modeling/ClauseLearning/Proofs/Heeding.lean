import ClauseLearning.Proofs.Acting
import ClauseLearning.Proofs.Composition
import ClauseLearning.Proofs.Running

/-!
# Going back without seeing to watches

Watches and counters are left where deeper levels moved them when a search goes back. That is right
because, of a number of first literals that were propagated without conflict, everything before an
open level was acted on with nothing true but that, and what happens above a level does not matter
to it. A blocking clause may come in with a false watch on too low a level, but only if some
variables may not be decided; then no more than the root is `deep` enough to be spoken of.

* `SearchState.Heeds.backtrack`: at the end of a level everything was done.
* `SearchState.Heeds.propagate`: propagation without conflict makes the number larger.
* `SearchState.Heeds.learn`: a learned clause acted on all levels below its second literal's.
* `Engine.heeds_resolveConflict`, `Engine.heeds_decideVariable`: conflicts and decisions of a
  search.
-/

namespace ClauseLearning

variable {κ : Type}

namespace SearchState

variable {s s' : SearchState κ} {deep : Prop} {m n k : Nat}

/-! ## Prefixes that were acted on -/

/-- Of the first `n` literals, everything before an open level was acted on with nothing true but
that, and so was everything before the head. This is said of the root, and of all levels if these
are `deep`: then every variable may be decided. -/
structure Heeds (deep : Prop) (n : Nat) (s : SearchState κ) : Prop where
  levels : ∀ {i m}, s.assignment.levelStarts.toList[i]? = some m → i = 0 ∨ deep → m ≤ n →
    s.ActedAt m
  front : s.decisionLevel = 0 ∨ deep → s.head ≤ n → s.Propagated
  free : deep → s.order.allowed = none

namespace Heeds

theorem mono (h : s.Heeds deep n) (hle : k ≤ n) : s.Heeds deep k :=
  ⟨fun hi hd hm => h.levels hi hd (Nat.le_trans hm hle),
    fun hd hk => h.front hd (Nat.le_trans hk hle), h.free⟩

/-- At the root there is but one thing to say. -/
theorem of_root (hroot : s.decisionLevel = 0) (hp : s.head ≤ n → s.Propagated)
    (hfree : deep → s.order.allowed = none) : s.Heeds deep n := by
  refine ⟨fun {i m} hi => ?_, fun _ hk => hp hk, hfree⟩
  have hnil : s.assignment.levelStarts.toList = [] := List.length_eq_zero_iff.mp hroot
  rw [hnil] at hi
  cases hi

theorem root (h : s.Heeds deep n) (hroot : s.decisionLevel = 0) {deep' : Prop}
    (hfree : deep' → s.order.allowed = none) : s.Heeds deep' n :=
  .of_root hroot (fun hk => h.front (.inl hroot) hk) hfree

/-- Constraints may go, be tagged anew, and lose their reasons. -/
theorem congr (h : s.Heeds deep n) (htrues : s'.assignment.trues = s.assignment.trues)
    (hstarts : s'.assignment.levelStarts = s.assignment.levelStarts) (hhead : s'.head = s.head)
    (hall : ∀ r c', s'.arena.get? r = some c' → ∃ c, s.arena.get? r = some c ∧ c.kind = c'.kind ∧
      ∀ v, s'.board.watches.numUndos v r = s.board.watches.numUndos v r)
    (hallowed : s.order.allowed = none → s'.order.allowed = none) : s'.Heeds deep n := by
  have hlevel : s'.decisionLevel = s.decisionLevel := congrArg Array.size hstarts
  refine ⟨fun {i m} hi hd hm => ?_, fun hd hk => ?_, fun hd => hallowed (h.free hd)⟩
  · rw [hstarts] at hi
    unfold ActedAt
    rw [htrues]
    exact Arena.Acted.congr (h.levels hi hd hm) hall
  · have hp : s.Propagated := h.front (hlevel ▸ hd) (hhead ▸ hk)
    have hacted := Arena.Acted.congr (s := s.arena) (w := s.board.watches) hp hall
    unfold Propagated
    rw [htrues, hhead]
    exact hacted

theorem grow (h : s.Heeds deep n) (hw : s.WellFormed) (k : Nat) : (s.grow k).Heeds deep n :=
  h.congr rfl rfl rfl (fun r c hc => ⟨c, hc, rfl, fun v => numUndos_grow s k v r⟩)
    (Preserves.grow hw k).allowed.mpr

theorem reorder (h : s.Heeds deep n) {order : DecisionOrder Generator}
    (hallowed : order.allowed = s.order.allowed) :
    ({ s with order } : SearchState κ).Heeds deep n :=
  h.congr rfl rfl rfl (fun _ c hc => ⟨c, hc, rfl, fun _ => rfl⟩) hallowed.trans

end Heeds

theorem Thins.heeds (ht : s.Thins s') (h : s.Heeds deep n) : s'.Heeds deep n :=
  h.congr ht.trues ht.starts ht.head (fun _ c hc => ⟨c, ht.alive hc, rfl, ht.told hc⟩)
    fun hnone => ht.order ▸ hnone

theorem Tunes.heeds (ht : s.Tunes s') (h : s.Heeds deep n) : s'.Heeds deep n := by
  refine h.congr (congrArg Assignment.trues ht.assignment)
    (congrArg Assignment.levelStarts ht.assignment) ht.head
      (fun r c' hc' => ?_) ht.order.allowed.trans
  obtain ⟨c, hc, hk, -⟩ := ht.arena.of_alive hc'
  exact ⟨c, hc, hk.symm, fun v => by rw [ht.board]⟩

/-- Decisions and facts wait behind the head. -/
theorem Extends.heeds (he : s.Extends s') (hw : s.WellFormed) (hw' : s'.WellFormed)
    (h : s.Heeds deep n) : s'.Heeds deep n := by
  have hlevel : s'.decisionLevel = s.decisionLevel := congrArg Array.size he.extension.starts
  refine ⟨fun {i m} hi hd hm => ?_, fun hd hk => ?_, fun hd => he.order ▸ h.free hd⟩
  · rw [he.extension.starts] at hi
    have hle := hw.layered.le_length m (List.mem_of_getElem? hi)
    exact he.actedAt hle (h.levels hi hd hm)
  · exact he.propagated hw hw' (h.front (hlevel ▸ hd) (he.head ▸ hk))

/-- A constraint that came in acted on what is said of it. -/
theorem Gains.heeds {r : Reference} {c : Constraint κ} (hg : s.Gains r c s') (hw : s.WellFormed)
    (hw' : s'.WellFormed)
    (hlevels : ∀ {i m}, s.assignment.levelStarts.toList[i]? = some m → i = 0 ∨ deep →
      c.kind.Settled (s.assignment.trues.take m) (s.assignment.trues.take m)
          (fun v => s.board.watches.numUndos v r) ∧
        c.kind.Spent (s.assignment.trues.take m) (s.assignment.trues.take m))
    (hfront : c.kind.Settled s'.assignment.trues (s.assignment.trues.take s.head)
        (fun v => s.board.watches.numUndos v r) ∧
      c.kind.Spent s'.assignment.trues (s.assignment.trues.take s.head))
    (h : s.Heeds deep n) : s'.Heeds deep n := by
  have hlevel : s'.decisionLevel = s.decisionLevel := congrArg Array.size hg.extension.starts
  refine ⟨fun {i m} hi hd hm => ?_, fun hd hk => ?_, fun hd => hg.order ▸ h.free hd⟩
  · rw [hg.extension.starts] at hi
    have hle := hw.layered.le_length m (List.mem_of_getElem? hi)
    exact hg.actedAt hw.onBoard.consistent hle (hlevels hi hd) (h.levels hi hd hm)
  · have hp : s.Propagated := h.front (hlevel ▸ hd) (hg.head ▸ hk)
    have hacted := hg.acted hw'.onBoard.consistent.functional (fun l hl => hg.extension.mem hl)
      hfront hp
    unfold Propagated
    rw [hg.head, hg.extension.take hw.head_le]
    exact hacted

/-- A constraint over variables without a value has nothing to do. -/
theorem Gains.acts_of_fresh {r : Reference} {c : Constraint κ} (hg : s.Gains r c s')
    (hw : s.WellFormed) (hnew : c.kind.Fresh s.assignment.trues)
    (hspare : ∀ k, c.kind = .cardinality k → 0 < k.slack) {us seen : List Literal}
    (hseen : ∀ l ∈ seen, l ∈ s.assignment.trues) :
    c.kind.Settled us seen (fun v => s.board.watches.numUndos v r) ∧ c.kind.Spent us seen := by
  have hfresh := hnew.subset hseen
  exact ⟨Kind.settled_of_fresh hfresh fun x _ => hw.onBoard.numUndos_of_dead hg.dead x.var,
    hfresh.spent hspare⟩

theorem getElem?_levelStarts {a : Assignment} {i : Nat} (hi : i < a.decisionLevel) :
    a.levelStarts.toList[i]? = some (a.startOfLevel (i + 1)) := by
  have hget : a.levelStarts[i]? = some a.levelStarts[i] := Array.getElem?_eq_getElem hi
  rw [Array.getElem?_toList, hget]
  simp [Assignment.startOfLevel, hget]

namespace Heeds

/-- A literal of a level above the first `i + 1` is not before the next one. -/
theorem not_mem_take {a : Assignment} (hcon : a.Consistent) (hl : a.Layered) {i : Nat}
    (hi : a.levelStarts.toList[i]? = some m) {l : Literal} (hlevel : i < a.levelOf l.var) :
    l ∉ a.trues.take m := by
  intro hmem
  obtain ⟨j, hj, hget⟩ := mem_take_iff.mp hmem
  have hlt : j < a.trail.size := by
    rw [Assignment.size_trail]
    exact (List.getElem?_eq_some_iff.mp hget).1
  have hstart := getElem?_levelStarts (List.getElem?_eq_some_iff.mp hi).1
  rw [hi] at hstart
  rw [Option.some.inj hstart, Assignment.lt_startOfLevel_iff hl.sorted hlt] at hj
  rw [hcon.levelOf_eq hget] at hlevel
  omega

end Heeds

variable [CustomConstraint κ]

omit [CustomConstraint κ] in
/-- A clause that is learned with its second literal on a level high enough acted on everything
below that: neither watch was false there. Now its first literal is true. -/
theorem Heeds.learn {c : Clause} {md : Metadata} (lbd : Nat) (h : s.Heeds deep n)
    (hw : s.WellFormed)
    (hc : (Kind.clause c : Kind κ).WellFormed s.assignment.cells.size) (hmd : md.learned = true)
    (hfirst : s.assignment.isUnassigned c.first = true)
    (hrest : ∀ l ∈ c.second :: c.rest, -l ∈ s.assignment.trues)
    (hlevel : ∀ i, i < s.decisionLevel → i = 0 ∨ deep → i < s.assignment.levelOf c.second.var) :
    (s.learn c md lbd).Heeds deep n := by
  have hcon : s.assignment.Consistent := hw.onBoard.consistent
  obtain ⟨r, d, hd, -, hw', hg, -⟩ := @learn_spec _ s hw c md lbd hc hmd hrest
  refine hg.heeds hw hw' (fun {i m} hi hdeep => ?_) ?_ h
  · rw [hd]
    refine ⟨fun w hmem hfalse => ?_, trivial⟩
    exfalso
    rcases List.mem_pair.mp hmem with rfl | rfl
    · refine (hcon.isUnassigned_iff c.first).mp hfirst (List.mem_map.mpr ⟨-c.first, ?_, ?_⟩)
      · exact List.mem_of_mem_take hfalse
      · exact Literal.var_negate c.first
    · have hlt := (List.getElem?_eq_some_iff.mp hi).1
      refine not_mem_take hcon hw.layered hi ?_ hfalse
      rw [Literal.var_negate]
      exact hlevel i hlt hdeep
  · obtain ⟨q, hq⟩ := s.assignment_learn c md lbd
    have hknown := (hc.2 c.first List.mem_cons_self).2
    rw [hd, hq, (Assignment.enqueue_of_isUnassigned hcon hknown hfirst (some q)).2]
    exact ⟨fun _ _ _ => ⟨c.first, List.mem_cons_self,
      List.mem_append_right _ (List.mem_singleton_self _)⟩, trivial⟩

omit [CustomConstraint κ] in
/-- A level is opened when everything was notified of, so it is heeded where the head is. -/
theorem Heeds.openLevel (h : s.Heeds deep n) (hhead : s.head = s.assignment.trues.length) :
    s.openLevel.Heeds deep n := by
  have hlevel : s.openLevel.decisionLevel = s.decisionLevel + 1 := s.decisionLevel_openLevel
  refine ⟨fun {i m} hi hd hm => ?_, fun hd hk => ?_, h.free⟩
  · have hi' : s.assignment.openLevel.levelStarts.toList[i]? = some m := hi
    rw [Assignment.levelStarts_openLevel, List.getElem?_append] at hi'
    split at hi'
    · exact h.levels hi' hd hm
    · rename_i hnot
      obtain ⟨hzero, rfl⟩ : i - s.decisionLevel = 0 ∧ m = s.assignment.trues.length := by
        have hone := (List.getElem?_eq_some_iff.mp hi').1
        rw [List.length_singleton] at hone
        have h0 : i - s.assignment.levelStarts.toList.length = 0 := by omega
        rw [h0] at hi'
        exact ⟨h0, (Option.some.inj hi').symm⟩
      have hroot : s.decisionLevel = 0 ∨ deep := hd.imp (fun h0 => by
        have : ¬ i < s.decisionLevel := hnot
        omega) id
      exact actedAt_of_propagated (h.front hroot (hhead ▸ hm)) hhead
  · have hdeep : deep := hd.resolve_left fun h0 => by omega
    exact h.front (.inr hdeep) hk

/-- At the end of a level everything was done. -/
theorem Heeds.backtrack {level : Nat} (h : s.Heeds deep n) (hw : s.WellFormed)
    (hrun : s.backtrack level = .ok s') : s'.Heeds deep n := by
  rcases backtrack_spec hw hrun with ⟨-, rfl⟩ | ⟨hlt, hr, hw', hhead, hstarts⟩
  · exact h
  have hlevel : s'.decisionLevel = level := by
    rw [decisionLevel_backtrack hw hrun]
    exact Nat.min_eq_left (Nat.le_of_lt hlt)
  have hend : s.assignment.levelStarts.toList[level]? =
      some (s.assignment.startOfLevel (level + 1)) := getElem?_levelStarts hlt
  have hlen : s'.assignment.trues.length = s.assignment.startOfLevel (level + 1) := by
    rw [hr.cut.trues, List.length_take]
    exact Nat.min_eq_left (hw.layered.le_length _ (List.mem_of_getElem? hend))
  refine ⟨fun {i m} hi hd hm => ?_, fun hd hk => propagated_of_actedAt hhead ?_, fun hd =>
    hr.allowed.trans (h.free hd)⟩
  · have hle := hw'.layered.le_length m (List.mem_of_getElem? hi)
    rw [hstarts, List.getElem?_take] at hi
    split at hi
    · exact hr.actedAt (hlen ▸ hle) (h.levels hi hd hm)
    · cases hi
  · rw [hlen]
    rw [hhead, hlen] at hk
    exact hr.actedAt (Nat.le_refl _) (h.levels hend (hlevel ▸ hd) hk)

/-- A clause is entered on a lower level, where its second literal is of that level, or of one that
is high enough. -/
theorem Heeds.jump {level : Nat} {c : Clause} {md : Metadata} (lbd : Nat) {t : SearchState κ}
    (h : s.Heeds deep n) (hw : s.WellFormed) (hrun : s.backtrack level = .ok s') (ht : s'.Tunes t)
    (hc : (Kind.clause c : Kind κ).WellFormed s.assignment.cells.size) (hmd : md.learned = true)
    (hfirst : level < s.assignment.levelOf c.first.var)
    (hrest : ∀ l ∈ c.second :: c.rest, -l ∈ s.assignment.trues ∧ s.assignment.levelOf l.var ≤ level)
    (hsecond : ∀ i, i < level → i = 0 ∨ deep → i < s.assignment.levelOf c.second.var) :
    (t.learn c md lbd).Heeds deep n := by
  have hw' := hw.backtrack hrun
  have hstays : ∀ l ∈ c.second :: c.rest, -l ∈ s'.assignment.trues := by
    intro l hl
    refine mem_backtrack hw hrun (hrest l hl).1 ?_
    rw [Literal.var_negate]
    exact (hrest l hl).2
  have hlevel : s'.assignment.levelOf c.second.var = s.assignment.levelOf c.second.var := by
    have hkeep := levelOf_backtrack hw hrun (hstays c.second List.mem_cons_self)
    rwa [Literal.var_negate] at hkeep
  have hle : s'.decisionLevel ≤ level := by
    rw [decisionLevel_backtrack hw hrun]
    exact Nat.min_le_left ..
  refine (ht.heeds (h.backtrack hw hrun)).learn lbd (ht.wellFormed hw') ?_ hmd ?_ ?_ ?_
  · rw [ht.assignment, (size_backtrack hw hrun).1]
    exact hc
  · rw [ht.assignment]
    exact isUnassigned_backtrack hw hrun hfirst
  · rw [ht.assignment]
    exact hstays
  · intro i hi hd
    have hi' : i < s'.assignment.decisionLevel := ht.assignment ▸ hi
    rw [ht.assignment, hlevel]
    exact hsecond i (Nat.lt_of_lt_of_le hi' hle) hd

/-- Propagation that meets no conflict makes the number larger, if it began within. -/
theorem Heeds.propagate {conflict : Option Reference} (h : s.Heeds deep n) (hw : s.WellFormed)
    (hrun : s.propagate = .ok (conflict, s')) :
    (conflict = none → s.head ≤ n → s'.Heeds deep s'.head) ∧
      (n ≤ s.head → s'.Heeds deep n) := by
  obtain ⟨hf, hw', -⟩ := propagate_spec hw (Nat.le_refl s.head) hrun
  have hlevel : s'.decisionLevel = s.decisionLevel := congrArg Array.size hf.extension.starts
  have hlevels : ∀ {i m}, s'.assignment.levelStarts.toList[i]? = some m → i = 0 ∨ deep → m ≤ n →
      s'.ActedAt m := by
    intro i m hi hd hm
    rw [hf.extension.starts] at hi
    exact actedAt_propagate hw (hw.starts_le m (List.mem_of_getElem? hi)) hrun (h.levels hi hd hm)
  obtain ⟨conflict', t, ht, hpropagated⟩ := propagate_total hw
  rw [hrun] at ht
  cases ht
  have hfree : deep → s'.order.allowed = none := fun hd => hf.order ▸ h.free hd
  refine ⟨fun hnone hle => ⟨fun {i m} hi hd _ => hlevels hi hd ?_, fun hd _ => ?_, hfree⟩,
    fun hle => ⟨hlevels, fun hd hk => ?_, hfree⟩⟩
  · rw [hf.extension.starts] at hi
    exact Nat.le_trans (hw.starts_le m (List.mem_of_getElem? hi)) hle
  · exact hpropagated hnone (h.front (hlevel ▸ hd) hle)
  · have hstay : s.head ≤ n := Nat.le_trans hf.head_le hk
    cases conflict with
    | none => exact hpropagated rfl (h.front (hlevel ▸ hd) hstay)
    | some r =>
      have := head_lt_of_conflict hw hrun
      omega

end SearchState

namespace Engine

variable [CustomConstraint κ] {deep : Prop} {n : Nat} {e e' : Engine κ}

/-! ## Operations of a search -/

omit [CustomConstraint κ] in
theorem heeds_decay (h : e.search.Heeds deep n) : e.decay.search.Heeds deep n := by
  obtain ⟨⟨board, arena, learned, order, head⟩, analyser, control⟩ := e
  exact h.congr rfl rfl rfl (fun _ c hc => ⟨c, hc, rfl, fun _ => rfl⟩) fun hnone => hnone

/-- What is learned from a conflict comes in where its second literal is false, or at the root. -/
theorem heeds_resolveConflict {r : Reference} {c : Constraint κ} (hw : e.WellFormed)
    (hc : e.search.arena.get? r = some c) (hv : c.kind.Violated e.search.assignment.trues)
    (hrun : e.resolveConflict r = .ok (true, e')) (h : e.search.Heeds deep n) :
    e'.search.Heeds deep n := by
  obtain ⟨c', low, lesson, e₁, hc', hlow, hlesson, rfl, hcases⟩ := resolveConflict_cases hrun
  cases hc.symm.trans hc'
  obtain ⟨c₁, hc₁, hv₁⟩ := violated_backtrack hw.search hlow hc hv fun m hm => le_highestLevel _ hm
  have hw₁ := hw.search.backtrack hlow
  have hcon₁ : low.assignment.Consistent := hw₁.onBoard.consistent
  have hclean : e.analyser.Clean low.assignment.cells.size := by
    rw [(SearchState.size_backtrack hw.search hlow).1]
    exact hw.clean
  obtain ⟨-, horder, hrefs, hretagged, ⟨last, rest, hasserts⟩, -⟩ :=
    Analyser.analyse_spec hw₁.justifies hc₁ hv₁ hclean hw₁.order.valid hlesson
  have htunes : low.Tunes (low.taught lesson) := ⟨rfl, hretagged, hrefs, horder, rfl⟩
  have hlow' := h.backtrack hw.search hlow
  have hlits := hasserts.literals
  refine heeds_decay ?_
  rcases hcases with ⟨l, s, hone, hback, hs⟩ | ⟨l, m, ls, learned, s, age, lbd, hmore, hlearned,
    hback, hs⟩
  · rw [hone] at hlits
    obtain ⟨rfl, -⟩ := List.cons.inj hlits
    have hw₂ := htunes.wellFormed hw₁
    have hknown : (-last).Known s.assignment.cells.size := by
      rw [(SearchState.size_backtrack hw₂ hback).1]
      exact Literal.Known.negate ⟨hcon₁.var_ne_zero hasserts.mem, hcon₁.var_lt hasserts.mem⟩
    obtain ⟨hextends, hw₃, -⟩ := SearchState.enqueue_spec (hw₂.backtrack hback) hknown
    rw [hs]
    exact hextends.heeds (hw₂.backtrack hback) hw₃ ((htunes.heeds hlow').backtrack hw₂ hback)
  · rw [hmore] at hlits
    obtain ⟨rfl, rfl⟩ := List.cons.inj hlits
    have htunes' : low.Tunes { low.taught lesson with learned } :=
      ⟨rfl, hretagged, hlearned.trans hrefs, horder, rfl⟩
    have hw₂ := htunes'.wellFormed hw₁
    have hsame : s.Tunes s := ⟨rfl, .refl _, rfl, .refl (hw₂.backtrack hback).order.valid, rfl⟩
    have hsecond : low.assignment.levelOf m.var = lesson.clause.backjumpLevel :=
      hasserts.attained m rfl
    rw [hs]
    refine (htunes'.heeds hlow').jump lbd hw₂ hback hsame (wellFormed_of_asserts hcon₁ hasserts) rfl
      ?_ hasserts.others fun i hi _ => ?_
    · show lesson.clause.backjumpLevel < low.assignment.levelOf (-last).var
      rw [Literal.var_negate, hasserts.level]
      exact hasserts.lower
    · show i < low.assignment.levelOf m.var
      rw [hsecond]
      exact hi

/-- A blocking clause has no literal of the root, so the root need not be seen to. -/
theorem heeds_blockDecisions {outcome : Option Outcome} (hw : e.WellFormed)
    (hp : e.search.assignment.Peopled e.control.assumptions.length) (hdeep : ¬ deep)
    (hrun : e.blockDecisions = .ok (outcome, e')) (h : e.search.Heeds deep n) :
    e'.search.Heeds deep n := by
  have hcon : e.search.assignment.Consistent := hw.search.onBoard.consistent
  rcases blockDecisions_cases hrun with ⟨-, hback⟩ | ⟨-, hlt, hcases⟩
  · exact h.backtrack hw.search hback
  obtain ⟨k, l₀, hk, hlevel, hblock₀, hknown⟩ := blockingClause_top hw.search hp hlt
  rw [hk] at hcases
  rcases hcases with ⟨l, s, hblock, hback, hs⟩ | ⟨l, m, ls, s, hblock, hback, hs⟩
  · rw [hblock₀] at hblock
    obtain ⟨rfl, -⟩ := List.cons.inj hblock
    have hknown' : l₀.Known s.assignment.cells.size := by
      rw [(SearchState.size_backtrack hw.search hback).1]
      exact hknown l₀ List.mem_cons_self
    obtain ⟨hextends, hw', -⟩ := SearchState.enqueue_spec (hw.search.backtrack hback) hknown'
    rw [hs]
    exact hextends.heeds (hw.search.backtrack hback) hw' (h.backtrack hw.search hback)
  · have hbelow := false_below_of_blockingClause hcon hw.search.layered hblock
    have hnodup := nodup_blockingClause hcon hw.search.layered (k + 1)
    have habove := blockingClause_above hcon hw.search.layered (k + 1)
    rw [hblock] at hnodup habove
    have hsame : l₀ = l ∧ blockingClause e.search.assignment k = m :: ls := by
      rw [hblock₀] at hblock
      exact List.cons.inj hblock
    obtain ⟨rfl, hrest⟩ := hsame
    rw [hrest] at hknown
    have htunes : s.Tunes { s with learned := s.learned.nextAge.2 } :=
      ⟨rfl, .refl _, rfl, .refl (hw.search.backtrack hback).order.valid, rfl⟩
    rw [hs]
    refine h.jump _ hw.search hback htunes ⟨hnodup, hknown⟩ rfl ?_ (fun x hx => ?_) fun i _ hi => ?_
    · show k < e.search.assignment.levelOf l₀.var
      omega
    · obtain ⟨hfalse, hless⟩ := hbelow x hx
      refine ⟨hfalse, ?_⟩
      show e.search.assignment.levelOf x.var ≤ k
      omega
    · rw [hi.resolve_right hdeep]
      exact habove m (List.mem_cons_of_mem _ List.mem_cons_self)

omit [CustomConstraint κ] in
theorem heeds_decideOn {l : Literal} (hw : e.WellFormed)
    (hhead : e.search.head = e.search.assignment.trues.length)
    (hk : l.Known e.search.assignment.cells.size) (h : e.search.Heeds deep n) :
    (e.search.openLevel.enqueue l).2.Heeds deep n := by
  obtain ⟨hextends, hw', -⟩ := SearchState.enqueue_spec (hw.search.openLevel hhead) hk
  exact hextends.heeds (hw.search.openLevel hhead) hw' (h.openLevel hhead)

/-- Decisions are forbidden only if some variables may not be decided. -/
theorem heeds_decideVariable {outcome : Option Outcome} (hw : e.WellFormed)
    (hhead : e.search.head = e.search.assignment.trues.length)
    (hp : e.search.assignment.Peopled e.control.assumptions.length)
    (hrun : e.decideVariable = .ok (outcome, e')) (h : e.search.Heeds deep n) :
    e'.search.Heeds deep n := by
  rcases decideVariable_cases hrun with ⟨l, order, hnext, -, hs⟩ | ⟨order, hnext, hcases⟩
  · have hdecided := DecisionOrder.nextDecision_some hw.search.order hnext
    have hk : l.Known e.search.assignment.cells.size := ⟨hdecided.var_ne_zero, hdecided.var_lt⟩
    obtain ⟨hextends, -⟩ := SearchState.enqueue_spec (hw.search.openLevel hhead) hk
    rw [hs]
    refine (heeds_decideOn hw hhead hk h).reorder ?_
    rw [hextends.order]
    exact hdecided.allowed
  · obtain ⟨hw₁, hallowed, hassigned⟩ := hw.search.nextDecision_none hnext
    rcases hcases with ⟨-, hs⟩ | ⟨hopen, hblock⟩
    · rw [hs]
      exact h.reorder hallowed
    · refine heeds_blockDecisions (e := ⟨{ e.search with order }, e.analyser, e.control⟩)
        ⟨hw₁, hw.clean⟩ hp (fun hd => hopen ?_) hblock (h.reorder hallowed)
      refine SearchState.trailLength_of_assigned hw.search fun v hv hlt => hassigned v hlt ?_
      simp only [DecisionOrder.isDecision, h.free hd]
      simpa using hv

end Engine

end ClauseLearning
