import ClauseLearning.Proofs.Closure
import ClauseLearning.Proofs.Starting

/-!
# Propagation reaches the naive closure

A state is propagated up to its head when every constraint, learned or not, acted on the literals it
was notified of (`SearchState.Propagated`). Propagation always comes to an end, it leaves such a
state behind if it finds no conflict, and such a state with its head at the end of the trail is a
fixpoint of the naive rules.

* `SearchState.propagate_total`: propagation has a result, and what was propagated stays so.
* `Kind.Settled.closed`: a constraint that acted on the whole trail forces nothing more.
* `SearchState.Propagated.naive`: watched and naive propagation agree.
-/

namespace ClauseLearning

variable {κ : Type}

theorem Assignment.Consistent.length_le {a : Assignment} (h : a.Consistent) :
    a.trues.length ≤ a.numVariables := by
  have hsub : a.trues.map Literal.var ⊆ a.vars := by
    intro v hv
    obtain ⟨l, hl, rfl⟩ := List.mem_map.mp hv
    have hz := h.var_ne_zero hl
    have hlt := h.var_lt hl
    rw [Assignment.vars, List.mem_range'_1, Assignment.numVariables]
    omega
  have hle := (List.Nodup.subperm h.nodup_var hsub).length_le
  rwa [List.length_map, Assignment.vars, List.length_range'] at hle

namespace Kind

/-! ## Constraints that acted -/

/-- A cardinality constraint with no false literal to spare gave all its literals a value. -/
def Spent (trues seen : List Literal) : Kind κ → Prop
  | .cardinality c =>
    c.slack ≤ numFalse seen c.literals → ∀ l ∈ c.literals, l.var ∈ trues.map Literal.var
  | _ => True

namespace Spent

variable {k k' : Kind κ} {trues seen : List Literal}

theorem mono (h : k.Spent trues seen) {us : List Literal} (hsub : ∀ l ∈ trues, l ∈ us) :
    k.Spent us seen := by
  cases k with
  | cardinality c =>
    intro hslack l hl
    obtain ⟨m, hm, hml⟩ := List.mem_map.mp (h hslack l hl)
    exact List.mem_map.mpr ⟨m, hsub m hm, hml⟩
  | clause c => trivial
  | parity c => trivial
  | custom c => trivial

theorem similar (h : k.Spent trues seen) (hs : k.Similar k') : k'.Spent trues seen := by
  cases k <;> cases k'
  case cardinality.cardinality c d =>
    obtain ⟨hlits, hdegree⟩ := hs
    simp only [Spent, Cardinality.slack, hlits, hdegree] at h ⊢
    exact h
  case clause.clause c d => trivial
  case parity.parity c d => trivial
  case custom.custom c d => trivial
  all_goals exact hs.elim

/-- A literal that is not waited for spends nothing. -/
theorem concat (h : k.Spent trues seen) {p : Literal} (hp : p ∉ k.watched) :
    k.Spent trues (seen ++ [p]) := by
  cases k with
  | cardinality c =>
    have heq : numFalse (seen ++ [p]) c.literals = numFalse seen c.literals := by
      apply List.countP_congr
      intro l hl
      have hne : -l ≠ p := by
        rintro rfl
        exact hp (List.mem_map.mpr ⟨l, hl, rfl⟩)
      simp [hne]
    intro hslack
    rw [heq] at hslack
    exact h hslack
  | clause c => trivial
  | parity c => trivial
  | custom c => trivial

end Spent

/-- A constraint that nothing was decided of has nothing to force, if it leaves a choice at all. -/
theorem Fresh.spent {k : Kind κ} {trues seen : List Literal} (h : k.Fresh seen)
    (hspare : ∀ c, k = .cardinality c → 0 < c.slack) : k.Spent trues seen := by
  cases k with
  | cardinality c =>
    intro hslack
    have hzero : numFalse seen c.literals = 0 := by
      refine List.countP_eq_zero.mpr fun l hl => ?_
      rw [decide_eq_true_eq]
      exact fun hm => h l hl (List.mem_map.mpr ⟨-l, hm, Literal.var_negate l⟩)
    have := hspare c rfl
    omega
  | clause c => trivial
  | parity c => trivial
  | custom c => trivial

/-- A constraint that acted on all true literals is not violated and forces nothing. -/
theorem Settled.closed {k : Kind κ} {trues : List Literal} {told : Nat → Nat}
    (h : k.Settled trues trues told) (hs : k.Spent trues trues) {size : Nat}
    (hw : k.WellFormed size) (ht : Functional trues) :
    ¬ k.Violated trues ∧ ∀ l, ¬ k.Forces trues l := by
  cases k with
  | clause c =>
    have hmem : ∀ w ∈ [c.first, c.second], w ∈ c.literals := by
      intro w hw
      rcases List.mem_pair.mp hw with rfl | rfl
      · exact List.mem_cons_self
      · exact List.mem_cons_of_mem _ List.mem_cons_self
    constructor
    · intro hv
      obtain ⟨l, hl, hlt⟩ := h c.first List.mem_cons_self (hv _ List.mem_cons_self)
      exact ht.not_mem_negate hlt (hv l hl)
    · rintro l ⟨hnew, -, hrest⟩
      -- One of the two watches is false, so some literal is true, and that can only be the last.
      have hwatch : ∃ w ∈ [c.first, c.second], w ≠ l := by
        by_cases hfirst : c.first = l
        · refine ⟨c.second, List.mem_cons_of_mem _ List.mem_cons_self, fun hsecond => ?_⟩
          have hnodup := hw.1
          simp only [Clause.literals, List.map_cons, List.nodup_cons, List.mem_cons,
            not_or] at hnodup
          exact hnodup.1.1 (by rw [hfirst, hsecond])
        · exact ⟨c.first, List.mem_cons_self, hfirst⟩
      obtain ⟨w, hw, hwl⟩ := hwatch
      obtain ⟨m, hm, hmt⟩ := h w hw (hrest w (hmem w hw) hwl)
      by_cases hml : m = l
      · exact hnew (List.mem_map.mpr ⟨m, hmt, by rw [hml]⟩)
      · exact ht.not_mem_negate hmt (hrest m hm hml)
  | cardinality c =>
    constructor
    · exact fun hv => Nat.not_lt.mpr h.2 hv
    · rintro l ⟨hnew, hl, hspent⟩
      exact hnew (hs (Nat.le_of_eq hspent.symm) l hl)
  | parity c =>
    constructor
    · rintro ⟨hall, hwrong⟩
      exact hwrong (h c.first List.mem_cons_self (hall _ List.mem_cons_self)).2
    · rintro l ⟨hnew, hl, hrest, -⟩
      have hwatch : ∃ w ∈ [c.first, c.second], w ∈ trues.map Literal.var := by
        by_cases hfirst : c.first = l.var
        · refine ⟨c.second, List.mem_cons_of_mem _ List.mem_cons_self, hrest _ ?_ ?_⟩
          · exact List.mem_cons_of_mem _ List.mem_cons_self
          · intro hsecond
            have hnodup := hw.1
            simp only [Parity.vars, List.nodup_cons, List.mem_cons, not_or] at hnodup
            exact hnodup.1.1 (by rw [hfirst, hsecond])
        · exact ⟨c.first, List.mem_cons_self, hrest _ List.mem_cons_self hfirst⟩
      obtain ⟨w, hw, hwt⟩ := hwatch
      exact hnew ((h w hw hwt).1 l.var hl)
  | custom c => exact hw.elim

end Kind

namespace SearchState

variable [CustomConstraint κ] {s s' : SearchState κ} {p : Literal} {e : Watcher}
  {ws : List Watcher} {n : Nat}

/-- Every constraint acted on the part of the trail before the head: no watch is false there unless
the constraint is true, every false literal was counted, and what follows is on the trail. -/
def Propagated (s : SearchState κ) : Prop :=
  ∀ r c, s.arena.get? r = some c →
    c.kind.Settled s.assignment.trues (s.assignment.trues.take s.head)
        (fun v => s.board.watches.numUndos v r) ∧
      c.kind.Spent s.assignment.trues (s.assignment.trues.take s.head)

/-- Constraints acted on what was seen before `p`, and on `p` too if they have no watcher left to be
notified. -/
def PropagatedBut (s : SearchState κ) (p : Literal) (ws : List Watcher) (seen : List Literal) :
    Prop :=
  ∀ r c, s.arena.get? r = some c → s.SettledOn p ws seen r c ∧
    c.kind.Spent s.assignment.trues seen ∧
      (ws.countP (fun e => decide (e.constraint = r)) = 0 →
        c.kind.Spent s.assignment.trues (seen ++ [p]))

/-! ## One literal -/

omit [CustomConstraint κ] in
theorem Visited.propagatedBut {c c' : Constraint κ} (hv : s.Visited p e.constraint true s' c c')
    (h : s.Notifying p (e :: ws)) (hhead : s.head ≤ s.assignment.trues.length)
    {seen : List Literal} (hseen : s.assignment.trues.take s.head = seen ++ [p])
    (hp : s.PropagatedBut p (e :: ws) seen) : s'.PropagatedBut p ws seen := by
  have hsub : ∀ l ∈ s.assignment.trues, l ∈ s'.assignment.trues := fun l hl =>
    hv.visit.extension.mem hl
  intro q d hd
  have hget := hd
  rw [hv.get?] at hd
  by_cases hq : q = e.constraint
  · subst hq
    rw [if_pos rfl] at hd
    cases hd
    obtain ⟨hset, hspent, -⟩ := hp _ c hv.found
    have hset' := hv.settledOn_self h hhead hseen hset
    refine ⟨hset', (hspent.similar hv.visit.similar).mono hsub, fun hnone => ?_⟩
    -- All false literals are counted, and the last report that may be counted forces the others.
    have hfull := hv.full rfl
    have hwithin := hv.visit.within rfl
    have hseen' : s'.assignment.trues.take s'.head = seen ++ [p] := by
      rw [hv.head, ← hseen]
      exact hv.visit.extension.take hhead
    obtain ⟨kind', metadata'⟩ := c'
    cases kind' with
    | cardinality k =>
      obtain ⟨-, heq⟩ := (hv.notifying h hhead).falsified_eq hseen' hget hnone hset'.1.1
      intro hslack
      exact hfull (Nat.le_antisymm hwithin (heq ▸ hslack))
    | clause k => trivial
    | parity k => trivial
    | custom k => trivial
  · rw [if_neg hq] at hd
    obtain ⟨hset, hspent, hafter⟩ := hp q d hd
    refine ⟨hv.settledOn_other hq hset, hspent.mono hsub, fun hnone => (hafter ?_).mono hsub⟩
    rw [List.countP_cons, decide_eq_false fun h => hq h.symm, hnone]
    rfl

omit [CustomConstraint κ] in
theorem Notifying.propagatedBut_skip (h : s.Notifying p (e :: ws)) {l : Literal}
    (hl : e.blocker = some l) (hlt : l ∈ s.assignment.trues) {seen : List Literal}
    (hp : s.PropagatedBut p (e :: ws) seen) :
    (s.modifyBoard (·.watch e.constraint p e.blocker)).PropagatedBut p ws seen := by
  obtain ⟨k, m, hc, -⟩ := h.clause_of_blocker hl
  intro r d hd
  obtain ⟨hset, hspent, hafter⟩ := hp r d hd
  refine ⟨(h.skip (m := 0) hl hlt).2.2 seen r d hd hset, hspent, fun hnone => ?_⟩
  by_cases hr : e.constraint = r
  · subst hr
    have hdc : d = ⟨.clause k, m⟩ := Option.some.inj (hd.symm.trans hc)
    rw [hdc]
    trivial
  · refine hafter ?_
    rw [List.countP_cons, decide_eq_false hr, hnone]
    rfl

theorem visit_total {r : Reference} {c : Constraint κ} (hc : s.arena.get? r = some c) :
    ∃ ok s', visit p r n s = .ok (ok, s') := by
  obtain ⟨board, arena, learned, order, head⟩ := s
  have hget : arena.get r = .ok c := Arena.get_eq_ok.mpr hc
  simp only [visit, hget, bind, Except.bind]
  split
  · exact ⟨false, _, rfl⟩
  · split
    · exact ⟨true, _, rfl⟩
    · exact ⟨true, _, rfl⟩

theorem notify_total (h : s.Notifying p ws) (hhead : s.head ≤ s.assignment.trues.length) :
    ∃ conflict s', notify p ws s = .ok (conflict, s') ∧ (conflict = none →
      ∀ seen, s.assignment.trues.take s.head = seen ++ [p] → s.PropagatedBut p ws seen →
        s'.PropagatedBut p [] seen) := by
  induction ws generalizing s with
  | nil => exact ⟨none, s, rfl, fun _ _ _ hp => hp⟩
  | cons e ws ih =>
    have hcon := h.onBoard.consistent
    unfold notify
    split
    · rename_i hblocker
      obtain ⟨l, hl, hsat⟩ := (Option.any_eq_true ..).mp hblocker
      have hlt : l ∈ s.assignment.trues := (hcon.isSatisfied_iff l).mp hsat
      obtain ⟨conflict, s', hrun, hset⟩ := ih (h.skip (m := 0) hl hlt).1 hhead
      exact ⟨conflict, s', hrun, fun hn seen hseen hp =>
        hset hn seen hseen (h.propagatedBut_skip hl hlt hp)⟩
    · have hpv : p.var < s.assignment.cells.size := hcon.var_lt (List.mem_of_mem_take h.mem)
      have hsized : s.board.watches.Sized s.assignment.cells.size := h.onBoard.sized.of_append
      have hmem : e ∈ (s.board.watches.append p (e :: ws)).watchersOf p := by
        rw [Watches.watchersOf_append hsized hpv, if_pos rfl]
        exact List.mem_append_right _ List.mem_cons_self
      obtain ⟨c, hc, -⟩ := h.onBoard.entries hmem
      obtain ⟨ok, s₁, hvisit⟩ := visit_total (p := p) (n := s.trailLength) hc
      rw [hvisit]
      cases ok with
      | false => exact ⟨some e.constraint, _, rfl, fun hn => by cases hn⟩
      | true =>
        obtain ⟨c, c', hv⟩ := h.visited hvisit
        have hlen := hv.visit.extension.length_le
        have hhead₁ : s₁.head ≤ s₁.assignment.trues.length := by
          rw [hv.head]
          exact Nat.le_trans hhead hlen
        obtain ⟨conflict, s', hrun, hset⟩ := ih (hv.notifying h hhead) hhead₁
        refine ⟨conflict, s', hrun, fun hn seen hseen hp => hset hn seen ?_ ?_⟩
        · rw [hv.head, ← hseen]
          exact hv.visit.extension.take hhead
        · exact hv.propagatedBut h hhead hseen hp

/-! ## The whole trail -/

omit [CustomConstraint κ] in
theorem WellFormed.propagatedBut {a : Assignment} {w : Watches} {arena : Arena κ}
    {learned : LearnedDatabase} {order : DecisionOrder Generator} {head : Nat}
    (h : (⟨⟨a, w⟩, arena, learned, order, head⟩ : SearchState κ).WellFormed)
    (hp : a.trues[head]? = some p)
    (hs : (⟨⟨a, w⟩, arena, learned, order, head⟩ : SearchState κ).Propagated) :
    (⟨⟨a, (w.takeWatchers p).2⟩, arena, learned, order, head + 1⟩ : SearchState κ).PropagatedBut p
      (w.watchersOf p) (a.trues.take head) := by
  intro r c hc
  obtain ⟨hset, hspent⟩ := hs r c hc
  refine ⟨h.settledOn hp hc hset, hspent, fun hnone => hspent.concat ?_⟩
  rw [← List.count_eq_zero, ← h.onBoard.watched hc p]
  exact hnone

theorem propagateSteps_total (h : s.WellFormed) (hn : s.numVariables + 2 ≤ n + s.head) :
    ∃ conflict s', propagateSteps n s = .ok (conflict, s') ∧
      (conflict = none → s.Propagated → s'.Propagated) := by
  induction n generalizing s with
  | zero =>
    -- The trail is not longer than there are variables.
    have hlen := h.onBoard.consistent.length_le
    have hhead := h.head_le
    simp only [numVariables] at hn
    change s.head ≤ s.board.assignment.trues.length at hhead
    omega
  | succ n ih =>
    obtain ⟨⟨a, w⟩, arena, learned, order, head⟩ := s
    unfold propagateSteps
    rw [Assignment.getElem?_trail]
    split
    · exact ⟨none, _, rfl, fun _ hp => hp⟩
    · rename_i p hp
      have hlt : head < a.trues.length := (List.getElem?_eq_some_iff.mp hp).1
      have hnot := h.notifying hp
      obtain ⟨found, s₁, hnotify, hset⟩ := notify_total hnot hlt
      obtain ⟨hf, hh, hlay, hb, -, -⟩ :=
        notify_spec (m := 0) hnot hlt List.not_mem_nil (Nat.zero_le _) hnotify
      simp only [Watches.takeWatchers] at hnotify ⊢
      rw [hnotify]
      cases found with
      | some r => exact ⟨some r, _, rfl, fun hn => by cases hn⟩
      | none =>
        have hf' : (⟨⟨a, w⟩, arena, learned, order, head⟩ : SearchState κ).Follows 0 s₁ :=
          ⟨hf.extension, hf.agree, hf.references, hf.order,
            Nat.le_trans (Nat.le_succ head) (Nat.le_of_eq hh.symm), hf.reasoned, hf.told, hf.still⟩
        have hhead₁ : s₁.head = head + 1 := hh
        have hle₁ : s₁.head ≤ s₁.assignment.trues.length := by
          rw [hhead₁]
          exact Nat.le_trans hlt hf'.extension.length_le
        have hvars : s₁.numVariables = a.numVariables := by
          show s₁.assignment.cells.size - 1 = a.cells.size - 1
          rw [hf'.extension.size]
          rfl
        have hn₁ : s₁.numVariables + 2 ≤ n + s₁.head := by
          rw [hvars, hhead₁]
          change a.numVariables + 2 ≤ n + 1 + head at hn
          omega
        obtain ⟨conflict, s', hrun, hend⟩ := ih (hf'.wellFormed h hb hlay hle₁) hn₁
        refine ⟨conflict, s', hrun, fun hc hs => hend hc ?_⟩
        have htake : a.trues.take (head + 1) = a.trues.take head ++ [p] := by
          rw [List.take_add_one, hp]
          rfl
        have hbut := hset rfl (a.trues.take head) htake (h.propagatedBut hp hs)
        intro r c hc
        obtain ⟨hsettled, -, hspent⟩ := hbut r c hc
        have htake₁ : s₁.assignment.trues.take s₁.head = a.trues.take head ++ [p] := by
          rw [hhead₁, ← htake]
          exact hf'.extension.take hlt
        rw [htake₁]
        exact ⟨hsettled.2 rfl, hspent rfl⟩

/-- Propagation has a result, and if it finds no conflict everything is propagated. -/
theorem propagate_total (h : s.WellFormed) : ∃ conflict s', s.propagate = .ok (conflict, s') ∧
    (conflict = none → s.Propagated → s'.Propagated) :=
  propagateSteps_total h (Nat.le_add_right _ _)

omit [CustomConstraint κ] in
/-- A state that is propagated to the end of its trail is a fixpoint of the naive rules. -/
theorem Propagated.closed (hp : s.Propagated) (h : s.WellFormed)
    (hhead : s.head = s.assignment.trues.length) :
    ¬ s.arena.Clashes s.assignment.trues ∧ s.arena.Exhausted s.assignment.trues := by
  have hall : ∀ r c, s.arena.get? r = some c →
      ¬ c.kind.Violated s.assignment.trues ∧ ∀ l, ¬ c.kind.Forces s.assignment.trues l := by
    intro r c hc
    obtain ⟨hset, hspent⟩ := hp r c hc
    rw [hhead, List.take_length] at hset hspent
    exact hset.closed hspent (h.onBoard.wellFormed hc) h.onBoard.consistent.functional
  constructor
  · rintro ⟨r, c, hc, hv⟩
    exact (hall r c hc).1 hv
  · exact fun r c l hc hf => (hall r c hc).2 l hf

omit [CustomConstraint κ] in
/-- What became true in a state that follows another is a naive run, up to a violated constraint. -/
theorem Follows.deduces (hf : s.Follows 0 s') (h : s'.WellFormed) :
    s.arena.Deduces s.assignment.trues s'.assignment.trues ∨
      ∃ us, s.arena.Deduces s.assignment.trues us ∧ s.arena.Clashes us := by
  have htake : s'.assignment.trues.take s.assignment.trues.length = s.assignment.trues := by
    rw [hf.extension.take (Nat.le_refl _), List.take_length]
  have hnew : ∀ {i l}, s.assignment.trues.length ≤ i → s'.assignment.trues[i]? = some l →
      l.var ∉ (s'.assignment.trues.take i).map Literal.var ∧ ∃ r c k,
        s.arena.get? r = some c ∧ c.kind.Similar k ∧ k.Explains (s'.assignment.trues.take i) l := by
    intro i l hi hl
    refine ⟨fun hmem => ?_, ?_⟩
    · obtain ⟨m, hm, hml⟩ := List.mem_map.mp hmem
      exact h.onBoard.consistent.var_ne_of_mem_take hl hm hml
    · obtain ⟨r, hr⟩ := hf.reasoned hi hl
      obtain ⟨c', hc', hexp⟩ := h.onBoard.explained hl hr
      obtain ⟨c, hc, hk, -⟩ := hf.agree.of_alive hc'
      exact ⟨r, c, c'.kind, hc, hk, hexp⟩
  have hrun := Arena.deduces_of_explained hf.extension.length_le hnew
  rw [htake] at hrun
  exact hrun.imp id fun ⟨n, hn, hclash⟩ => ⟨_, hn, hclash⟩

/-! ## States that are propagated -/

section

omit [CustomConstraint κ]

theorem Blank.propagated (ha : s.arena = .empty) : s.Propagated := by
  intro r c hc
  rw [ha] at hc
  cases hc

theorem Propagated.grow (hp : s.Propagated) (n : Nat) : (s.grow n).Propagated := by
  intro r c hc
  obtain ⟨hset, hspent⟩ := hp r c hc
  exact ⟨hset.congr_told fun x _ => numUndos_grow s n x.var r, hspent⟩

theorem Propagated.openLevel (hp : s.Propagated) : s.openLevel.Propagated := hp

/-- Decisions and facts wait behind the head. -/
theorem Extends.propagated (he : s.Extends s') (h : s.WellFormed) (hw' : s'.WellFormed)
    (hp : s.Propagated) : s'.Propagated := by
  intro r c hc
  rw [he.arena] at hc
  obtain ⟨hset, hspent⟩ := hp r c hc
  have hsub : ∀ l ∈ s.assignment.trues, l ∈ s'.assignment.trues := fun l hl => he.extension.mem hl
  rw [he.head, he.extension.take h.head_le, he.watches]
  exact ⟨hset.mono hw'.onBoard.consistent.functional hsub, hspent.mono hsub⟩

/-- A new constraint has nothing to do, if it leaves a choice at all. -/
theorem Gains.propagated {r : Reference} {c : Constraint κ} (hg : s.Gains r c s')
    (h : s.WellFormed) (hw' : s'.WellFormed) (hnew : c.kind.Fresh s.assignment.trues)
    (hspare : ∀ k, c.kind = .cardinality k → 0 < k.slack) (hp : s.Propagated) : s'.Propagated := by
  intro q d hd
  have hsub : ∀ l ∈ s.assignment.trues, l ∈ s'.assignment.trues := fun l hl =>
    hg.extension.mem hl
  rw [hg.head, hg.extension.take h.head_le]
  rcases hg.cases hd with ⟨rfl, rfl⟩ | hd
  · have hfresh := hnew.subset fun l hl => List.mem_of_mem_take (i := s.head) hl
    refine ⟨Kind.settled_of_fresh hfresh fun x _ => ?_, hfresh.spent hspare⟩
    rw [hg.numUndos_eq]
    exact h.onBoard.numUndos_of_dead hg.dead x.var
  · obtain ⟨hset, hspent⟩ := hp q d hd
    refine ⟨(hset.mono hw'.onBoard.consistent.functional hsub).congr_told fun x _ => ?_,
      hspent.mono hsub⟩
    exact hg.numUndos_eq x.var q

end

/-- Watched propagation equals naive propagation: from a state that is propagated up to its head it
has a result; there is no conflict if and only if exhaustive naive propagation meets no violated
constraint, and then both make the same literals true; a conflict is violated by the trail. -/
theorem Propagated.meets_naive (hp : s.Propagated) (h : s.WellFormed) :
    ∃ conflict s', s.propagate = .ok (conflict, s') ∧
      (∃ us, s.arena.Completes s.assignment.trues us) ∧
      (∀ us, s.arena.Completes s.assignment.trues us →
        (conflict = none ↔ ¬ s.arena.Clashes us) ∧
          (conflict = none → ∀ l, l ∈ s'.assignment.trues ↔ l ∈ us)) ∧
      (conflict = none ↔ ∀ us, s.arena.Deduces s.assignment.trues us → ¬ s.arena.Clashes us) ∧
      ∀ r ∈ conflict, ∃ c, s'.arena.get? r = some c ∧ c.kind.Violated s'.assignment.trues := by
  obtain ⟨conflict, s', hrun, hpropagated⟩ := propagate_total h
  obtain ⟨hf, hw', hhead', -, hviolated⟩ := propagate_spec h (Nat.zero_le _) hrun
  have hcon := h.onBoard.consistent
  have hfun : Functional s.assignment.trues := hcon.functional
  have hwf : ∀ r c, s.arena.get? r = some c → c.kind.WellFormed s.assignment.cells.size :=
    fun _ _ hc => h.onBoard.wellFormed hc
  obtain ⟨vs, hvs⟩ := Arena.exists_completes hwf hcon.nodup_var (fun l hl => hcon.var_lt hl) .refl
  refine ⟨conflict, s', hrun, ⟨vs, hvs⟩, ?_⟩
  cases conflict with
  | none =>
    obtain ⟨hno, hex⟩ := (hpropagated rfl hp).closed hw' hhead'
    rw [hf.agree.clashes_iff] at hno
    have hstays : ∀ us, s.arena.Deduces s.assignment.trues us → ¬ s.arena.Clashes us := by
      intro us hus hclash
      refine hno (hclash.mono hw'.onBoard.consistent.functional ?_)
      exact hus.subset_of_exhausted hwf hw'.onBoard.consistent.functional
        (fun l hl => hf.extension.mem hl) (hf.agree.exhausted hex) hno
    have hdeduced : s.arena.Deduces s.assignment.trues s'.assignment.trues :=
      (hf.deduces hw').resolve_right fun ⟨us, hus, hclash⟩ => hstays us hus hclash
    refine ⟨fun us hus => ⟨⟨fun _ => hstays us hus.1, fun _ => rfl⟩, fun _ => ?_⟩,
      ⟨fun _ => hstays, fun _ => rfl⟩, fun r hr => by cases hr⟩
    exact (Arena.Completes.confluent ⟨hdeduced, hf.agree.exhausted hex⟩ hus hwf hfun hno).2
  | some r =>
    obtain ⟨c, hc, hv⟩ := hviolated r rfl
    have hclash : ∃ us, s.arena.Deduces s.assignment.trues us ∧ s.arena.Clashes us := by
      rcases hf.deduces hw' with hrun' | hclash
      · exact ⟨_, hrun', hf.agree.clashes_iff.mp ⟨r, c, hc, hv⟩⟩
      · exact hclash
    have hall : ∀ us, s.arena.Completes s.assignment.trues us → s.arena.Clashes us := by
      intro us hus
      by_contra hno
      obtain ⟨ws, hws, hclash⟩ := hclash
      refine hno (hclash.mono (hus.1.functional hfun) ?_)
      exact hws.subset_of_exhausted hwf (hus.1.functional hfun) hus.1.subset hus.2 hno
    refine ⟨fun us hus => ⟨⟨fun hn => (by cases hn), fun hno => absurd (hall us hus) hno⟩,
      fun hn => by cases hn⟩, ⟨fun hn => (by cases hn), fun hno => ?_⟩, hviolated⟩
    exact absurd (hall vs hvs) (hno vs hvs.1)

/-- After a decision against one literal of a binary clause the other one becomes true. -/
theorem meets_naive_of_decision :
    ∃ s : SearchState Empty, s.WellFormed ∧ s.Propagated ∧
      s.assignment.trues = [.make 1 false] ∧
      ∃ us, s.arena.Completes s.assignment.trues us ∧ ¬ s.arena.Clashes us ∧
        ∀ l, l ∈ [Literal.make 1 false, .make 2 true] ↔ l ∈ us := by
  -- Two variables, a clause over them, and a decision.
  let c : Constraint Empty := ⟨.clause ⟨.make 1 true, .make 2 true, []⟩, .ofHandle 0⟩
  let s₀ : SearchState Empty := (SearchState.make Options.standard).grow 2
  let s₁ : SearchState Empty := (s₀.attach c).2.2
  let s₂ : SearchState Empty := (s₁.openLevel.enqueue (.make 1 false)).2
  have hblank := blank_make (κ := Empty) Options.standard
  have hw₀ : s₀.WellFormed := hblank.wellFormed.grow 2
  have hp₀ : s₀.Propagated := (Blank.propagated rfl).grow 2
  have hknown : ∀ l ∈ [Literal.make 1 true, .make 2 true], l.var ≠ 0 ∧ l.var < 3 := by decide
  have hattach : s₀.attach c = ((s₀.attach c).1, (s₀.attach c).2.1, s₁) := rfl
  obtain ⟨-, hw₁, hgains, -, -⟩ := attach_spec hw₀ (c := c) ⟨by decide, hknown⟩ rfl hattach
  have hp₁ : s₁.Propagated := hgains.propagated hw₀ hw₁ (fun _ _ => List.not_mem_nil)
    (fun k hk => by cases hk) hp₀
  obtain ⟨hextends, hw₂, -⟩ := enqueue_spec (hw₁.openLevel rfl) (l := .make 1 false)
    ⟨by decide, by decide +kernel⟩
  have hp₂ : s₂.Propagated := hextends.propagated (hw₁.openLevel rfl) hw₂ hp₁.openLevel
  obtain ⟨conflict, s', hrun, ⟨us, hus⟩, hall, -⟩ := hp₂.meets_naive hw₂
  have hend : s₂.propagate.toOption.map (fun r => (r.1, r.2.assignment.trues)) =
      some (none, [.make 1 false, .make 2 true]) := by decide +kernel
  rw [hrun] at hend
  simp only [Except.toOption, Option.map_some, Option.some.injEq, Prod.mk.injEq] at hend
  obtain ⟨hnone, htrues⟩ := hend
  refine ⟨s₂, hw₂, hp₂, rfl, us, hus, (hall us hus).1.mp hnone, ?_⟩
  rw [← htrues]
  exact (hall us hus).2 hnone

end SearchState

end ClauseLearning
