import ClauseLearning.Proofs.Progress

/-!
# What constraints acted on

A constraint acted on some literals (`Arena.Acted`) if it was notified of them and did its part: it
is settled on them, and if they leave it no false literal to spare, what it forces has a value. It
may have done so with nothing true but those literals (`SearchState.ActedAt`), as before a level is
opened. Then whatever happens behind them does not matter: watches move from one such literal to
another, and reports are counted and taken back for others.

* `SearchState.actedAt_propagate`: propagation does not matter to the literals before the head, with
  or without a conflict.
* `SearchState.Gains.acted`, `SearchState.Rewinds.actedAt`: neither do new constraints that acted,
  nor taking back what is behind.
-/

namespace ClauseLearning

variable {κ : Type}

/-- Every constraint acted on the literals in `seen`, while those in `trues` were true. -/
def Arena.Acted (s : Arena κ) (w : Watches) (trues seen : List Literal) : Prop :=
  ∀ r c, s.get? r = some c →
    c.kind.Settled trues seen (fun v => w.numUndos v r) ∧ c.kind.Spent trues seen

namespace Arena.Acted

variable {s s' : Arena κ} {w w' : Watches} {trues seen : List Literal}

/-- It is enough that a constraint is as settled as it was. -/
theorem transfer (h : s.Acted w trues seen)
    (hall : ∀ r c', s'.get? r = some c' → ∃ c, s.get? r = some c ∧ c.kind.Similar c'.kind ∧
      (∀ told, c.kind.Settled trues seen told → c'.kind.Settled trues seen told) ∧
      ∀ x ∈ seen, w'.numUndos x.var r = w.numUndos x.var r) : s'.Acted w' trues seen := by
  intro r c' hc'
  obtain ⟨c, hc, hsim, hset, htold⟩ := hall r c' hc'
  obtain ⟨hsettled, hspent⟩ := h r c hc
  exact ⟨(hset _ hsettled).congr_told htold, hspent.similar hsim⟩

/-- Constraints may go, be tagged anew, and lose their reasons. -/
theorem congr (h : s.Acted w trues seen)
    (hall : ∀ r c', s'.get? r = some c' → ∃ c, s.get? r = some c ∧ c.kind = c'.kind ∧
      ∀ v, w'.numUndos v r = w.numUndos v r) : s'.Acted w' trues seen :=
  h.transfer fun r c' hc' => by
    obtain ⟨c, hc, hkind, htold⟩ := hall r c' hc'
    exact ⟨c, hc, hkind ▸ .refl _, fun told hset => hkind ▸ hset, fun x _ => htold x.var⟩

theorem mono (h : s.Acted w trues seen) {us : List Literal} (hus : Functional us)
    (hsub : ∀ l ∈ trues, l ∈ us) : s.Acted w us seen := fun r c hc =>
  ⟨(h r c hc).1.mono hus hsub, (h r c hc).2.mono hsub⟩

end Arena.Acted

namespace SearchState

variable {s s' : SearchState κ} {p : Literal} {e : Watcher} {ws : List Watcher} {n m : Nat}
  {trues seen : List Literal}

/-! ## Propagation -/

/-- A visit does not matter to literals before the one that the constraint is notified of. -/
theorem Visited.acted {r : Reference} {ok : Bool} {c c' : Constraint κ}
    (hv : s.Visited p r ok s' c c') (hcon : s.assignment.Consistent) (hmem : p ∈ s.assignment.trues)
    (hseen : ∀ x ∈ seen, x ∈ s.assignment.trues) (hp : p ∉ seen)
    (h : s.arena.Acted s.board.watches trues seen) :
    s'.arena.Acted s'.board.watches trues seen := by
  refine h.transfer fun q d hd => ?_
  have htold : ∀ x ∈ seen, s'.board.watches.numUndos x.var q = s.board.watches.numUndos x.var q :=
    fun x hx => hv.told hcon hmem (hseen x hx) (fun hxp => hp (hxp ▸ hx)) q
  rw [hv.get?] at hd
  split at hd
  · rename_i hq
    cases hd
    subst hq
    exact ⟨c, hv.found, hv.visit.similar, fun told hset => hv.visit.still hseen hp hset, htold⟩
  · exact ⟨d, hd, .refl _, fun told hset => hset, htold⟩

variable [CustomConstraint κ]

theorem acted_notify (h : s.Notifying p ws) (hhead : s.head ≤ s.assignment.trues.length)
    (hseen : ∀ x ∈ seen, x ∈ s.assignment.trues) (hp : p ∉ seen) {conflict : Option Reference}
    (hrun : notify p ws s = .ok (conflict, s')) (ha : s.arena.Acted s.board.watches trues seen) :
    s'.arena.Acted s'.board.watches trues seen := by
  induction ws generalizing s with
  | nil =>
    cases hrun
    exact ha
  | cons e ws ih =>
    have hcon := h.onBoard.consistent
    have hmem : p ∈ s.assignment.trues := List.mem_of_mem_take h.mem
    unfold notify at hrun
    split at hrun
    · rename_i hblocker
      obtain ⟨l, hl, hsat⟩ := (Option.any_eq_true ..).mp hblocker
      have hlt : l ∈ s.assignment.trues := (hcon.isSatisfied_iff l).mp hsat
      exact ih (h.skip (m := 0) hl hlt).1 hhead hseen hrun ha
    · obtain ⟨⟨ok, s₁⟩, hvisit, hrun⟩ := ok_of_bind hrun
      obtain ⟨c, c', hv⟩ := h.visited hvisit
      have ha₁ := hv.acted hcon hmem hseen hp ha
      cases ok with
      | true =>
        have hhead₁ : s₁.head ≤ s₁.assignment.trues.length := by
          rw [hv.head]
          exact Nat.le_trans hhead hv.visit.extension.length_le
        exact ih (hv.notifying h hhead) hhead₁
          (fun x hx => hv.visit.extension.mem (hseen x hx)) hrun
          ha₁
      | false =>
        cases hrun
        exact ha₁

theorem acted_propagateSteps (h : s.WellFormed) (hm : m ≤ s.head) {conflict : Option Reference}
    (hrun : propagateSteps n s = .ok (conflict, s'))
    (ha : s.arena.Acted s.board.watches trues (s.assignment.trues.take m)) :
    s'.arena.Acted s'.board.watches trues (s.assignment.trues.take m) := by
  induction n generalizing s with
  | zero => cases hrun
  | succ n ih =>
    obtain ⟨⟨a, w⟩, arena, learned, order, head⟩ := s
    unfold propagateSteps at hrun
    rw [Assignment.getElem?_trail] at hrun
    split at hrun
    · cases hrun
      exact ha
    · rename_i p hp
      have hlt : head < a.trues.length := (List.getElem?_eq_some_iff.mp hp).1
      have hnot := h.notifying hp
      have hpm : p ∉ a.trues.take m := fun hmem =>
        h.onBoard.consistent.var_ne_of_mem_take hp (List.take_subset_take_left _ hm hmem) rfl
      obtain ⟨⟨found, s₁⟩, hnotify, hrun⟩ := ok_of_bind hrun
      have ha₁ := acted_notify hnot hlt (fun x hx => List.mem_of_mem_take hx) hpm hnotify ha
      cases found with
      | some r =>
        cases hrun
        exact ha₁
      | none =>
        obtain ⟨hf, hh, hlay, hb, -⟩ :=
          notify_spec hnot hlt hpm (Nat.le_trans hm (Nat.le_of_lt hlt)) hnotify
        have hle₁ : s₁.head ≤ s₁.assignment.trues.length :=
          hh ▸ Nat.le_trans hlt hf.extension.length_le
        have htake : s₁.assignment.trues.take m = a.trues.take m :=
          hf.extension.take (Nat.le_trans hm (Nat.le_of_lt hlt))
        have hf' : (⟨⟨a, w⟩, arena, learned, order, head⟩ : SearchState κ).Follows m s₁ :=
          ⟨hf.extension, hf.agree, hf.references, hf.order,
            Nat.le_trans (Nat.le_succ head) (Nat.le_of_eq hh.symm), hf.reasoned, hf.told, hf.still⟩
        have hend := ih (hf'.wellFormed h hb hlay hle₁)
          (Nat.le_trans hm (hh ▸ Nat.le_succ head)) hrun (htake ▸ ha₁)
        rwa [htake] at hend

/-- The constraints acted on the first `m` literals of the trail, with nothing true but those. -/
def ActedAt (m : Nat) (s : SearchState κ) : Prop :=
  s.arena.Acted s.board.watches (s.assignment.trues.take m) (s.assignment.trues.take m)

/-- Propagation does not matter to the literals that were propagated before. -/
theorem actedAt_propagate (h : s.WellFormed) (hm : m ≤ s.head) {conflict : Option Reference}
    (hrun : s.propagate = .ok (conflict, s')) (ha : s.ActedAt m) : s'.ActedAt m := by
  obtain ⟨hf, -⟩ := propagate_spec h hm hrun
  unfold ActedAt
  rw [hf.extension.take (Nat.le_trans hm h.head_le)]
  exact acted_propagateSteps h hm hrun ha

/-- A conflict takes something to notify of. -/
theorem head_lt_of_conflict (h : s.WellFormed) {r : Reference}
    (hrun : s.propagate = .ok (some r, s')) : s.head < s'.head := by
  obtain ⟨hf, -, hhead, -⟩ := propagate_spec h (Nat.zero_le _) hrun
  have hlt : s.head < s.assignment.trues.length := by
    refine Nat.lt_of_le_of_ne h.head_le fun hend => ?_
    obtain ⟨⟨a, w⟩, arena, learned, order, head⟩ := s
    have hnone : a.trail[head]? = none := by
      rw [Assignment.getElem?_trail, List.getElem?_eq_none_iff]
      exact Nat.le_of_eq hend.symm
    simp only [propagate, propagateSteps, hnone, Except.ok.injEq, Prod.mk.injEq] at hrun
    cases hrun.1
  rw [hhead]
  exact Nat.lt_of_lt_of_le hlt hf.extension.length_le

/-! ## Other operations -/

section

omit [CustomConstraint κ]

theorem actedAt_of_propagated (hp : s.Propagated) (hhead : s.head = s.assignment.trues.length) :
    s.ActedAt s.assignment.trues.length := by
  have hacted : s.arena.Acted s.board.watches s.assignment.trues
      (s.assignment.trues.take s.head) := hp
  unfold ActedAt
  rw [hhead] at hacted
  rwa [List.take_length] at hacted ⊢

theorem propagated_of_actedAt (hhead : s.head = s.assignment.trues.length)
    (ha : s.ActedAt s.assignment.trues.length) : s.Propagated := by
  have hacted : s.arena.Acted s.board.watches s.assignment.trues s.assignment.trues := by
    unfold ActedAt at ha
    rwa [List.take_length] at ha
  unfold Propagated
  rw [hhead, List.take_length]
  exact hacted

/-- What becomes true behind some literals does not matter to them. -/
theorem Extends.actedAt (he : s.Extends s') (hm : m ≤ s.assignment.trues.length)
    (ha : s.ActedAt m) : s'.ActedAt m := by
  unfold ActedAt
  rw [he.extension.take hm, he.watches, he.arena]
  exact ha

/-- A new constraint that acted on the literals is one more that did. -/
theorem Gains.acted {r : Reference} {c : Constraint κ} (hg : s.Gains r c s') {us : List Literal}
    (hus : Functional us) (hsub : ∀ l ∈ trues, l ∈ us)
    (hnew : c.kind.Settled us seen (fun v => s.board.watches.numUndos v r) ∧ c.kind.Spent us seen)
    (ha : s.arena.Acted s.board.watches trues seen) :
    s'.arena.Acted s'.board.watches us seen := by
  intro q d hd
  rcases hg.cases hd with ⟨rfl, rfl⟩ | hd
  · exact ⟨hnew.1.congr_told fun x _ => hg.numUndos_eq x.var q, hnew.2⟩
  · obtain ⟨hset, hspent⟩ := ha.mono hus hsub q d hd
    exact ⟨hset.congr_told fun x _ => hg.numUndos_eq x.var q, hspent⟩

theorem Gains.actedAt {r : Reference} {c : Constraint κ} (hg : s.Gains r c s')
    (hcon : s.assignment.Consistent) (hm : m ≤ s.assignment.trues.length)
    (hnew : c.kind.Settled (s.assignment.trues.take m) (s.assignment.trues.take m)
        (fun v => s.board.watches.numUndos v r) ∧
      c.kind.Spent (s.assignment.trues.take m) (s.assignment.trues.take m))
    (ha : s.ActedAt m) : s'.ActedAt m := by
  unfold ActedAt
  rw [hg.extension.take hm]
  refine hg.acted (fun l hl l' hl' hv => ?_) (fun l hl => hl) hnew ha
  exact hcon.eq_of_var (List.mem_of_mem_take hl) (List.mem_of_mem_take hl') hv

/-- Taking back what is behind some literals does not matter to them. -/
theorem Rewinds.actedAt {k : Nat} (hr : s.Rewinds k s') (hm : m ≤ k) (ha : s.ActedAt m) :
    s'.ActedAt m := by
  unfold ActedAt
  rw [hr.cut.take hm]
  refine ha.transfer fun r c' hc' => ?_
  obtain ⟨c, i, hc, rfl⟩ := hr.recounted.of_alive hc'
  refine ⟨c, hc, Kind.similar_recounted i c.kind, fun told hset => ?_, fun x hx => ?_⟩
  · exact (Kind.settled_recounted i _ _ told c.kind).mpr hset
  · exact hr.told x (List.take_subset_take_left _ hm hx) r

end

end SearchState

end ClauseLearning
