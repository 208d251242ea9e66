import ClauseLearning.Engine.Solve
import ClauseLearning.Proofs.Analysis
import ClauseLearning.Proofs.Assumptions

/-!
# Learning from a conflict

A conflict above the root is resolved: the engine goes back below the current level and the learned
clause, which the constraints imply, forces its first literal there. Everything that a step of the
search promises is gathered in `Engine.Advances`.

* `SearchState.Tunes`: activities and block distances do not matter.
* `Engine.learnUnit_spec`, `Engine.learnClause_spec`: what is done with the clause.
* `Engine.resolveConflict_spec`: a conflict above the root leaves everything settled; one at the
  root shows that the constraints have no model.
-/

namespace ClauseLearning

variable {κ : Type}

theorem le_foldl_max {α : Type} (f : α → Nat) (xs : List α) (n : Nat) :
    n ≤ xs.foldl (fun n x => max n (f x)) n ∧
      ∀ x ∈ xs, f x ≤ xs.foldl (fun n x => max n (f x)) n := by
  induction xs generalizing n with
  | nil => exact ⟨Nat.le_refl n, fun x hx => by cases hx⟩
  | cons y ys ih =>
    obtain ⟨hle, hall⟩ := ih (max n (f y))
    refine ⟨Nat.le_trans (Nat.le_max_left _ _) hle, fun x hx => ?_⟩
    rcases List.mem_cons.mp hx with rfl | hx
    · exact Nat.le_trans (Nat.le_max_right _ _) hle
    · exact hall x hx

theorem foldl_max_eq {α : Type} (f : α → Nat) (xs : List α) (n : Nat) :
    xs.foldl (fun n x => max n (f x)) n = n ∨
      ∃ x ∈ xs, f x = xs.foldl (fun n x => max n (f x)) n := by
  induction xs generalizing n with
  | nil => exact Or.inl rfl
  | cons y ys ih =>
    rcases ih (max n (f y)) with heq | ⟨x, hx, heq⟩
    · rcases Nat.le_total (f y) n with hle | hle
      · exact Or.inl (heq.trans (Nat.max_eq_left hle))
      · exact Or.inr ⟨y, List.mem_cons_self, (heq.trans (Nat.max_eq_right hle)).symm⟩
    · exact Or.inr ⟨x, List.mem_cons_of_mem _ hx, heq⟩

namespace SearchState

/-- Activities, block distances and the order of decisions may differ. -/
structure Tunes (s s' : SearchState κ) : Prop where
  board : s'.board = s.board
  arena : s.arena.Retagged s'.arena
  references : s'.learned.references = s.learned.references
  order : s.order.SameKeys s'.order
  head : s'.head = s.head

namespace Tunes

variable {s s' : SearchState κ}

theorem assignment (h : s.Tunes s') : s'.assignment = s.assignment :=
  congrArg Board.assignment h.board

theorem wellFormed (h : s.Tunes s') (hw : s.WellFormed) : s'.WellFormed := by
  have ha := h.assignment
  refine ⟨?_, ?_, ?_, ?_, h.arena.agree.tidy hw.tidy, hw.lists.agree h.references h.arena.agree,
    ?_, ?_⟩
  · rw [h.board, h.head]
    exact h.arena.onBoard hw.onBoard
  · rw [ha]
    exact hw.layered
  · rw [ha, h.head]
    exact hw.head_le
  · rw [ha, h.head]
    exact hw.starts_le
  · rw [ha]
    exact h.order.wellFormed hw.order
  · rw [ha]
    exact h.order.offers hw.offers

theorem retains (h : s.Tunes s') : s.Retains s' :=
  .of_agree h.arena.agree fun _ hl => h.assignment ▸ hl

theorem admits (h : s.Tunes s') {ν : Valuation} (ha : s.Admits ν) : s'.Admits ν := by
  refine ⟨fun hc => h.arena.agree.holds ha.holds hc, ?_⟩
  rw [h.assignment]
  exact ha.facts

theorem grounded (h : s.Tunes s') (hg : s.Grounded) : s'.Grounded := by
  intro m hm
  rw [h.assignment] at hm ⊢
  rw [h.board]
  exact h.arena.settles (hg m hm)

theorem upToDate (h : s.Tunes s') (hu : s.UpToDate) : s'.UpToDate := by
  refine ⟨h.grounded hu.grounded, ?_⟩
  rw [h.assignment, h.board, h.head]
  exact h.arena.settles hu.settles

end Tunes

theorem mem_backtrack [CustomConstraint κ] {level : Nat} {s s' : SearchState κ} (hw : s.WellFormed)
    (hrun : s.backtrack level = .ok s') {l : Literal} (hl : l ∈ s.assignment.trues)
    (hlevel : s.assignment.levelOf l.var ≤ level) : l ∈ s'.assignment.trues := by
  rcases backtrack_spec hw hrun with ⟨-, rfl⟩ | ⟨-, hr, -⟩
  · exact hl
  · obtain ⟨i, hi⟩ := List.mem_iff_getElem?.mp hl
    have hlt : i < s.assignment.trail.size := by
      rw [Assignment.size_trail]
      exact (List.getElem?_eq_some_iff.mp hi).1
    have hat : s.assignment.levelOf l.var = s.assignment.levelAt i :=
      hw.onBoard.consistent.levelOf_eq hi
    rw [hat] at hlevel
    rw [hr.cut.trues]
    exact mem_take_iff.mpr ⟨i, (Assignment.lt_startOfLevel_iff hw.layered.sorted hlt).mpr hlevel,
      hi⟩

theorem size_backtrack [CustomConstraint κ] {level : Nat} {s s' : SearchState κ} (hw : s.WellFormed)
    (hrun : s.backtrack level = .ok s') :
    s'.assignment.cells.size = s.assignment.cells.size ∧ s'.order.allowed = s.order.allowed ∧
      s'.learned = s.learned := by
  rcases backtrack_spec hw hrun with ⟨-, rfl⟩ | ⟨-, hr, -⟩
  · exact ⟨rfl, rfl, rfl⟩
  · exact ⟨hr.cut.size, hr.allowed, hr.learned⟩

end SearchState

namespace Engine

/-- What holds between any two steps. -/
structure WellFormed (e : Engine κ) : Prop where
  search : e.search.WellFormed
  clean : e.analyser.Clean e.search.assignment.cells.size

def Honours (e : Engine κ) : Prop := e.search.assignment.Honours e.control.assumptions

/-- What is promised of whatever happens between two additions. Only while nothing is restricted is
nothing more asked for. -/
structure Keeps (e e' : Engine κ) : Prop where
  wellFormed : e'.WellFormed
  size : e.search.assignment.cells.size ≤ e'.search.assignment.cells.size
  retains : e.search.Retains e'.search
  admits : e'.control.restricted = false → ∀ ν, e.search.Admits ν → e'.search.Admits ν
  restricted : e.control.restricted = true → e'.control.restricted = true
  infeasible : e'.control.infeasible = true → e.control.infeasible = true ∨
    e.control.restricted = false ∧ ∀ ν, ¬ e.search.Admits ν
  allowed : e'.search.order.allowed = none ↔ e.search.order.allowed = none
  free : e.search.order.allowed = none → e'.control.restricted = e.control.restricted

/-- What a step of the search promises. -/
structure Advances (e e' : Engine κ) : Prop extends Keeps e e' where
  honours : e.Honours → e'.Honours
  assumptions : e'.control.assumptions = e.control.assumptions

namespace Keeps

theorem refl {e : Engine κ} (h : e.WellFormed) : e.Keeps e :=
  ⟨h, Nat.le_refl _, .refl _, fun _ _ h => h, fun h => h, Or.inl, Iff.rfl, fun _ => rfl⟩

theorem restricted_eq_false {e e' : Engine κ} (h : e.Keeps e')
    (hr : e'.control.restricted = false) : e.control.restricted = false := by
  by_contra hne
  have := h.restricted (by simpa using hne)
  rw [hr] at this
  cases this

theorem trans {e₁ e₂ e₃ : Engine κ} (h : e₁.Keeps e₂) (h' : e₂.Keeps e₃) : e₁.Keeps e₃ := by
  refine ⟨h'.wellFormed, Nat.le_trans h.size h'.size, h.retains.trans h'.retains,
    fun hr ν hν => h'.admits hr ν (h.admits (h'.restricted_eq_false hr) ν hν),
    fun hr => h'.restricted (h.restricted hr), fun hi => ?_, h'.allowed.trans h.allowed,
    fun ha => (h'.free (h.allowed.mpr ha)).trans (h.free ha)⟩
  rcases h'.infeasible hi with hi | ⟨hr, hnone⟩
  · exact h.infeasible hi
  · exact Or.inr ⟨h.restricted_eq_false hr, fun ν hν => hnone ν (h.admits hr ν hν)⟩

end Keeps

namespace Advances

theorem refl {e : Engine κ} (h : e.WellFormed) : e.Advances e := ⟨.refl h, fun h => h, rfl⟩

theorem trans {e₁ e₂ e₃ : Engine κ} (h : e₁.Advances e₂) (h' : e₂.Advances e₃) : e₁.Advances e₃ :=
  ⟨h.toKeeps.trans h'.toKeeps, fun hh => h'.honours (h.honours hh),
    h'.assumptions.trans h.assumptions⟩

/-- The variables of the assumptions stay known. -/
theorem known {e e' : Engine κ} (h : e.Advances e')
    (hknown : ∀ l ∈ e.control.assumptions, l.Known e.search.assignment.cells.size) :
    ∀ l ∈ e'.control.assumptions, l.Known e'.search.assignment.cells.size := by
  intro l hl
  rw [h.assumptions] at hl
  exact (hknown l hl).mono h.size

/-- A step that asks for nothing more under any restriction. -/
theorem of_search {search search' : SearchState κ} {analyser analyser' : Analyser}
    {control control' : Control} (hw : search'.WellFormed)
    (hclean : analyser'.Clean search'.assignment.cells.size)
    (hsize : search'.assignment.cells.size = search.assignment.cells.size)
    (hretains : search.Retains search') (hadmits : ∀ ν, search.Admits ν → search'.Admits ν)
    (hhonours : search.assignment.Honours control.assumptions →
      search'.assignment.Honours control.assumptions)
    (hallowed : search'.order.allowed = search.order.allowed)
    (ha : control'.assumptions = control.assumptions)
    (hi : control'.infeasible = control.infeasible)
    (hr : control'.restricted = control.restricted) :
    Advances ⟨search, analyser, control⟩ ⟨search', analyser', control'⟩ := by
  refine ⟨⟨⟨hw, hclean⟩, Nat.le_of_eq hsize.symm, hretains, fun _ => hadmits, fun h => hr.trans h,
    fun h => Or.inl (hi.symm.trans h), ?_, fun _ => hr⟩, fun hh => ?_, ha⟩
  · show search'.order.allowed = none ↔ search.order.allowed = none
    rw [hallowed]
  · show search'.assignment.Honours control'.assumptions
    rw [ha]
    exact hhonours hh

end Advances

/-- Activities do not matter. -/
theorem decay_spec {e : Engine κ} (h : e.WellFormed) :
    e.Advances e.decay ∧ e.search.Tunes e.decay.search := by
  obtain ⟨⟨board, arena, learned, order, head⟩, analyser, control⟩ := e
  have ht : (⟨board, arena, learned, order, head⟩ : SearchState κ).Tunes
      ⟨board, arena, learned.decay, order.decay, head⟩ :=
    ⟨rfl, .refl _, rfl, DecisionOrder.sameKeys_decay h.search.order.valid, rfl⟩
  exact ⟨.of_search (ht.wellFormed h.search) h.clean rfl ht.retains (fun ν hν => ht.admits hν)
    (fun hh => hh) rfl rfl rfl rfl, ht⟩

variable [CustomConstraint κ]

/-! ## Going back -/

theorem backtrack_spec {level : Nat} {e e' : Engine κ} (h : e.WellFormed)
    (hrun : e.backtrack level = .ok e') :
    e.Advances e' ∧ e.search.backtrack level = .ok e'.search ∧ e'.control = e.control := by
  obtain ⟨search, analyser, control⟩ := e
  obtain ⟨search', hback, hrun⟩ := ok_of_bind hrun
  cases hrun
  have hw := h.search
  obtain ⟨hsize, hallowed, -⟩ := SearchState.size_backtrack hw hback
  refine ⟨.of_search (hw.backtrack hback) ?_ hsize (.backtrack hw hback)
    (fun ν hν => hν.backtrack hw hback) (fun hh => SearchState.honours_backtrack hw hback hh)
    hallowed rfl rfl rfl, hback, rfl⟩
  rw [hsize]
  exact h.clean

/-! ## The learned clause -/

/-- A learned literal becomes a root fact. -/
theorem learnUnit_spec {l : Literal} {n : Nat} {e e' : Engine κ} (h : e.WellFormed)
    (hl : l.Known e.search.assignment.cells.size)
    (himplied : ∀ ν, e.search.Admits ν → l.holds ν = true) (hlevel : 0 < e.search.decisionLevel)
    (hrun : e.learnUnit l n = .ok e') :
    e.Advances e' ∧ (e.search.Grounded → e'.search.UpToDate) := by
  obtain ⟨search, analyser, control⟩ := e
  obtain ⟨search', hback, hrun⟩ := ok_of_bind hrun
  cases hrun
  have hw : search.WellFormed := h.search
  have hw' := hw.backtrack hback
  obtain ⟨hsize, hallowed, -⟩ := SearchState.size_backtrack hw hback
  have hl' : l.Known search'.assignment.cells.size := by rw [hsize]; exact hl
  obtain ⟨he, hw'', hq⟩ := SearchState.enqueue_spec hw' hl'
  have hsize' : (search'.enqueue l).2.assignment.cells.size = search.assignment.cells.size :=
    he.extension.size.trans hsize
  have hroot : (search'.enqueue l).2.assignment.decisionLevel = 0 := by
    have hstarts : (search'.enqueue l).2.assignment.decisionLevel = search'.decisionLevel :=
      congrArg Array.size he.extension.starts
    rw [hstarts, SearchState.decisionLevel_backtrack hw hback, Nat.zero_min]
  refine ⟨.of_search hw'' ?_ hsize'
    ((SearchState.Retains.backtrack hw hback).trans (he.retains hw'))
    (fun ν hν => ?_) (fun _ => .of_root hroot) ?_ rfl rfl rfl, fun hg => ?_⟩
  · rw [hsize']
    exact h.clean
  · exact (hν.backtrack hw hback).enqueue hw' hl' fun _ => himplied ν hν
  · exact (congrArg DecisionOrder.allowed he.order).trans hallowed
  · exact (hg.backtrack hw hlevel hback).extend hw' he hq.consistent

/-- A learned clause forces its first literal at a lower level. -/
theorem learnClause_spec {k : Clause} {level n : Nat} {e e' : Engine κ} (h : e.WellFormed)
    (hk : (Kind.clause k : Kind κ).WellFormed e.search.assignment.cells.size)
    (hrest : ∀ m ∈ k.second :: k.rest, -m ∈ e.search.assignment.trues ∧
      e.search.assignment.levelOf m.var ≤ level)
    (himplied : ∀ ν, e.search.Admits ν → ∃ m ∈ k.literals, m.holds ν = true)
    (hlevel : level < e.search.decisionLevel) (hrun : e.learnClause k level n = .ok e') :
    e.Advances e' ∧ (e.search.Grounded → e'.search.UpToDate) := by
  obtain ⟨⟨board, arena, learned, order, head⟩, analyser, control⟩ := e
  rcases hage : learned.nextAge with ⟨age, learned₁⟩
  rcases hmeasure : learned₁.measure board.assignment k.literals with ⟨lbd, learned₂⟩
  simp only [learnClause, hage, hmeasure] at hrun
  have hrefs₁ : learned₁.references = learned.references := (congrArg (·.2.references) hage).symm
  have hrefs₂ : learned₂.references = learned₁.references :=
    (congrArg (·.2.references) hmeasure).symm
  have htunes : (⟨board, arena, learned, order, head⟩ : SearchState κ).Tunes
      ⟨board, arena, learned₂, order, head⟩ :=
    ⟨rfl, .refl _, hrefs₂.trans hrefs₁, .refl h.search.order.valid, rfl⟩
  obtain ⟨search', hback, hrun⟩ := ok_of_bind hrun
  cases hrun
  have hw := htunes.wellFormed h.search
  have hw' := hw.backtrack hback
  obtain ⟨hsize, hallowed, -⟩ := SearchState.size_backtrack hw hback
  have hk' : (Kind.clause k : Kind κ).WellFormed search'.assignment.cells.size := by
    rw [hsize]
    exact hk
  have hfalse : ∀ m ∈ k.second :: k.rest, -m ∈ search'.assignment.trues := by
    intro m hm
    obtain ⟨hf, hle⟩ := hrest m hm
    exact SearchState.mem_backtrack hw hback hf (by rw [Literal.var_negate]; exact hle)
  obtain ⟨r, c, hkind, hsim, hw'', hgains, -⟩ :=
    SearchState.learn_spec (m := .learnedAt age) hw' hk' rfl hfalse
  have hsize' := hgains.extension.size.trans hsize
  refine ⟨.of_search hw'' ?_ hsize' ((htunes.retains.trans (.backtrack hw hback)).trans
    (hgains.retains hw')) (fun ν hν => ?_) (fun hh => ?_) ?_ rfl rfl rfl, fun hg => ?_⟩
  · rw [hsize']
    exact h.clean
  · refine hgains.admits hw' ((htunes.admits hν).backtrack hw hback) ?_
    rw [hkind]
    exact himplied ν hν
  · refine (SearchState.honours_backtrack hw hback hh).extend hw'.onBoard.consistent
      hgains.extension fun hi hl => ⟨r, hgains.forced hi hl⟩
  · exact (congrArg DecisionOrder.allowed hgains.order).trans hallowed
  · refine hgains.upToDate hw' hw'' ((htunes.grounded hg).backtrack hw hlevel hback) (Or.inl ?_)
    exact hsim.learned

/-! ## Conflicts -/

omit [CustomConstraint κ] in
theorem le_highestLevel (a : Assignment) {ls : List Literal} {l : Literal} (hl : l ∈ ls) :
    a.levelOf l.var ≤ highestLevel a ls :=
  (le_foldl_max (fun l => a.levelOf l.var) ls 0).2 l hl

omit [CustomConstraint κ] in
theorem exists_highestLevel (a : Assignment) {ls : List Literal} (h : highestLevel a ls ≠ 0) :
    ∃ l ∈ ls, a.levelOf l.var = highestLevel a ls :=
  (foldl_max_eq (fun l : Literal => a.levelOf l.var) ls 0).resolve_left h

/-- Only the literals that a conflict lists matter to it. -/
theorem violated_of_reason {a a' : Assignment} (h : a.Consistent) {c : Constraint κ}
    (hv : c.kind.Violated a.trues) (hsub : ∀ l ∈ a'.trues, l ∈ a.trues)
    (hreason : ∀ m ∈ c.reason a none, -m ∈ a'.trues) : c.kind.Violated a'.trues := by
  obtain ⟨k, metadata⟩ := c
  cases k with
  | clause k => exact hreason
  | cardinality k =>
    refine Nat.lt_of_lt_of_le hv (List.countP_mono_left fun m hm hf => ?_)
    rw [decide_eq_true_eq] at hf ⊢
    exact hreason m ((k.mem_reason_none_iff h m).mpr ⟨hm, hf⟩)
  | parity k =>
    obtain ⟨hvars, hright⟩ := hv
    have hvars' : ∀ v ∈ k.vars, v ∈ a'.trues.map Literal.var := by
      intro v hv
      obtain ⟨x, hx, rfl⟩ := List.mem_map.mp (hvars v hv)
      have hx' : -x ∈ k.reason a none := by
        rw [k.mem_reason_iff h, Literal.var_negate, Literal.negate_negate]
        exact ⟨hv, hx, fun q hq => by cases hq⟩
      have := hreason (-x) hx'
      rw [Literal.negate_negate] at this
      exact List.mem_map.mpr ⟨x, this, rfl⟩
    exact ⟨hvars', fun hr => hright ((Parity.isRight_congr h.functional hsub hvars').mpr hr)⟩
  | custom k => exact hv.elim

omit [CustomConstraint κ] in
theorem violated_recounted (n : Nat) (trues : List Literal) (k : Kind κ) :
    (k.recounted n).Violated trues ↔ k.Violated trues := by
  cases k <;> exact Iff.rfl

/-- A conflict stays one when everything above its literals is taken back. -/
theorem violated_backtrack {level : Nat} {s s' : SearchState κ} (hw : s.WellFormed)
    (hrun : s.backtrack level = .ok s') {r : Reference} {c : Constraint κ}
    (hc : s.arena.get? r = some c) (hv : c.kind.Violated s.assignment.trues)
    (hlevel : ∀ m ∈ c.reason s.assignment none, s.assignment.levelOf m.var ≤ level) :
    ∃ c', s'.arena.get? r = some c' ∧ c'.kind.Violated s'.assignment.trues := by
  have hcon := hw.onBoard.consistent
  rcases SearchState.backtrack_spec hw hrun with ⟨-, rfl⟩ | ⟨-, hr, -⟩
  · exact ⟨c, hc, hv⟩
  · obtain ⟨n, hn⟩ := hr.recounted.alive hc
    refine ⟨_, hn, (violated_recounted n _ c.kind).mpr (violated_of_reason hcon hv ?_ ?_)⟩
    · intro l hl
      rw [hr.cut.trues] at hl
      exact List.mem_of_mem_take hl
    · intro m hm
      refine SearchState.mem_backtrack hw hrun ((Constraint.reason_of_violated hcon hv).1 m hm) ?_
      rw [Literal.var_negate]
      exact hlevel m hm

/-- A conflict whose literals are all false at the root shows that no valuation is admitted. -/
theorem not_admits_of_violated {s : SearchState κ} (hw : s.WellFormed) {r : Reference}
    {c : Constraint κ} (hc : s.arena.get? r = some c) (hv : c.kind.Violated s.assignment.trues)
    (hroot : highestLevel s.assignment (c.reason s.assignment none) = 0) (ν : Valuation) :
    ¬ s.Admits ν := by
  intro hν
  obtain ⟨hfalse, himplied⟩ := Constraint.reason_of_violated hw.onBoard.consistent hv
  obtain ⟨m, hm, hmν⟩ := himplied ν (hν.holds hc)
  have hle : s.assignment.levelOf m.var ≤ 0 :=
    Nat.le_trans (le_highestLevel s.assignment hm) (Nat.le_of_eq hroot)
  have hfact := (hν.model hw).facts (-m) (hfalse m hm) (by
    rw [Literal.var_negate]
    exact Nat.le_zero.mp hle)
  rw [Literal.holds_negate, hmν] at hfact
  cases hfact

omit [CustomConstraint κ] in
/-- A learned clause of two literals or more can be attached. -/
theorem wellFormed_of_asserts {a : Assignment} (hcon : a.Consistent) {k : LearnedClause}
    {last m : Literal} {ms : List Literal} (h : k.Asserts a last (m :: ms)) :
    (Kind.clause ⟨-last, m, ms⟩ : Kind κ).WellFormed a.cells.size := by
  refine ⟨h.nodup_var, fun l hl => ?_⟩
  have hfalse := h.falsified l hl
  have hknown : (-l).Known a.cells.size := ⟨hcon.var_ne_zero hfalse, hcon.var_lt hfalse⟩
  have hknown' := hknown.negate
  rwa [Literal.negate_negate] at hknown'

/-- A clause that asserts one literal is learned, and the activities fade. -/
theorem learnUnit_of_asserts {k : LearnedClause} {last : Literal} {n : Nat} {e e' : Engine κ}
    (h : e.WellFormed) (hk : k.Asserts e.search.assignment last [])
    (himplied : ∀ ν, e.search.Admits ν → ∃ m ∈ k.literals, m.holds ν = true)
    (hrun : e.learnUnit (-last) n = .ok e') :
    e.Advances e'.decay ∧ (e.search.Grounded → e'.decay.search.UpToDate) := by
  have hcon : e.search.assignment.Consistent := h.search.onBoard.consistent
  have hlast : last.Known e.search.assignment.cells.size :=
    ⟨hcon.var_ne_zero hk.mem, hcon.var_lt hk.mem⟩
  obtain ⟨hadv, hup⟩ := learnUnit_spec h hlast.negate (fun ν hν => by
    obtain ⟨m, hm, hmν⟩ := himplied ν hν
    rw [hk.literals] at hm
    rwa [List.mem_singleton.mp hm] at hmν) (Nat.zero_lt_of_lt hk.lower) hrun
  obtain ⟨hdecay, htunes⟩ := decay_spec hadv.wellFormed
  exact ⟨hadv.trans hdecay, fun hg => htunes.upToDate (hup hg)⟩

/-- A clause of two literals or more is learned, and the activities fade. -/
theorem learnClause_of_asserts {k : LearnedClause} {last m : Literal} {ms : List Literal} {n : Nat}
    {e e' : Engine κ} (h : e.WellFormed) (hk : k.Asserts e.search.assignment last (m :: ms))
    (himplied : ∀ ν, e.search.Admits ν → ∃ l ∈ k.literals, l.holds ν = true)
    (hrun : e.learnClause ⟨-last, m, ms⟩ k.backjumpLevel n = .ok e') :
    e.Advances e'.decay ∧ (e.search.Grounded → e'.decay.search.UpToDate) := by
  obtain ⟨hadv, hup⟩ := learnClause_spec h (wellFormed_of_asserts h.search.onBoard.consistent hk)
    hk.others (fun ν hν => by
    obtain ⟨l, hl, hlν⟩ := himplied ν hν
    rw [hk.literals] at hl
    exact ⟨l, hl, hlν⟩) hk.lower hrun
  obtain ⟨hdecay, htunes⟩ := decay_spec hadv.wellFormed
  exact ⟨hadv.trans hdecay, fun hg => htunes.upToDate (hup hg)⟩

/-- Going back and changing activities asks for nothing more. -/
theorem advances_of_tunes {search search₁ search₂ : SearchState κ} {level : Nat}
    {analyser analyser' : Analyser} {control control' : Control} (hw : search.WellFormed)
    (hback : search.backtrack level = .ok search₁) (ht : search₁.Tunes search₂)
    (hclean : analyser'.Clean search₂.assignment.cells.size)
    (ha : control'.assumptions = control.assumptions)
    (hi : control'.infeasible = control.infeasible)
    (hr : control'.restricted = control.restricted) :
    Advances ⟨search, analyser, control⟩ ⟨search₂, analyser', control'⟩ := by
  obtain ⟨hsize, hallowed, -⟩ := SearchState.size_backtrack hw hback
  refine .of_search (ht.wellFormed (hw.backtrack hback)) hclean ?_
    ((SearchState.Retains.backtrack hw hback).trans ht.retains)
    (fun ν hν => ht.admits (hν.backtrack hw hback)) (fun hh => ?_)
    (ht.order.allowed.trans hallowed) ha hi hr
  · rw [ht.assignment]
    exact hsize
  · rw [ht.assignment]
    exact SearchState.honours_backtrack hw hback hh

/-- A conflict above the root is resolved by a learned clause; one at the root shows that no
valuation is admitted. -/
theorem resolveConflict_spec {r : Reference} {c : Constraint κ} {resolved : Bool} {e e' : Engine κ}
    (h : e.WellFormed) (hc : e.search.arena.get? r = some c)
    (hv : c.kind.Violated e.search.assignment.trues)
    (hrun : e.resolveConflict r = .ok (resolved, e')) :
    (resolved = true → e.Advances e' ∧ (e.search.Grounded → e'.search.UpToDate)) ∧
      (resolved = false → e' = e ∧ ∀ ν, ¬ e.search.Admits ν) := by
  obtain ⟨search, analyser, control⟩ := e
  have hw : search.WellFormed := h.search
  obtain ⟨c₀, hget, hrun⟩ := ok_of_bind hrun
  have hc₀ : c₀ = c := by
    rw [Arena.get_eq_ok] at hget
    exact Option.some.inj (hget.symm.trans hc)
  subst hc₀
  dsimp only at hrun
  split at hrun
  · rename_i hroot
    cases hrun
    exact ⟨nofun, fun _ => ⟨rfl, not_admits_of_violated hw hc hv hroot⟩⟩
  · obtain ⟨⟨board, arena, learned, order, head⟩, hback, hrun⟩ := ok_of_bind hrun
    obtain ⟨c₁, hc₁, hv₁⟩ := violated_backtrack hw hback hc hv fun m hm =>
      le_highestLevel search.assignment hm
    have hw₁ := hw.backtrack hback
    obtain ⟨hsize₁, -, -⟩ := SearchState.size_backtrack hw hback
    obtain ⟨⟨clause, numRemoved, analyser₂, order₂, learned₂, arena₂⟩, hanalyse, hrun⟩ :=
      ok_of_bind hrun
    have hclean₁ : analyser.Clean board.assignment.cells.size := by
      rw [show board.assignment.cells.size = search.assignment.cells.size from hsize₁]
      exact h.clean
    obtain ⟨hclean₂, horder, hrefs, hretagged, ⟨last, rest, hasserts⟩, hlearned⟩ :=
      Analyser.analyse_spec hw₁.justifies hc₁ hv₁ hclean₁ hw₁.order.valid hanalyse
    have htunes : (⟨board, arena, learned, order, head⟩ : SearchState κ).Tunes
        ⟨board, arena₂, learned₂, order₂, head⟩ := ⟨rfl, hretagged, hrefs, horder, rfl⟩
    have hw₂ := htunes.wellFormed hw₁
    have hgrounded : search.Grounded →
        (⟨board, arena₂, learned₂, order₂, head⟩ : SearchState κ).Grounded :=
      fun hg => htunes.grounded (hg.lowered hw hback)
    have himplied : ∀ ν, (⟨board, arena₂, learned₂, order₂, head⟩ : SearchState κ).Admits ν →
        ∃ m ∈ clause.literals, m.holds ν = true := fun ν hν =>
      hlearned ν ((hν.model hw₂).of_retagged hretagged)
    have hlits := hasserts.literals
    dsimp only at hrun hlits
    split at hrun
    · cases hrun
    · rename_i l hone
      rw [hone] at hlits
      cases hlits
      obtain ⟨e₃, hunit, hrun⟩ := ok_of_bind hrun
      cases hrun
      obtain ⟨hadv, hup⟩ := learnUnit_of_asserts
        (e := ⟨⟨board, arena₂, learned₂, order₂, head⟩, analyser₂, _⟩) ⟨hw₂, hclean₂⟩ hasserts
        himplied hunit
      refine ⟨fun _ => ⟨.trans ?_ hadv, fun hg => hup (hgrounded hg)⟩, nofun⟩
      exact advances_of_tunes hw hback htunes hclean₂ rfl rfl rfl
    · rename_i l m ls hmore
      rw [hmore] at hlits
      cases hlits
      obtain ⟨e₃, hclause, hrun⟩ := ok_of_bind hrun
      cases hrun
      obtain ⟨hadv, hup⟩ := learnClause_of_asserts
        (e := ⟨⟨board, arena₂, learned₂, order₂, head⟩, analyser₂, _⟩) ⟨hw₂, hclean₂⟩ hasserts
        himplied hclause
      refine ⟨fun _ => ⟨.trans ?_ hadv, fun hg => hup (hgrounded hg)⟩, nofun⟩
      exact advances_of_tunes hw hback htunes hclean₂ rfl rfl rfl

end Engine

end ClauseLearning
