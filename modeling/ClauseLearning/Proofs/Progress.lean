import ClauseLearning.Proofs.Accounting
import ClauseLearning.Proofs.Asserting
import ClauseLearning.Proofs.Fixpoint
import ClauseLearning.Proofs.Levels
import ClauseLearning.Proofs.Tables

/-!
# What a search does always succeeds

Every operation of a search has a result in a state that keeps the invariants, and the result is
said together with it (`Yields`). What an operation has to keep, besides what a step promises
(`Engine.Advances`), is gathered in `Engine.Carries`.

Wherever a search goes on, the levels get heavier (`Assignment.Rises`): a conflict and a block give
up some levels and make a literal true on the highest one that is left (`SearchState.Jumps`), a
decision opens a level.

* `Engine.exists_resolves`: what a conflict above the root is resolved by.
* `Engine.resolveConflict_yields`, `Engine.blockDecisions_yields`, `Engine.assume_yields`: conflicts
  and decisions.
* `Engine.step_yields`: a stage.
-/

namespace ClauseLearning

variable {κ : Type}

/-! ## Results -/

/-- The computation has a result, and the property holds of it. -/
def Yields {α : Type} (x : Except Fault α) (P : α → Prop) : Prop := ∃ a, x = .ok a ∧ P a

namespace Yields

variable {α β : Type} {x : Except Fault α} {P Q : α → Prop}

theorem ok {a : α} (h : P a) : Yields (.ok a) P := ⟨a, rfl, h⟩

theorem mono (h : Yields x P) (hpq : ∀ a, P a → Q a) : Yields x Q :=
  let ⟨a, ha, hp⟩ := h
  ⟨a, ha, hpq a hp⟩

/-- What is said of the result holds of whatever the computation returned. -/
theorem of_run (h : Yields x P) {a : α} (hrun : x = .ok a) : P a := by
  obtain ⟨b, hb, hp⟩ := h
  cases hb.symm.trans hrun
  exact hp

theorem and_run (h : Yields x P) : Yields x fun a => x = .ok a ∧ P a :=
  let ⟨a, ha, hp⟩ := h
  ⟨a, ha, ha, hp⟩

theorem bind {f : α → Except Fault β} {R : β → Prop} (h : Yields x P)
    (hf : ∀ a, P a → Yields (f a) R) : Yields (x >>= f) R := by
  obtain ⟨a, rfl, hp⟩ := h
  exact hf a hp

/-- A first step of which it is known that it has a result. -/
theorem bind_total {f : α → Except Fault β} {R : β → Prop} (h : ∃ a, x = .ok a)
    (hf : ∀ a, x = .ok a → Yields (f a) R) : Yields (x >>= f) R := by
  obtain ⟨a, rfl⟩ := h
  exact hf a rfl

end Yields

/-! ## The state -/

namespace SearchState

theorem forgetReasons_total {s : SearchState κ} (hroot : s.decisionLevel = 0) :
    ∃ s', s.forgetReasons = .ok s' := by
  obtain ⟨⟨a, w⟩, arena, learned, order, head⟩ := s
  have hroot : a.decisionLevel = 0 := hroot
  simp only [forgetReasons, hroot]
  exact ⟨_, rfl⟩

theorem backtrackRoot_total [CustomConstraint κ] {s : SearchState κ} (h : s.WellFormed)
    (hroot : s.decisionLevel = 0) (checkpoint : Nat) :
    ∃ s', s.backtrackRoot checkpoint = .ok s' := by
  obtain ⟨⟨a, w⟩, arena, learned, order, head⟩ := s
  have hroot : a.decisionLevel = 0 := hroot
  have hb : arena.OnBoard ⟨a, w⟩ head := h.onBoard
  obtain ⟨b', arena', order', hundo⟩ := undoNewest_total (a.trail.size - checkpoint) order hb
  simp only [backtrackRoot, hroot, hundo]
  exact ⟨_, rfl⟩

/-- Going back does not look at the database of learned clauses. -/
theorem backtrack_relearn [CustomConstraint κ] {level : Nat} {s s' : SearchState κ}
    (hrun : s.backtrack level = .ok s') (learned : LearnedDatabase) :
    ({ s with learned := learned } : SearchState κ).backtrack level =
      .ok { s' with learned := learned } := by
  obtain ⟨⟨a, w⟩, arena, learned₀, order, head⟩ := s
  simp only [backtrack] at hrun ⊢
  split at hrun
  · rename_i hle
    cases hrun
    rw [if_pos hle]
    rfl
  · rename_i hlt
    obtain ⟨⟨⟨a', w'⟩, arena', order'⟩, hundo, hrun⟩ := ok_of_bind hrun
    cases hrun
    rw [if_neg hlt, hundo]
    rfl

end SearchState

/-- A literal that is neither true nor false has no value. -/
theorem Assignment.isUnassigned_of_not {a : Assignment} {l : Literal}
    (ht : ¬ a.isSatisfied l = true) (hf : ¬ a.isFalsified l = true) : a.isUnassigned l = true := by
  unfold isSatisfied at ht
  unfold isFalsified at hf
  unfold isUnassigned
  cases hc : a.cell? l.var with
  | none => rfl
  | some c =>
    rw [hc] at ht hf
    simp only [bne_iff_ne, beq_iff_eq, Decidable.not_not] at ht hf
    exact absurd hf ht

/-- A literal without a value becomes the newest of the trail. -/
theorem Assignment.enqueue_of_isUnassigned {a : Assignment} (h : a.Consistent) {l : Literal}
    (hlt : l.var < a.cells.size) (hl : a.isUnassigned l = true) (reason : Option Reference) :
    a.Extension (a.enqueue l reason).2 ∧ (a.enqueue l reason).2.trues = a.trues ++ [l] := by
  have hnone := (h.isUnassigned_iff l).mp hl
  rcases enqueue_cases h hlt reason with ⟨hmem, -⟩ | ⟨hmem, -⟩ | ⟨hcell, heq⟩
  · exact absurd (List.mem_map.mpr ⟨_, hmem, rfl⟩) hnone
  · exact absurd (List.mem_map.mpr ⟨_, hmem, Literal.var_negate l⟩) hnone
  · rw [heq]
    exact ⟨.assign reason hcell, trues_assign a l reason⟩

/-- A learned clause makes its first literal true, for a reason of its own. -/
theorem SearchState.assignment_learn (s : SearchState κ) (k : Clause) (m : Metadata) (lbd : Nat) :
    ∃ r, (s.learn k m lbd).assignment = (s.assignment.enqueue k.first (some r)).2 := by
  obtain ⟨⟨a, w⟩, arena, learned, order, head⟩ := s
  exact ⟨_, rfl⟩

/-- A false literal is of a variable that there is a cell for. -/
theorem Assignment.Consistent.known_of_isFalsified {a : Assignment} (h : a.Consistent) {l : Literal}
    (hl : a.isFalsified l = true) : l.Known a.cells.size := by
  have hmem := (h.isFalsified_iff l).mp hl
  have hk : (-l).Known a.cells.size := ⟨h.var_ne_zero hmem, h.var_lt hmem⟩
  rw [← Literal.negate_negate l]
  exact hk.negate

/-- A database of clauses that are there can be reduced. -/
theorem LearnedDatabase.reduce_total [CustomConstraint κ] {d : LearnedDatabase} {arena : Arena κ}
    (h : ∀ r ∈ d.references.toList, ∃ c, arena.get? r = some c) (a : Assignment) :
    ∃ x, d.reduce arena a = .ok x := by
  have hall : ∀ rs : List Reference, (∀ r ∈ rs, ∃ c, arena.get? r = some c) →
      ∃ entries, (rs.mapM fun r => do return (r, ← arena.get r) :
        Except Fault (List (Entry κ))) = .ok entries := by
    intro rs
    induction rs with
    | nil => exact fun _ => ⟨[], rfl⟩
    | cons r rs ih =>
      intro halive
      obtain ⟨c, hc⟩ := halive r List.mem_cons_self
      obtain ⟨entries, hentries⟩ := ih fun q hq => halive q (List.mem_cons_of_mem _ hq)
      refine ⟨(r, c) :: entries, ?_⟩
      rw [List.mapM_cons, Arena.get_eq_ok.mpr hc, hentries]
      rfl
  exact exists_ok_bind (hall _ h) fun _ _ => ⟨_, rfl⟩

/-- The walk back to the failed assumption never gets stuck. -/
theorem sweepCore_total [CustomConstraint κ] {s : Arena κ} {a : Assignment} (h : s.Justifies a)
    (failed : Literal) (start n : Nat) (core : List Literal) (seen : Array Bool) :
    ∃ x, sweepCore s a failed start n core seen = .ok x := by
  induction n generalizing core seen with
  | zero => exact ⟨_, rfl⟩
  | succ n ih =>
    unfold sweepCore
    split
    · exact ih core seen
    · split
      · rename_i l hl hseen
        obtain ⟨reason, hreason⟩ := h.reasonOf_total l.var
        simp only [hreason, bind, Except.bind]
        cases reason with
        | some reason => exact ih _ _
        | none => exact ih _ _
      · exact ih core seen

theorem unsatCore_total [CustomConstraint κ] {s : Arena κ} {a : Assignment} (h : s.Justifies a)
    (failed : Literal) (seen : Array Bool) : ∃ x, unsatCore s a failed seen = .ok x := by
  unfold unsatCore
  split
  · exact ⟨_, rfl⟩
  · exact exists_ok_bind (sweepCore_total h failed _ _ _ _) fun _ _ => ⟨_, rfl⟩

namespace SearchState

variable [CustomConstraint κ]

/-- Literals that stay true stay on their levels. -/
theorem levelOf_backtrack {level : Nat} {s s' : SearchState κ} (hw : s.WellFormed)
    (hrun : s.backtrack level = .ok s') {l : Literal} (hl : l ∈ s'.assignment.trues) :
    s'.assignment.levelOf l.var = s.assignment.levelOf l.var := by
  have hcon' : s'.assignment.Consistent := (hw.backtrack hrun).onBoard.consistent
  rcases backtrack_spec hw hrun with ⟨-, rfl⟩ | ⟨-, hr, -⟩
  · rfl
  · obtain ⟨c, hc, -⟩ := hcon'.cell_of_mem hl
    rw [Assignment.levelOf, Assignment.level?, hc, Assignment.levelOf, Assignment.level?,
      hr.cut.cell hc]

/-- The levels above `level` are given up, and something becomes true on it. -/
def Jumps (level : Nat) (s : SearchState κ) (a : Assignment) : Prop :=
  ∃ s', s.backtrack level = .ok s' ∧ s'.assignment.Extension a ∧
    s'.assignment.trues.length < a.trues.length

namespace Jumps

variable {level : Nat} {s : SearchState κ} {a : Assignment}

theorem of_isUnassigned {s' : SearchState κ} (hw : s.WellFormed) (hrun : s.backtrack level = .ok s')
    {l : Literal} (hk : l.var < s.assignment.cells.size)
    (hl : s'.assignment.isUnassigned l = true) (reason : Option Reference) :
    s.Jumps level (s'.assignment.enqueue l reason).2 := by
  have hcon : s'.assignment.Consistent := (hw.backtrack hrun).onBoard.consistent
  rw [← (size_backtrack hw hrun).1] at hk
  obtain ⟨he, htrues⟩ := Assignment.enqueue_of_isUnassigned hcon hk hl reason
  refine ⟨s', hrun, he, ?_⟩
  rw [htrues, List.length_append]
  exact Nat.lt_succ_self _

/-- The level that is left is heavier than it was when it was a part of more levels. -/
theorem rises (h : s.Jumps level a) (hw : s.WellFormed) (hlevel : level ≤ s.decisionLevel)
    {a₀ : Assignment} (hle : s.decisionLevel ≤ a₀.decisionLevel)
    (hwidth : ∀ k ≤ level, s.assignment.width k = a₀.width k) : a₀.Rises a := by
  obtain ⟨s', hrun, he, hlen⟩ := h
  have hlevel' : s'.assignment.decisionLevel = level :=
    (decisionLevel_backtrack hw hrun).trans (Nat.min_eq_left hlevel)
  exact .of_rewound (Nat.le_trans hlevel hle) hlevel'
    (fun k hk => (width_backtrack hw hrun hk).trans (hwidth k hk))
      (hw.backtrack hrun).layered he hlen

theorem size (h : s.Jumps level a) (hw : s.WellFormed) :
    a.cells.size = s.assignment.cells.size := by
  obtain ⟨s', hrun, he, -⟩ := h
  exact he.size.trans (SearchState.size_backtrack hw hrun).1

theorem peopled (h : s.Jumps level a) (hw : s.WellFormed) {n : Nat}
    (hp : s.assignment.Peopled n) : a.Peopled n := by
  obtain ⟨s', hrun, he, -⟩ := h
  exact (peopled_backtrack hw hrun hp).extend (hw.backtrack hrun).layered he

end Jumps

/-- A literal becomes true on a lower level without a reason. -/
theorem jumps_enqueue {level : Nat} {s s' : SearchState κ} (hw : s.WellFormed)
    (hrun : s.backtrack level = .ok s') {l : Literal} (hk : l.Known s.assignment.cells.size)
    (hlevel : level < s.assignment.levelOf l.var) :
    s.Jumps level (s'.enqueue l).2.assignment ∧
      ∀ restricted, s.Accounted restricted → (s'.enqueue l).2.Accounted restricted := by
  have hk' : l.Known s'.assignment.cells.size := by
    rw [(size_backtrack hw hrun).1]
    exact hk
  obtain ⟨he, -, -⟩ := enqueue_spec (hw.backtrack hrun) hk'
  exact ⟨.of_isUnassigned hw hrun hk.2 (isUnassigned_backtrack hw hrun hlevel) none,
    fun restricted hs => (hs.backtrack hw hrun).ofExtends he⟩

/-- A clause is learned on a lower level as the newest one: there it makes its first literal
true. -/
theorem jumps_learn {level : Nat} {s s' : SearchState κ} (hw : s.WellFormed)
    (hrun : s.backtrack level = .ok s') (learned : LearnedDatabase)
    (hrefs : learned.references = s.learned.references)
    (hnum : learned.numLearned = s.learned.numLearned + 1) {k : Clause}
    (hk : (Kind.clause k : Kind κ).WellFormed s.assignment.cells.size)
    (hfirst : s'.assignment.isUnassigned k.first = true)
    (hrest : ∀ l ∈ k.second :: k.rest, -l ∈ s'.assignment.trues) {m : Metadata}
    (hm : m.learned = true) (hage : m.age = s.learned.numLearned + 1) (lbd : Nat) :
    s.Jumps level (({ s' with learned } : SearchState κ).learn k m lbd).assignment ∧
      ∀ restricted, (m.restricted = true → restricted = true) → s.Accounted restricted →
        (({ s' with learned } : SearchState κ).learn k m lbd).Accounted restricted := by
  obtain ⟨hsize, -, hlearned⟩ := size_backtrack hw hrun
  have hw' := hw.backtrack hrun
  have htunes : s'.Tunes { s' with learned } :=
    ⟨rfl, .refl _, hrefs.trans (congrArg _ hlearned.symm), .refl hw'.order.valid, rfl⟩
  constructor
  · obtain ⟨r, hr⟩ := ({ s' with learned } : SearchState κ).assignment_learn k m lbd
    rw [hr]
    exact .of_isUnassigned hw hrun (hk.2 k.first List.mem_cons_self).2 hfirst (some r)
  · intro restricted hnoted hs
    have hs' := hs.backtrack hw hrun
    have hle : s'.learned.numLearned ≤ learned.numLearned := by
      rw [hlearned, hnum]
      exact Nat.le_succ _
    refine (hs'.tunes htunes hle).learn (htunes.wellFormed hw') ?_ hm hrest (fun hd hl => ?_) ?_
      hnoted
    · show (Kind.clause k : Kind κ).WellFormed s'.assignment.cells.size
      rw [hsize]
      exact hk
    · rw [hage, ← hlearned]
      exact Nat.lt_succ_of_le (hs'.young hd hl)
    · rw [hage, ← hnum]

end SearchState

/-- What explains a conflict still does so where it is false. -/
theorem Constraint.mem_reason_recounted [CustomConstraint κ] {a a' : Assignment}
    (h : a.Consistent) (h' : a'.Consistent) {c : Constraint κ} (hk : ∀ k, c.kind ≠ .custom k)
    {m : Literal} (hm : m ∈ c.reason a none) (hfalse : -m ∈ a'.trues) (n : Nat) :
    m ∈ (⟨c.kind.recounted n, c.metadata⟩ : Constraint κ).reason a' none := by
  obtain ⟨k, metadata⟩ := c
  cases k with
  | clause k => exact hm
  | cardinality k =>
    exact (Cardinality.mem_reason_none_iff h' _ m).mpr
      ⟨((k.mem_reason_none_iff h m).mp hm).1, hfalse⟩
  | parity k =>
    exact (k.mem_reason_iff h' none m).mpr ⟨((k.mem_reason_iff h none m).mp hm).1, hfalse, nofun⟩
  | custom k => exact absurd rfl (hk k)

/-! ## What every step keeps -/

/-- What a search works by stays as it is, and a policy that never restarts stays one. What is
counted and reported does not matter. -/
structure Control.Continues (c c' : Control) : Prop where
  options : c'.options = c.options
  assumptions : c'.assumptions = c.assumptions
  steady : c.restarts = .never → c'.restarts = .never
  timers : c'.timers.entries.length = c.timers.entries.length
  reduceTimer : c'.reduceTimer = c.reduceTimer

namespace Control.Continues

theorem refl (c : Control) : c.Continues c := ⟨rfl, rfl, fun hs => hs, rfl, rfl⟩

/-- Notes, counters and reports are not what a search works by. -/
theorem of_noted {c c' : Control} (h : c' = { c with
    infeasible := c'.infeasible, restricted := c'.restricted, simplifiedAt := c'.simplifiedAt,
    statistics := c'.statistics, events := c'.events }) : c.Continues c' := by
  rw [h]
  exact ⟨rfl, rfl, fun hs => hs, rfl, rfl⟩

end Control.Continues

namespace Engine

/-- What every operation keeps, whatever it does. -/
structure Sustains (e e' : Engine κ) : Prop where
  options : e'.control.options = e.control.options
  assumptions : e'.control.assumptions = e.control.assumptions
  steady : e.control.restarts = .never → e'.control.restarts = .never
  accounted : e.search.Accounted e.control.restricted → e'.search.Accounted e'.control.restricted
  peopled : e.search.assignment.Peopled e.control.assumptions.length →
    e'.search.assignment.Peopled e.control.assumptions.length
  tabled : e.Tabled → e'.Tabled

/-- What a step of the search keeps: there are no new variables either. -/
structure Carries (e e' : Engine κ) : Prop extends Sustains e e' where
  size : e'.search.assignment.cells.size = e.search.assignment.cells.size

namespace Carries

theorem of_continues {search search' : SearchState κ} {analyser analyser' : Analyser}
    {control control' : Control} (hc : control.Continues control')
    (haccounted : search.Accounted control.restricted → search'.Accounted control'.restricted)
    (hpeopled : search.assignment.Peopled control.assumptions.length →
      search'.assignment.Peopled control.assumptions.length)
    (hsaves : search.order.Saves search'.order)
    (hsize : search'.assignment.cells.size = search.assignment.cells.size) :
    Carries ⟨search, analyser, control⟩ ⟨search', analyser', control'⟩ :=
  ⟨⟨hc.options, hc.assumptions, hc.steady, haccounted, hpeopled, fun ht =>
    ht.congr hsaves hsize hc.timers hc.reduceTimer⟩, hsize⟩

/-- Going back and making something true there carries. -/
theorem of_jumps [CustomConstraint κ] {search search' : SearchState κ}
    {analyser analyser' : Analyser} {control control' : Control} {level : Nat}
    (hw : search.WellFormed) (hj : search.Jumps level search'.assignment)
    (hsaves : search.order.Saves search'.order) (hc : control.Continues control')
    (haccounted : search.Accounted control.restricted → search'.Accounted control'.restricted) :
    Carries ⟨search, analyser, control⟩ ⟨search', analyser', control'⟩ :=
  of_continues hc haccounted (fun hp => hj.peopled hw hp) hsaves (hj.size hw)

theorem refl (e : Engine κ) : e.Carries e :=
  of_continues (.refl _) (fun h => h) (fun h => h) (.of_eq rfl) rfl

theorem trans {e₁ e₂ e₃ : Engine κ} (h : e₁.Carries e₂) (h' : e₂.Carries e₃) : e₁.Carries e₃ := by
  refine ⟨⟨h'.options.trans h.options, h'.assumptions.trans h.assumptions,
    fun hs => h'.steady (h.steady hs), fun hs => h'.accounted (h.accounted hs), fun hs => ?_,
    fun ht => h'.tabled (h.tabled ht)⟩, h'.size.trans h.size⟩
  rw [← h.assumptions] at hs ⊢
  exact h'.peopled (by rw [h.assumptions] at hs ⊢; exact h.peopled hs)

end Carries

theorem countConflict_carries (e : Engine κ) : e.Carries e.countConflict := by
  obtain ⟨search, analyser, control⟩ := e
  refine .of_continues ⟨rfl, rfl, fun hs => ?_, List.length_map _, rfl⟩ (fun h => h) (fun h => h)
    (.of_eq rfl) rfl
  show control.restarts.onConflict = .never
  rw [hs]
  rfl

variable [CustomConstraint κ]

theorem propagate_yields {e : Engine κ} (h : e.WellFormed) :
    Yields e.propagate fun x => e.Carries x.2 ∧
      e.search.assignment.Extension x.2.search.assignment := by
  obtain ⟨search, analyser, control⟩ := e
  have hw : search.WellFormed := h.search
  obtain ⟨conflict, search', hrun, -⟩ := SearchState.propagate_total hw
  obtain ⟨hf, -⟩ := SearchState.propagate_spec hw (Nat.le_refl _) hrun
  refine .bind_total ⟨_, hrun⟩ fun x hx => ?_
  cases hrun.symm.trans hx
  have hsaves := DecisionOrder.Saves.of_eq (congrArg DecisionOrder.phase hf.order)
  exact .ok ⟨.of_continues (.of_noted rfl) (fun ha => ha.propagate hw hrun)
    (fun hp => hp.extend hw.layered hf.extension) hsaves hf.extension.size, hf.extension⟩

/-! ## Conflicts -/

theorem learnUnit_yields {l : Literal} {n : Nat} {e : Engine κ} (h : e.WellFormed)
    (hl : l.Known e.search.assignment.cells.size) (hlevel : 0 < e.search.assignment.levelOf l.var) :
    Yields (e.learnUnit l n) fun e' => e.Carries e' ∧ e.search.Jumps 0 e'.search.assignment := by
  obtain ⟨search, analyser, control⟩ := e
  have hw : search.WellFormed := h.search
  refine .bind_total (SearchState.backtrack_total hw 0) fun search' hback => .ok ?_
  obtain ⟨hjumps, haccounted⟩ := SearchState.jumps_enqueue hw hback hl hlevel
  have hsaves := SearchState.saves_backtrack hback
  refine ⟨.of_jumps hw hjumps hsaves ⟨rfl, rfl, fun hs => ?_, rfl, rfl⟩ (haccounted _), hjumps⟩
  show control.restarts.onLearned 1 n = .never
  rw [hs]
  rfl

/-- A learned clause is entered with the next age, and its first literal becomes true on a lower
level. -/
theorem learnClause_yields {k : Clause} {level n : Nat} {e : Engine κ} (h : e.WellFormed)
    (hk : (Kind.clause k : Kind κ).WellFormed e.search.assignment.cells.size)
    (hfirst : level < e.search.assignment.levelOf k.first.var)
    (hrest : ∀ m ∈ k.second :: k.rest, -m ∈ e.search.assignment.trues ∧
      e.search.assignment.levelOf m.var ≤ level) :
    Yields (e.learnClause k level n) fun e' => e.Carries e' ∧
      e.search.Jumps level e'.search.assignment := by
  obtain ⟨⟨board, arena, learned, order, head⟩, analyser, control⟩ := e
  have hw : (⟨board, arena, learned, order, head⟩ : SearchState κ).WellFormed := h.search
  rcases hage : learned.nextAge with ⟨age, learned₁⟩
  rcases hmeasure : learned₁.measure board.assignment k.literals with ⟨lbd, learned₂⟩
  simp only [learnClause, hage, hmeasure]
  have hlearned₁ : learned₁ = { learned with numLearned := learned.numLearned + 1 } :=
    (congrArg Prod.snd hage).symm
  have hage' : age = learned.numLearned + 1 := (congrArg Prod.fst hage).symm
  have hrefs : learned₂.references = learned₁.references :=
    (congrArg (·.2.references) hmeasure).symm
  have hnum : learned₂.numLearned = learned₁.numLearned :=
    (congrArg (·.2.numLearned) hmeasure).symm
  rw [hlearned₁] at hrefs hnum
  obtain ⟨search', hback⟩ := SearchState.backtrack_total hw level
  rw [SearchState.backtrack_relearn hback learned₂]
  have hsaves := SearchState.saves_backtrack hback
  have hfalse : ∀ m ∈ k.second :: k.rest, -m ∈ search'.assignment.trues := by
    intro m hm
    obtain ⟨hf, hle⟩ := hrest m hm
    exact SearchState.mem_backtrack hw hback hf (by rw [Literal.var_negate]; exact hle)
  obtain ⟨hjumps, haccounted⟩ := SearchState.jumps_learn hw hback _ hrefs hnum hk
    (SearchState.isUnassigned_backtrack hw hback hfirst) hfalse (m := .learnedAt age) rfl hage' lbd
  have hfree : ∀ restricted, (Metadata.learnedAt age).restricted = true → restricted = true :=
    fun _ hr => absurd hr Bool.false_ne_true
  refine .ok ⟨.of_jumps hw hjumps hsaves ⟨rfl, rfl, fun hs => ?_, rfl, rfl⟩
    (haccounted _ (hfree _)), hjumps⟩
  show control.restarts.onLearned lbd n = .never
  rw [hs]
  rfl

omit [CustomConstraint κ] in
theorem decay_carries (e : Engine κ) :
    e.Carries e.decay ∧ e.decay.search.assignment = e.search.assignment := by
  obtain ⟨⟨board, arena, learned, order, head⟩, analyser, control⟩ := e
  exact ⟨.of_continues (.refl _) (fun ha => ha.agree (.refl arena) rfl (Nat.le_refl _))
    (fun hp => hp) (.of_eq rfl) rfl, rfl⟩

omit [CustomConstraint κ] in
theorem highestLevel_eq {a : Assignment} (h : a.Consistent) {ls : List Literal} {l : Literal}
    (hl : l ∈ ls) (hlevel : a.levelOf l.var = a.decisionLevel)
    (hfalse : ∀ m ∈ ls, -m ∈ a.trues) : highestLevel a ls = a.decisionLevel := by
  have hle := le_highestLevel a hl
  by_cases hzero : highestLevel a ls = 0
  · omega
  · obtain ⟨m, hm, hmlevel⟩ := exists_highestLevel a hzero
    obtain ⟨i, hi⟩ := List.mem_iff_getElem?.mp (hfalse m hm)
    have hlevelOf := h.levelOf_eq hi
    rw [Literal.var_negate] at hlevelOf
    have htop := a.levelAt_le i
    omega

/-- A conflict still has a literal of the highest level when everything above that is taken back. -/
theorem highestLevel_backtrack {s s' : SearchState κ} (hw : s.WellFormed) {r : Reference}
    {c c' : Constraint κ} (hc : s.arena.get? r = some c) (hc' : s'.arena.get? r = some c')
    (hv : c.kind.Violated s.assignment.trues) (hv' : c'.kind.Violated s'.assignment.trues)
    (hne : highestLevel s.assignment (c.reason s.assignment none) ≠ 0)
    (hrun : s.backtrack (highestLevel s.assignment (c.reason s.assignment none)) = .ok s') :
    highestLevel s'.assignment (c'.reason s'.assignment none) = s'.decisionLevel ∧
      s'.decisionLevel = highestLevel s.assignment (c.reason s.assignment none) := by
  have hcon : s.assignment.Consistent := hw.onBoard.consistent
  have hcon' : s'.assignment.Consistent := (hw.backtrack hrun).onBoard.consistent
  obtain ⟨m, hm, hlevel⟩ := exists_highestLevel s.assignment hne
  have hfalse : -m ∈ s.assignment.trues := (Constraint.reason_of_violated hcon hv).1 m hm
  have hfalse' : -m ∈ s'.assignment.trues := SearchState.mem_backtrack hw hrun hfalse (by
    rw [Literal.var_negate]
    exact Nat.le_of_eq hlevel)
  have hm' : m ∈ c'.reason s'.assignment none := by
    rcases SearchState.backtrack_spec hw hrun with ⟨-, rfl⟩ | ⟨-, hr, -⟩
    · rw [hc] at hc'
      cases hc'
      exact hm
    · obtain ⟨n, hn⟩ := hr.recounted.alive hc
      rw [hn] at hc'
      cases hc'
      refine Constraint.mem_reason_recounted hcon hcon' (fun k hk => ?_) hm hfalse' n
      have hwf := hw.onBoard.wellFormed hc
      rw [hk] at hwf
      exact hwf
  have hlevelOf := SearchState.levelOf_backtrack hw hrun hfalse'
  rw [Literal.var_negate] at hlevelOf
  obtain ⟨i, hi⟩ := List.mem_iff_getElem?.mp hfalse
  have htop := s.assignment.levelAt_le i
  rw [← hcon.levelOf_eq hi, Literal.var_negate, hlevel] at htop
  have hdecision : s'.decisionLevel = highestLevel s.assignment (c.reason s.assignment none) :=
    (SearchState.decisionLevel_backtrack hw hrun).trans (Nat.min_eq_left htop)
  exact ⟨highestLevel_eq hcon' hm' ((hlevelOf.trans hlevel).trans hdecision.symm)
    (Constraint.reason_of_violated hcon' hv').1, hdecision⟩

/-- A conflict is analysed on the highest level of its literals: `low` is the state in which that is
the current level. -/
structure Lowers (e : Engine κ) (r : Reference) (low : SearchState κ) : Prop where
  lowered : ∃ c, e.search.arena.get? r = some c ∧ e.search.backtrack
    (highestLevel e.search.assignment (c.reason e.search.assignment none)) = .ok low
  wellFormed : low.WellFormed
  driven : low.assignment.Driven
  clean : e.analyser.Clean low.assignment.cells.size
  above : low.decisionLevel ≠ 0
  violated : ∃ c, low.arena.get? r = some c ∧ c.kind.Violated low.assignment.trues ∧
    highestLevel low.assignment (c.reason low.assignment none) = low.decisionLevel

/-- Every conflict above the root can be analysed. -/
theorem exists_lowers {r : Reference} {c : Constraint κ} {e : Engine κ} (h : e.WellFormed)
    (hh : e.Honours) (hc : e.search.arena.get? r = some c)
    (hv : c.kind.Violated e.search.assignment.trues)
    (hne : highestLevel e.search.assignment (c.reason e.search.assignment none) ≠ 0) :
    ∃ low, e.Lowers r low := by
  have hw := h.search
  obtain ⟨low, hback⟩ := SearchState.backtrack_total hw
    (highestLevel e.search.assignment (c.reason e.search.assignment none))
  obtain ⟨c₁, hc₁, hv₁⟩ := violated_backtrack hw hback hc hv fun m hm =>
    le_highestLevel e.search.assignment hm
  obtain ⟨hhighest, hlevel⟩ := highestLevel_backtrack hw hc hc₁ hv hv₁ hne hback
  refine ⟨low, ⟨c, hc, hback⟩, hw.backtrack hback,
    (SearchState.honours_backtrack hw hback hh).driven,
    ?_, by rw [hlevel]; exact hne, c₁, hc₁, hv₁, hhighest⟩
  rw [(SearchState.size_backtrack hw hback).1]
  exact h.clean

/-- What is learned from a conflict, and asserted. -/
structure Resolves (e : Engine κ) (r : Reference) (low : SearchState κ) (lesson : Lesson κ)
    (first : Literal) (rest : List Literal) : Prop where
  lowered : ∃ c, e.search.arena.get? r = some c ∧ e.search.backtrack
    (highestLevel e.search.assignment (c.reason e.search.assignment none)) = .ok low
  wellFormed : low.WellFormed
  analysed : e.analyser.analyse r low.assignment low.order low.learned low.arena = .ok lesson
  asserts : low.Asserts lesson first rest
  known : ∀ l ∈ first :: rest, l.Known low.assignment.cells.size
  lower : lesson.clause.backjumpLevel < low.decisionLevel
  tunes : low.Tunes (low.taught lesson)
  clean : lesson.analyser.Clean low.assignment.cells.size
  accounted : ∀ restricted, e.search.Accounted restricted →
    (low.taught lesson).Accounted restricted

theorem taught_spec {s : SearchState κ} {r : Reference} {c : Constraint κ} {an : Analyser}
    {lesson : Lesson κ} (hw : s.WellFormed) (hclean : an.Clean s.assignment.cells.size)
    (hc : s.arena.get? r = some c) (hv : c.kind.Violated s.assignment.trues)
    (hrun : an.analyse r s.assignment s.order s.learned s.arena = .ok lesson) :
    s.Tunes (s.taught lesson) ∧ lesson.analyser.Clean s.assignment.cells.size ∧
      lesson.clause.backjumpLevel < s.decisionLevel ∧
      ∀ restricted, s.Accounted restricted → (s.taught lesson).Accounted restricted := by
  obtain ⟨hclean', horder, hrefs, hretagged, ⟨last, rest, hlast⟩, -⟩ :=
    Analyser.analyse_spec hw.justifies hc hv hclean hw.order.valid hrun
  have htunes : s.Tunes (s.taught lesson) := ⟨rfl, hretagged, hrefs, horder, rfl⟩
  exact ⟨htunes, hclean', hlast.lower, fun restricted hs =>
    hs.tunes htunes (Nat.le_of_eq (SearchState.numLearned_analyse hrun).symm)⟩

/-- Every conflict above the root has something to learn. -/
theorem exists_resolves {r : Reference} {c : Constraint κ} {e : Engine κ} (h : e.WellFormed)
    (hh : e.Honours) (hc : e.search.arena.get? r = some c)
    (hv : c.kind.Violated e.search.assignment.trues)
    (hne : highestLevel e.search.assignment (c.reason e.search.assignment none) ≠ 0) :
    ∃ low lesson first rest, e.Resolves r low lesson first rest := by
  obtain ⟨low, hlow⟩ := exists_lowers h hh hc hv hne
  have hw := hlow.wellFormed
  obtain ⟨c₁, hc₁, hv₁, hhighest⟩ := hlow.violated
  obtain ⟨lesson, first, rest, hrun, hasserts⟩ :=
    SearchState.analyse_asserts hw hlow.driven hlow.clean hc₁ hv₁ hhighest hlow.above
  obtain ⟨htunes, hclean, hlower, haccounted⟩ := taught_spec hw hlow.clean hc₁ hv₁ hrun
  obtain ⟨c, hc, hback⟩ := hlow.lowered
  exact ⟨low, lesson, first, rest, ⟨c, hc, hback⟩, hw, hrun, hasserts,
    fun l hl => hw.onBoard.consistent.known_of_isFalsified (hasserts.falsified l hl), hlower,
    htunes, hclean, fun restricted hs => haccounted restricted (hs.backtrack h.search hback)⟩

namespace Resolves

variable {r : Reference} {low : SearchState κ} {lesson : Lesson κ} {first : Literal}
  {rest : List Literal}

/-- Below its level, the learned clause makes a level heavier. -/
theorem rises {e : Engine κ} (hr : e.Resolves r low lesson first rest) (h : e.WellFormed)
    {a : Assignment} (hj : (low.taught lesson).Jumps lesson.clause.backjumpLevel a) :
    e.search.assignment.Rises a := by
  obtain ⟨c, -, hback⟩ := hr.lowered
  have hdecision := SearchState.decisionLevel_backtrack h.search hback
  have hlower := hr.lower
  refine hj.rises (hr.tunes.wellFormed hr.wellFormed) (Nat.le_of_lt hlower) ?_ fun k hk =>
    SearchState.width_backtrack h.search hback (by omega)
  show low.decisionLevel ≤ e.search.decisionLevel
  omega

theorem carries {search : SearchState κ} {analyser : Analyser} {control control' : Control}
    (hr : Resolves ⟨search, analyser, control⟩ r low lesson first rest)
    (h : (⟨search, analyser, control⟩ : Engine κ).WellFormed)
    (hcontrol : control.Continues control') (hrd : control'.restricted = control.restricted) :
    Carries ⟨search, analyser, control⟩ ⟨low.taught lesson, lesson.analyser, control'⟩ := by
  obtain ⟨c, -, hback⟩ := hr.lowered
  have hsize := (SearchState.size_backtrack h.search hback).1
  have hsaves := SearchState.saves_backtrack hback
  refine .of_continues hcontrol (fun ha => ?_)
    (fun hp => (SearchState.peopled_backtrack h.search hback hp : low.assignment.Peopled _))
    (hsaves.trans (saves_analyse hr.analysed)) hsize
  rw [hrd]
  exact hr.accounted _ ha

/-- What becomes true by the lesson makes up for the levels that are given up. -/
theorem decays {search : SearchState κ} {analyser : Analyser} {control control' : Control}
    {e' : Engine κ} (hr : Resolves ⟨search, analyser, control⟩ r low lesson first rest)
    (h : (⟨search, analyser, control⟩ : Engine κ).WellFormed)
    (hc : Carries ⟨low.taught lesson, lesson.analyser, control'⟩ e')
    (hj : (low.taught lesson).Jumps lesson.clause.backjumpLevel e'.search.assignment)
    (hcontrol : control.Continues control') (hrd : control'.restricted = control.restricted) :
    Carries ⟨search, analyser, control⟩ e'.decay ∧
      search.assignment.Rises e'.decay.search.assignment := by
  obtain ⟨hdecay, hsame⟩ := decay_carries e'
  refine ⟨((hr.carries h hcontrol hrd).trans hc).trans hdecay, ?_⟩
  rw [hsame]
  exact hr.rises h hj

end Resolves

/-- A conflict above the root is resolved: some level gets heavier, and those below it stay as they
are. -/
theorem resolveConflict_yields {r : Reference} {c : Constraint κ} {e : Engine κ} (h : e.WellFormed)
    (hh : e.Honours) (hc : e.search.arena.get? r = some c)
    (hv : c.kind.Violated e.search.assignment.trues) :
    Yields (e.resolveConflict r) fun x => e.Carries x.2 ∧
      (x.1 = true → e.search.assignment.Rises x.2.search.assignment) := by
  obtain ⟨search, analyser, control⟩ := e
  refine .bind_total ⟨c, Arena.get_eq_ok.mpr hc⟩ fun c₀ hget => ?_
  cases Option.some.inj ((Arena.get_eq_ok.mp hget).symm.trans hc)
  dsimp only
  split
  · exact .ok ⟨.refl _, nofun⟩
  rename_i hne
  obtain ⟨low, lesson, first, rest, hr⟩ := exists_resolves h hh hc hv hne
  obtain ⟨c', hc', hback⟩ := hr.lowered
  cases hc.symm.trans hc'
  have hw₂ := hr.tunes.wellFormed hr.wellFormed
  have hfirst : lesson.clause.backjumpLevel < low.assignment.levelOf first.var := by
    rw [hr.asserts.current]
    exact hr.lower
  refine .bind_total ⟨low, hback⟩ fun low₀ hlow => ?_
  cases hback.symm.trans hlow
  refine .bind_total ⟨lesson, hr.analysed⟩ fun lesson₀ hlesson => ?_
  cases hr.analysed.symm.trans hlesson
  cases rest with
  | nil =>
    rw [hr.asserts.literals]
    refine .bind (learnUnit_yields (e := ⟨low.taught lesson, lesson.analyser, _⟩) ⟨hw₂, hr.clean⟩
      (hr.known first List.mem_cons_self) (Nat.zero_lt_of_lt hfirst)) fun e₃ ⟨h₃, hj⟩ => ?_
    rw [← hr.asserts.unit rfl] at hj
    obtain ⟨hcarry, hrise⟩ := hr.decays h h₃ hj (.of_noted rfl) rfl
    exact .ok ⟨hcarry, fun _ => hrise⟩
  | cons m ms =>
    rw [hr.asserts.literals]
    have hkind : (Kind.clause ⟨first, m, ms⟩ : Kind κ).WellFormed low.assignment.cells.size :=
      ⟨hr.asserts.nodup, hr.known⟩
    refine .bind (learnClause_yields (e := ⟨low.taught lesson, lesson.analyser, _⟩)
      ⟨hw₂, hr.clean⟩ hkind hfirst fun l hl => ⟨?_, hr.asserts.highest l hl⟩) fun e₃ ⟨h₃, hj⟩ => ?_
    · exact (hr.wellFormed.onBoard.consistent.isFalsified_iff l).mp
        (hr.asserts.falsified l (List.mem_cons_of_mem _ hl))
    · obtain ⟨hcarry, hrise⟩ := hr.decays h h₃ hj (.of_noted rfl) rfl
      exact .ok ⟨hcarry, fun _ => hrise⟩

/-- Going back to a level carries, whatever else is done to what is counted. -/
theorem backtrack_carries {search search' : SearchState κ} {analyser analyser' : Analyser}
    {control control' : Control} (hw : search.WellFormed) {level : Nat}
    (hback : search.backtrack level = .ok search') (hcontrol : control.Continues control')
    (hrd : control'.restricted = control.restricted) :
    Carries ⟨search, analyser, control⟩ ⟨search', analyser', control'⟩ :=
  .of_continues hcontrol (fun ha => by rw [hrd]; exact ha.backtrack hw hback)
    (fun hp => SearchState.peopled_backtrack hw hback hp) (SearchState.saves_backtrack hback)
    (SearchState.size_backtrack hw hback).1

theorem backtrack_yields {e : Engine κ} (h : e.WellFormed) (level : Nat) :
    Yields (e.backtrack level) fun e' => e.Carries e' := by
  obtain ⟨search, analyser, control⟩ := e
  exact .bind_total (SearchState.backtrack_total h.search level) fun search' hback =>
    .ok (backtrack_carries h.search hback (.refl _) rfl)

theorem rootConflict_yields {e : Engine κ} (h : e.WellFormed) :
    Yields e.rootConflict fun x => e.Carries x.2 := by
  refine (backtrack_yields h 0).bind fun e' hc => ?_
  dsimp only
  split
  · exact .ok hc
  · obtain ⟨search, analyser, control⟩ := e'
    exact .ok (hc.trans (.of_continues (.of_noted rfl) (fun ha => ha) (fun hp => hp) (.of_eq rfl)
      rfl))

/-! ## Decisions -/

omit [CustomConstraint κ] in
/-- Above the assumptions, a blocking clause begins on the current level. -/
theorem blockingClause_top {s : SearchState κ} (hw : s.WellFormed) {n : Nat}
    (hp : s.assignment.Peopled n) (hlt : n < s.decisionLevel) :
    ∃ k l, s.decisionLevel = k + 1 ∧ s.assignment.levelOf l.var = k + 1 ∧
      blockingClause s.assignment (k + 1) = l :: blockingClause s.assignment k ∧
      ∀ m ∈ l :: blockingClause s.assignment k, m.Known s.assignment.cells.size := by
  have hcon : s.assignment.Consistent := hw.onBoard.consistent
  obtain ⟨k, hk⟩ : ∃ k, s.decisionLevel = k + 1 := ⟨s.decisionLevel - 1, by omega⟩
  obtain ⟨l, hl, hlevelAt, hblock⟩ := blockingClause_succ hw.layered
    (hp (k + 1) (by omega) (Nat.le_of_eq hk.symm))
  refine ⟨k, -l, hk, ?_, hblock, fun m hm =>
    known_of_mem_blockingClause hcon hw.layered (hblock ▸ hm)⟩
  rw [Literal.var_negate, hcon.levelOf_eq hl, hlevelAt]

/-- A blocking clause of several literals is entered with the next age. -/
def forbid (k : Clause) (s : SearchState κ) : SearchState κ :=
  ({ s with learned := s.learned.nextAge.2 } : SearchState κ).learn k
    (.blockingAt s.learned.nextAge.1)
    k.literals.length

/-- A blocking clause forbids what was decided on the current level: on the level below, its first
literal becomes true. -/
theorem jumps_block {search search' : SearchState κ} (hw : search.WellFormed) {k : Nat}
    {l m : Literal} {ms : List Literal}
    (hblock : blockingClause search.assignment (k + 1) = l :: m :: ms)
    (hknown : ∀ x ∈ l :: m :: ms, x.Known search.assignment.cells.size)
    (hlevelOf : search.assignment.levelOf l.var = k + 1)
    (hback : search.backtrack k = .ok search') :
    search.Jumps k (forbid ⟨l, m, ms⟩ search').assignment ∧
      (search.Accounted true → (forbid ⟨l, m, ms⟩ search').Accounted true) := by
  have hcon : search.assignment.Consistent := hw.onBoard.consistent
  have hbelow := false_below_of_blockingClause hcon hw.layered hblock
  have hnodup := nodup_blockingClause hcon hw.layered (k + 1)
  rw [hblock] at hnodup
  have hkind : (Kind.clause ⟨l, m, ms⟩ : Kind κ).WellFormed search.assignment.cells.size :=
    ⟨hnodup, hknown⟩
  have hlearned := (SearchState.size_backtrack hw hback).2.2
  have hstays : ∀ x ∈ m :: ms, -x ∈ search'.assignment.trues := by
    intro x hx
    obtain ⟨hfalse, hlt⟩ := hbelow x hx
    refine SearchState.mem_backtrack hw hback hfalse ?_
    rw [Literal.var_negate]
    omega
  have hfree : search'.assignment.isUnassigned l = true :=
    SearchState.isUnassigned_backtrack hw hback (by omega)
  obtain ⟨hj, haccounted⟩ := SearchState.jumps_learn hw hback
    search'.learned.nextAge.2 (by rw [hlearned]; rfl) (by rw [hlearned]; rfl) hkind hfree hstays
    (m := .blockingAt search'.learned.nextAge.1) rfl (by rw [hlearned]; rfl) (l :: m :: ms).length
  exact ⟨hj, haccounted true fun _ => rfl⟩

/-- The decisions above the assumptions are forbidden on the level below the current one, or at the
root. -/
theorem blockDecisions_yields {e : Engine κ} (h : e.WellFormed)
    (hp : e.search.assignment.Peopled e.control.assumptions.length) :
    Yields e.blockDecisions fun x => e.Carries x.2 ∧
      (x.1 = none → e.search.assignment.Rises x.2.search.assignment) := by
  obtain ⟨search, analyser, control⟩ := e
  have hw : search.WellFormed := h.search
  simp only [blockDecisions]
  split
  · obtain ⟨search', hback⟩ := SearchState.backtrack_total hw 0
    rw [hback]
    exact .ok ⟨backtrack_carries hw hback (.refl _) rfl, fun hnone => absurd hnone
      (Option.some_ne_none _)⟩
  rename_i hlevel
  obtain ⟨k, l, hk, hlevelOf, hblock, hknown⟩ := blockingClause_top hw hp (Nat.lt_of_not_le hlevel)
  have hrises : ∀ {level : Nat} {a : Assignment}, search.Jumps level a → level ≤ k →
      search.assignment.Rises a := fun hj hlevel =>
    hj.rises hw (by omega) (Nat.le_refl _) fun _ _ => rfl
  rw [hk, hblock]
  cases hrest : blockingClause search.assignment k with
  | nil =>
    obtain ⟨search', hback⟩ := SearchState.backtrack_total hw 0
    obtain ⟨hj, haccounted⟩ := SearchState.jumps_enqueue hw hback (hknown l List.mem_cons_self)
      (by omega)
    dsimp only
    rw [hback]
    have hsaves := SearchState.saves_backtrack hback
    exact .ok ⟨.of_jumps hw hj hsaves (.of_noted rfl)
      (fun ha => haccounted true (ha.mono fun _ => rfl)), fun _ => hrises hj (Nat.zero_le _)⟩
  | cons m ms =>
    rw [hrest] at hknown hblock
    obtain ⟨search', hback⟩ := SearchState.backtrack_total hw k
    obtain ⟨hj, haccounted⟩ := jumps_block hw hblock hknown hlevelOf hback
    dsimp only
    rw [Nat.add_sub_cancel, hback]
    have hsaves := SearchState.saves_backtrack hback
    exact .ok ⟨.of_jumps hw hj hsaves (.of_noted rfl)
      (fun ha => haccounted (ha.mono fun _ => rfl)), fun _ => hrises hj (Nat.le_refl _)⟩

omit [CustomConstraint κ] in
/-- A decision opens a level with a literal of its own. -/
theorem decideOn_carries {e : Engine κ} (h : e.WellFormed)
    (hhead : e.search.head = e.search.assignment.trues.length) {l : Literal}
    (hk : l.Known e.search.assignment.cells.size) (hl : e.search.assignment.isUnassigned l = true) :
    e.Carries (e.decideOn l) ∧ e.search.assignment.Rises (e.decideOn l).search.assignment := by
  obtain ⟨search, analyser, control⟩ := e
  have hw : search.WellFormed := h.search
  have hw' := hw.openLevel hhead
  have hk' : l.Known search.openLevel.assignment.cells.size := hk
  obtain ⟨he, -, -⟩ := SearchState.enqueue_spec hw' hk'
  obtain ⟨-, htrues⟩ := Assignment.enqueue_of_isUnassigned hw'.onBoard.consistent hk'.2 hl none
  have hlen : search.assignment.trues.length <
      (search.openLevel.enqueue l).2.assignment.trues.length := by
    rw [show (search.openLevel.enqueue l).2.assignment.trues = search.assignment.trues ++ [l] from
      htrues, List.length_append]
    exact Nat.lt_succ_self _
  refine ⟨.of_continues (.refl _) (fun ha => ?_) (fun hp => ?_) (.of_eq rfl) he.extension.size, ?_⟩
  · exact SearchState.Accounted.ofExtends
      (ha.agree (.refl search.arena) rfl (Nat.le_refl _) : search.openLevel.Accounted _) he
  · exact Assignment.Peopled.decide hp hw.layered he.extension hlen
  · rcases he.extension.rises_or_eq hw'.layered with hrise | heq
    · exact search.assignment.rises_openLevel.trans hrise
    · obtain ⟨j, hbelow, hlt⟩ := search.assignment.rises_openLevel
      exact ⟨j, fun k hk => (heq k).trans (hbelow k hk), Nat.lt_of_lt_of_eq hlt (heq j).symm⟩

theorem decideVariable_yields {e : Engine κ} (h : e.WellFormed)
    (hhead : e.search.head = e.search.assignment.trues.length)
    (hp : e.search.assignment.Peopled e.control.assumptions.length) :
    Yields e.decideVariable fun x => e.Carries x.2 ∧
      (x.1 = none → e.search.assignment.Rises x.2.search.assignment) := by
  obtain ⟨⟨board, arena, learned, order, head⟩, analyser, control⟩ := e
  have hw : (⟨board, arena, learned, order, head⟩ : SearchState κ).WellFormed := h.search
  simp only [decideVariable]
  split
  · rename_i l order' hnext
    have hsaves := DecisionOrder.saves_nextDecision hnext
    have hdecided := DecisionOrder.nextDecision_some hw.order hnext
    have hfree : board.assignment.isUnassigned l = true := by
      have := DecisionOrder.var_nextDecision hnext
      rw [Assignment.isAssigned] at this
      rw [Assignment.isUnassigned, Option.isNone_iff_eq_none, ← Option.not_isSome_iff_eq_none, this]
      exact Bool.false_ne_true
    obtain ⟨hc, hrise⟩ := decideOn_carries h hhead ⟨hdecided.var_ne_zero, hdecided.var_lt⟩ hfree
    -- The order and what is counted make no difference.
    exact .ok ⟨.of_continues (.of_noted rfl)
      (fun ha => (hc.accounted ha).agree (.refl _) rfl (Nat.le_refl _)) hc.peopled hsaves hc.size,
      fun _ => hrise⟩
  · rename_i order' hnext
    have hsaves := DecisionOrder.saves_nextDecision hnext
    obtain ⟨hw', -⟩ := hw.nextDecision_none hnext
    have hc : Carries ⟨⟨board, arena, learned, order, head⟩, analyser, control⟩
        ⟨⟨board, arena, learned, order', head⟩, analyser, control⟩ :=
      .of_continues (.refl _) (fun ha => ha.agree (.refl arena) rfl (Nat.le_refl _)) (fun hp => hp)
        hsaves rfl
    split
    · exact .ok ⟨hc, fun hnone => absurd hnone (Option.some_ne_none _)⟩
    · have h' : (⟨⟨board, arena, learned, order', head⟩, analyser, control⟩ :
          Engine κ).WellFormed :=
        ⟨hw', h.clean⟩
      exact (blockDecisions_yields h' hp).mono fun x hx => ⟨hc.trans hx.1, hx.2⟩

theorem failAssumption_yields {l : Literal} {e : Engine κ} (h : e.WellFormed) :
    Yields (e.failAssumption l) fun x => e.Carries x.2 := by
  obtain ⟨search, ⟨minimisation, seen, minimiser⟩, control⟩ := e
  have hw : search.WellFormed := h.search
  refine .bind_total (unsatCore_total hw.justifies l seen) fun x _ => ?_
  obtain ⟨core, seen'⟩ := x
  exact .bind_total (SearchState.backtrack_total hw 0) fun search' hback =>
    .ok (backtrack_carries hw hback (.refl _) rfl)

omit [CustomConstraint κ] in
/-- The level of an assumption may be empty. -/
theorem openLevel_carries {e : Engine κ} {l : Literal}
    (hnext : e.control.assumptions[e.search.decisionLevel]? = some l) :
    e.Carries (e.modifySearch (·.openLevel)) := by
  obtain ⟨search, analyser, control⟩ := e
  refine .of_continues (.refl _) (fun ha => ha.agree (.refl search.arena) rfl (Nat.le_refl _))
    (fun _ => .of_le ?_) (.of_eq rfl) rfl
  have hlt := (List.getElem?_eq_some_iff.mp hnext).1
  show search.openLevel.decisionLevel ≤ control.assumptions.length
  rw [search.decisionLevel_openLevel]
  exact hlt

/-- Assumptions are made, a variable is decided, or there is an outcome. -/
theorem assume_yields {ls : List Literal} {e : Engine κ} (h : e.WellFormed)
    (hhead : e.search.head = e.search.assignment.trues.length)
    (hknown : ∀ l ∈ e.control.assumptions, l.Known e.search.assignment.cells.size)
    (hp : e.search.assignment.Peopled e.control.assumptions.length)
    (hls : ls = e.control.assumptions.drop e.search.decisionLevel) :
    Yields (e.assume ls) fun x => e.Carries x.2 ∧
      (x.1 = none → e.search.assignment.Rises x.2.search.assignment) := by
  induction ls generalizing e with
  | nil => exact decideVariable_yields h hhead hp
  | cons l ls ih =>
    have hnext : e.control.assumptions[e.search.decisionLevel]? = some l := by
      rw [← List.head?_drop, ← hls, List.head?_cons]
    have hmem := List.mem_of_getElem? hnext
    have hcon : e.search.assignment.Consistent := h.search.onBoard.consistent
    unfold assume
    split
    · rename_i hsat
      have h' := (assumed_spec h hhead hnext ((hcon.isSatisfied_iff l).mp hsat)).wellFormed
      have hc := openLevel_carries hnext
      have htail : ls = e.control.assumptions.drop (e.search.decisionLevel + 1) := by
        rw [← List.tail_drop, ← hls, List.tail_cons]
      refine (ih h' hhead hknown (hc.peopled hp) ?_).mono fun x hx =>
        ⟨hc.trans hx.1, fun hnone => e.search.assignment.rises_openLevel.trans (hx.2 hnone)⟩
      rw [htail, ← SearchState.decisionLevel_openLevel]
      rfl
    · rename_i hsat
      split
      · exact (failAssumption_yields h).bind fun x hx =>
          .ok ⟨hx, fun hnone => absurd hnone (Option.some_ne_none _)⟩
      · rename_i hfalse
        obtain ⟨hc, hrise⟩ := decideOn_carries h hhead (hknown l hmem)
          (Assignment.isUnassigned_of_not hsat hfalse)
        exact .ok ⟨hc, fun _ => hrise⟩

/-! ## Upkeep -/

theorem simplifyIfDue_yields {e : Engine κ} (h : e.WellFormed) :
    Yields e.simplifyIfDue fun e' => e.Carries e' ∧
      ∀ k, e'.search.assignment.weight k = e.search.assignment.weight k := by
  unfold simplifyIfDue
  split
  · rename_i hdue
    obtain ⟨search, analyser, control⟩ := e
    have hw : search.WellFormed := h.search
    have htotal : ∃ x, search.simplify = .ok x :=
      exists_ok_bind (SearchState.forgetReasons_total hdue.1) fun _ _ => ⟨_, rfl⟩
    refine .bind_total htotal fun x hx => .ok ?_
    obtain ⟨n, search'⟩ := x
    obtain ⟨-, -, ht, -⟩ := SearchState.simplify_spec hw hx
    have hsaves := DecisionOrder.Saves.of_eq (congrArg DecisionOrder.phase ht.order)
    exact ⟨.of_continues (.of_noted rfl) (fun ha => ha.simplify hw hx)
      (fun hp => hp.congr ht.trues ht.starts) hsaves ht.size,
      Assignment.weight_congr ht.trues ht.starts⟩
  · exact .ok ⟨.refl e, fun _ => rfl⟩

theorem reduceIfDue_yields {e : Engine κ} (h : e.WellFormed) :
    Yields e.reduceIfDue fun e' => e.Carries e' ∧
      ∀ k, e'.search.assignment.weight k = e.search.assignment.weight k := by
  simp only [reduceIfDue]
  split
  · obtain ⟨⟨⟨a, w⟩, arena, learned, order, head⟩, analyser, control⟩ := e
    refine .bind_total (LearnedDatabase.reduce_total
      (fun r hr => (h.search.lists.learned r hr).imp fun _ hc => hc.1) a) fun x hx => .ok ?_
    obtain ⟨rs, learned'⟩ := x
    obtain ⟨-, ht, -⟩ := SearchState.reduce_spec h.search hx
    have htimers := List.length_modify (fun entry => (entry.1, false)) control.timers.entries
      control.reduceTimer
    have hsaves := DecisionOrder.Saves.of_eq (congrArg DecisionOrder.phase ht.order)
    exact ⟨.of_continues ⟨rfl, rfl, fun hs => hs, htimers, rfl⟩ (fun ha => ha.reduce hx)
      (fun hp => hp.congr ht.trues ht.starts) hsaves ht.size,
      Assignment.weight_congr ht.trues ht.starts⟩
  · exact .ok ⟨.refl e, fun _ => rfl⟩

/-- There are no restarts under the policy that never restarts. -/
theorem restartIfDue_yields {e : Engine κ} (h : e.WellFormed) :
    Yields e.restartIfDue fun e' => e.Carries e' ∧ (e.control.restarts = .never → e' = e) := by
  unfold restartIfDue
  split
  · rename_i hdue
    have hnot : e.control.restarts ≠ .never := fun hs => by
      rw [hs] at hdue
      cases hdue.1
    obtain ⟨search, analyser, control⟩ := e
    have hw : search.WellFormed := h.search
    exact .bind_total (SearchState.backtrack_total hw 0) fun search' hback =>
      .ok ⟨backtrack_carries hw hback ⟨rfl, rfl, fun hs => absurd hs hnot, rfl, rfl⟩ rfl,
        fun hs => absurd hs hnot⟩
  · exact .ok ⟨.refl e, fun _ => rfl⟩

/-! ## Stages -/

/-- Stages between which the weights may stay as they are. -/
def rank : Stage → Nat
  | .propagating => 0
  | _ => 1

/-- What a search comes closer to its end by: levels get heavier, or what is true is propagated. -/
def Climbs (e : Engine κ) (stage : Stage) (e' : Engine κ) (stage' : Stage) : Prop :=
  e.search.assignment.Rises e'.search.assignment ∨
    (∀ k, e'.search.assignment.weight k = e.search.assignment.weight k) ∧ rank stage < rank stage'

/-- Every stage has a result, and without restarts the search comes closer to its end. -/
theorem step_yields {stage : Stage} {e : Engine κ} (h : e.WellFormed) (hh : e.Honours)
    (hknown : ∀ l ∈ e.control.assumptions, l.Known e.search.assignment.cells.size)
    (hp : e.search.assignment.Peopled e.control.assumptions.length) (hat : e.At stage) :
    Yields (e.step stage) fun x => e.Carries x.2 ∧ (e.control.restarts = .never →
      ∀ stage', x.1 = .ok stage' → e.Climbs stage x.2 stage') := by
  cases stage with
  | propagating =>
    refine (propagate_yields h).bind fun x ⟨hc, he⟩ => .ok ⟨hc, fun _ stage' hs => ?_⟩
    obtain ⟨conflict, e'⟩ := x
    have hrank : rank stage' = 1 := by
      cases hs
      cases conflict <;> rfl
    exact (he.rises_or_eq h.search.layered).imp_right fun heq =>
      ⟨heq, by rw [hrank]; exact Nat.one_pos⟩
  | conflict r =>
    obtain ⟨-, c, hc, hv⟩ := hat
    obtain ⟨hcount, hsearch⟩ := countConflict_spec h
    have hcc := countConflict_carries e
    rw [← hsearch] at hc hv
    refine .bind (resolveConflict_yields hcount.wellFormed (hcount.honours hh) hc hv).and_run
      fun x ⟨hrun, hcarry, hrise⟩ => ?_
    obtain ⟨resolved, e₁⟩ := x
    cases resolved with
    | true =>
      refine .ok ⟨hcc.trans hcarry, fun _ _ _ => Or.inl ?_⟩
      rw [← hsearch]
      exact hrise rfl
    | false =>
      obtain ⟨rfl, -⟩ := (resolveConflict_spec hcount.wellFormed hc hv hrun).2 rfl
      exact (rootConflict_yields hcount.wellFormed).bind fun x hroot => .ok ⟨hcc.trans hroot, nofun⟩
  | deciding =>
    refine .bind (simplifyIfDue_yields h).and_run fun e₁ ⟨hrun₁, hc₁, hw₁⟩ => ?_
    have ht₁ := simplifyIfDue_spec h hrun₁
    refine .bind (reduceIfDue_yields ht₁.advances.wellFormed).and_run fun e₂ ⟨hrun₂, hc₂, hw₂⟩ => ?_
    have ht₂ := ht₁.trans (reduceIfDue_spec ht₁.advances.wellFormed hrun₂)
    refine .bind (restartIfDue_yields ht₂.advances.wellFormed).and_run
      fun e₃ ⟨hrun₃, hc₃, hsame⟩ => ?_
    have ht := ht₂.trans (restartIfDue_spec ht₂.advances.wellFormed hrun₃)
    have hc := (hc₁.trans hc₂).trans hc₃
    have hp₃ : e₃.search.assignment.Peopled e₃.control.assumptions.length := by
      rw [hc.assumptions]
      exact hc.peopled hp
    refine .bind (assume_yields ht.advances.wellFormed (ht.head hat) (ht.advances.known hknown) hp₃
      rfl) fun x ⟨hc₄, hrise⟩ => ?_
    obtain ⟨outcome, e₄⟩ := x
    cases outcome with
    | some outcome => exact .ok ⟨hc.trans hc₄, nofun⟩
    | none =>
      refine .ok ⟨hc.trans hc₄, fun hs _ _ => Or.inl ?_⟩
      have hweight : ∀ k, e₃.search.assignment.weight k = e.search.assignment.weight k := by
        rw [hsame ((hc₁.trans hc₂).steady hs)]
        exact fun k => (hw₂ k).trans (hw₁ k)
      exact .of_eq hweight (hrise rfl)

end Engine

end ClauseLearning
