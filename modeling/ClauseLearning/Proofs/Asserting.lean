import ClauseLearning.Proofs.Attaching

/-!
# Learned clauses assert

Whatever conflict a search comes to above the root, it learns a clause from it that the attached
constraints and the root facts imply. Once the levels above all but its first literal are taken
back, that literal is the only one that is left and can be made true.

* `Engine.Reaches`: the stages that a search goes through, `Engine.Meets`: under assumptions.
* `Engine.Reaches.run_eq`: they are the stages of a run that nothing stops.
* `SearchState.Asserts`: what is promised of a learned clause.
* `Session.Reachable.asserts`: every analysis of a search keeps that promise.
-/

namespace ClauseLearning

variable {κ : Type} [CustomConstraint κ]

/-! ## Stages of a search -/

namespace Engine

/-- A search that goes on with a stage comes to the stage `last`. -/
inductive Reaches : Stage → Engine κ → Stage → Engine κ → Prop
  | here {stage : Stage} {e : Engine κ} : Reaches stage e stage e
  | later {stage stage' last : Stage} {e e' e₁ : Engine κ}
      (hstep : e.step stage = .ok (.ok stage', e')) (hrest : Reaches stage' e' last e₁) :
      Reaches stage e last e₁

/-- A search under assumptions comes to the stage `last`. -/
def Meets (assumptions : List Literal) (e : Engine κ) (last : Stage) (e₁ : Engine κ) : Prop :=
  e.control.infeasible = false ∧ ∃ e₀, e.backtrack 0 = .ok e₀ ∧
    Reaches .propagating (e₀.posed assumptions) last e₁

/-- Goes through so many stages, whatever a termination condition says. -/
def advance : Nat → Stage → Engine κ → Option (Stage × Engine κ)
  | 0, stage, e => some (stage, e)
  | n + 1, stage, e =>
    match e.step stage with
    | .ok (.ok stage, e) => advance n stage e
    | _ => none

theorem reaches_of_advance {n : Nat} {stage last : Stage} {e e₁ : Engine κ}
    (h : advance n stage e = some (last, e₁)) : Reaches stage e last e₁ := by
  induction n generalizing stage e with
  | zero =>
    cases h
    exact .here
  | succ n ih =>
    unfold advance at h
    split at h
    · rename_i hstep
      exact .later hstep (ih h)
    · cases h

section

variable {τ : Type} [Termination τ]

/-- A search that was interrupted before a stage had come to it. -/
theorem Interrupted.reaches {stage last : Stage} {limit : τ} {e e₁ : Engine κ}
    (h : Interrupted stage limit e last e₁) : Reaches stage e last e₁ := by
  induction h with
  | here _ => exact .here
  | later _ hstep _ ih => exact .later hstep ih

/-- A run that nothing stops goes through the stages that are reached. -/
theorem Reaches.run_eq {stage last : Stage} {e e₁ : Engine κ} (h : Reaches stage e last e₁)
    (hnever : ∀ limit : τ, (Termination.poll limit).1 = false) (limit : τ) :
    ∃ k limit', ∀ n, run (n + k) stage limit e = run n last limit' e₁ := by
  induction h generalizing limit with
  | here => exact ⟨0, limit, fun n => rfl⟩
  | @later stage _ _ _ _ _ hstep _ ih =>
    obtain ⟨k, limit', hrun⟩ := ih (stage.announce (Termination.poll limit).2)
    refine ⟨k + 1, limit', fun n => ?_⟩
    rw [← hrun n, ← Nat.add_assoc]
    have hpoll : Termination.poll limit = (false, (Termination.poll limit).2) :=
      Prod.ext (hnever limit) rfl
    conv_lhs => unfold run
    rw [hpoll]
    simp only [hstep, bind, Except.bind]

end

/-- What holds before the first stage holds before every stage. -/
theorem Reaches.spec {stage last : Stage} {e e₁ : Engine κ} (hr : Reaches stage e last e₁)
    (h : e.WellFormed) (hh : e.Honours)
    (hknown : ∀ l ∈ e.control.assumptions, l.Known e.search.assignment.cells.size)
    (hat : e.At stage) : e₁.WellFormed ∧ e₁.Honours ∧ e₁.At last := by
  induction hr with
  | here => exact ⟨h, hh, hat⟩
  | later hstep _ ih =>
    have hs := step_spec h hh hknown hat hstep
    exact ih hs.advances.wellFormed (hs.advances.honours hh) (hs.advances.known hknown)
      (hs.at_next _ rfl)

theorem Meets.spec {assumptions : List Literal} {last : Stage} {e e₁ : Engine κ}
    (hm : Meets assumptions e last e₁) (h : e.WellFormed) (hne : ∀ l ∈ assumptions, l.var ≠ 0) :
    e₁.WellFormed ∧ e₁.Honours ∧ e₁.At last := by
  obtain ⟨-, e₀, hback, hreaches⟩ := hm
  obtain ⟨hadv, hh, hknown, -⟩ := posed_spec h hne hback
  exact hreaches.spec hadv.wellFormed hh hknown trivial

end Engine

/-! ## What is learned -/

namespace SearchState

/-- The state with what an analysis leaves behind. -/
def taught (s : SearchState κ) (lesson : Lesson κ) : SearchState κ :=
  ⟨s.board, lesson.arena, lesson.learned, lesson.order, s.head⟩

/-- What is promised of a clause that is learned in a state, by its first literal and the others. -/
structure Asserts (s : SearchState κ) (lesson : Lesson κ) (first : Literal) (rest : List Literal) :
    Prop where
  literals : lesson.clause.literals = first :: rest
  nodup : ((first :: rest).map Literal.var).Nodup
  falsified : ∀ l ∈ first :: rest, s.assignment.isFalsified l = true
  above : ∀ l ∈ first :: rest, s.assignment.levelOf l.var ≠ 0
  /-- The first literal is the only one of the current level. -/
  current : s.assignment.levelOf first.var = s.decisionLevel
  lower : ∀ l ∈ rest, s.assignment.levelOf l.var < s.decisionLevel
  unit : rest = [] → lesson.clause.backjumpLevel = 0
  highest : ∀ l ∈ rest, s.assignment.levelOf l.var ≤ lesson.clause.backjumpLevel
  attained : ∀ l, rest.head? = some l → s.assignment.levelOf l.var = lesson.clause.backjumpLevel
  implied : ∀ ν, s.arena.Model s.assignment ν → ∃ l ∈ first :: rest, l.holds ν = true
  /-- After going back the first literal has no value and can be made true. -/
  asserted : ∃ s', (s.taught lesson).backtrack lesson.clause.backjumpLevel = .ok s' ∧
    s'.decisionLevel = lesson.clause.backjumpLevel ∧ s'.assignment.isUnassigned first = true ∧
    (∀ l ∈ rest, s'.assignment.isFalsified l = true) ∧
    ∀ reason, (s'.assignment.enqueue first reason).1 = true

/-- Below its level a literal has no value. -/
theorem isUnassigned_backtrack {level : Nat} {s s' : SearchState κ} (hw : s.WellFormed)
    (hrun : s.backtrack level = .ok s') {l : Literal}
    (hlevel : level < s.assignment.levelOf l.var) : s'.assignment.isUnassigned l = true := by
  have hcon : s.assignment.Consistent := hw.onBoard.consistent
  have hcon' : s'.assignment.Consistent := (hw.backtrack hrun).onBoard.consistent
  rw [hcon'.isUnassigned_iff]
  intro hmem
  obtain ⟨m, hm, hv⟩ := List.mem_map.mp hmem
  obtain ⟨i, hi⟩ := List.mem_iff_getElem?.mp hm
  rcases backtrack_spec hw hrun with ⟨hle, rfl⟩ | ⟨-, hr, -⟩
  · rw [← hv, hcon.levelOf_eq hi] at hlevel
    have hle' : s'.assignment.decisionLevel ≤ level := hle
    have htop := s'.assignment.levelAt_le i
    omega
  · have hi' := hr.cut.getElem? hi
    have hlt : i < s.assignment.trail.size := by
      rw [Assignment.size_trail]
      exact (List.getElem?_eq_some_iff.mp hi').1
    have hbefore : i < s.assignment.startOfLevel (level + 1) := by
      have hlen := (List.getElem?_eq_some_iff.mp hi).1
      rw [hr.cut.trues, List.length_take] at hlen
      omega
    rw [← hv, hcon.levelOf_eq hi'] at hlevel
    have hle := (Assignment.lt_startOfLevel_iff hw.layered.sorted hlt).mp hbefore
    omega

/-- A conflict with a literal of the current level is learned from. -/
theorem analyse_asserts {s : SearchState κ} (hw : s.WellFormed) (hd : s.assignment.Driven)
    {an : Analyser} (hclean : an.Clean s.assignment.cells.size) {r : Reference} {c : Constraint κ}
    (hc : s.arena.get? r = some c) (hv : c.kind.Violated s.assignment.trues)
    (hlevel : Engine.highestLevel s.assignment (c.reason s.assignment none) = s.decisionLevel)
    (habove : s.decisionLevel ≠ 0) :
    ∃ lesson first rest,
      an.analyse r s.assignment s.order s.learned s.arena = .ok lesson ∧
      s.Asserts lesson first rest := by
  have hcon : s.assignment.Consistent := hw.onBoard.consistent
  have hj := hw.justifies
  have hne : Engine.highestLevel s.assignment (c.reason s.assignment none) ≠ 0 := by omega
  obtain ⟨m, hm, hmlevel⟩ := Engine.exists_highestLevel s.assignment hne
  obtain ⟨lesson, hrun⟩ := Analyser.analyse_total hj hd hc hv hclean hw.order.valid hw.lists habove
    ⟨m, hm, hmlevel.trans hlevel⟩
  obtain ⟨-, horder, hrefs, hretagged, ⟨last, rest, hasserts⟩, himplied⟩ :=
    Analyser.analyse_spec hj hc hv hclean hw.order.valid hrun
  have htunes : s.Tunes (s.taught lesson) := ⟨rfl, hretagged, hrefs, horder, rfl⟩
  have hw' := htunes.wellFormed hw
  obtain ⟨s', hback⟩ := backtrack_total hw' lesson.clause.backjumpLevel
  have hcon' : s'.assignment.Consistent := (hw'.backtrack hback).onBoard.consistent
  have hfree : s'.assignment.isUnassigned (-last) = true := by
    refine isUnassigned_backtrack hw' hback ?_
    show lesson.clause.backjumpLevel < s.assignment.levelOf (-last).var
    rw [Literal.var_negate, hasserts.level]
    exact hasserts.lower
  refine ⟨lesson, -last, rest, hrun, hasserts.literals, hasserts.nodup_var, fun l hl => ?_,
    fun l hl => ?_, ?_, fun l hl => hasserts.levelOf_lt hl, hasserts.unit,
    fun l hl => (hasserts.others l hl).2, hasserts.attained, fun ν hν => ?_, s', hback, ?_, ?_,
    fun l hl => ?_, fun reason => ?_⟩
  · rw [hcon.isFalsified_iff]
    exact hasserts.falsified l hl
  · rcases List.mem_cons.mp hl with rfl | hl
    · rw [Literal.var_negate, hasserts.level]
      exact habove
    · exact hasserts.above l hl
  · rw [Literal.var_negate]
    exact hasserts.level
  · rw [← hasserts.literals]
    exact himplied ν hν
  · rw [decisionLevel_backtrack hw' hback]
    exact Nat.min_eq_left (Nat.le_of_lt hasserts.lower)
  · exact hfree
  · rw [hcon'.isFalsified_iff]
    obtain ⟨hf, hle⟩ := hasserts.others l hl
    refine mem_backtrack hw' hback hf ?_
    rw [Literal.var_negate]
    exact hle
  · have hlt : (-last).var < s'.assignment.cells.size := by
      rw [(size_backtrack hw' hback).1, Literal.var_negate]
      exact hcon.var_lt hasserts.mem
    have hnone := (hcon'.isUnassigned_iff (-last)).mp hfree
    rcases Assignment.enqueue_cases hcon' hlt reason with ⟨hmem, -⟩ | ⟨hmem, -⟩ | ⟨-, heq⟩
    · exact absurd (List.mem_map.mpr ⟨_, hmem, rfl⟩) hnone
    · exact absurd (List.mem_map.mpr ⟨_, hmem, Literal.var_negate _⟩) hnone
    · rw [heq]

end SearchState

namespace Session

/-- A query with some assumptions comes to the stage `last`, if nothing stops it before. -/
def Meets (assumptions : List Int) (s : Session κ) (last : Stage) (e : Engine κ) : Prop :=
  ∃ ls s₁, (literals assumptions).run s = (.ok ls, s₁) ∧ Engine.Meets ls s₁.engine last e

/-- From a conflict whose highest level is the current one, above the root, a clause is learned that
asserts its first literal. -/
theorem Reachable.asserts {s : Session κ} (h : s.Reachable) {assumptions : List Int} {r : Reference}
    {e : Engine κ} (hmeets : Meets assumptions s (.conflict r) e) {c : Constraint κ}
    (hc : e.search.arena.get? r = some c)
    (hlevel : Engine.highestLevel e.search.assignment (c.reason e.search.assignment none) =
      e.search.decisionLevel)
    (habove : 0 < e.search.decisionLevel) :
    ∃ lesson first rest, e.analyser.analyse r e.search.assignment e.search.order e.search.learned
        e.search.arena = .ok lesson ∧ e.search.Asserts lesson first rest := by
  obtain ⟨ls, s₁, hls, hmeets⟩ := hmeets
  obtain ⟨rfl, hne, -⟩ := ok_of_run_literals hls
  have hvalid := (idles_growAll h.valid (assumptions.map Int.natAbs)).valid h.valid
  obtain ⟨hw, hh, hat⟩ := hmeets.spec hvalid.engine hne
  obtain ⟨-, c', hc', hv⟩ := hat
  rw [hc] at hc'
  cases hc'
  exact SearchState.analyse_asserts hw.search hh.driven hw.clean hc hv hlevel (by omega)

/-! ### A conflict above the root -/

/-- The literal is assumed to be false. -/
theorem Reachable.asserts_of_copies :
    ∃ (e : Engine Empty) (lesson : Lesson Empty) (first : Literal) (rest : List Literal),
      withCopies.Reachable ∧ Meets [-1] withCopies (.conflict ⟨0⟩) e ∧
        0 < e.search.decisionLevel ∧ e.analyser.analyse ⟨0⟩ e.search.assignment e.search.order
          e.search.learned e.search.arena = .ok lesson ∧ e.search.Asserts lesson first rest := by
  have hconflict : (Engine.advance 3 .propagating
      ((withCopies.engine.growAll [1]).posed [.make 1 false])).any (fun x =>
        decide (x.1 = .conflict ⟨0⟩ ∧ 0 < x.2.search.decisionLevel) &&
          (x.2.search.arena.get? ⟨0⟩).any fun c => decide (Engine.highestLevel x.2.search.assignment
            (c.reason x.2.search.assignment none) = x.2.search.decisionLevel)) = true := by
    decide +kernel
  obtain ⟨⟨last, e⟩, hadvance, hx⟩ := (Option.any_eq_true ..).mp hconflict
  rw [Bool.and_eq_true, decide_eq_true_eq] at hx
  obtain ⟨⟨rfl, habove⟩, hc⟩ := hx
  obtain ⟨c, hc, hlevel⟩ := (Option.any_eq_true ..).mp hc
  have hmeets : Meets [-1] withCopies (.conflict ⟨0⟩) e :=
    ⟨[.make 1 false], ⟨withCopies.engine.growAll [1], withCopies.book⟩, rfl, rfl,
      withCopies.engine.growAll [1], rfl, Engine.reaches_of_advance hadvance⟩
  obtain ⟨lesson, first, rest, hrun, hasserts⟩ :=
    Reachable.asserts reachable_withCopies hmeets hc (of_decide_eq_true hlevel) habove
  exact ⟨e, lesson, first, rest, reachable_withCopies, hmeets, habove, hrun, hasserts⟩

end Session

end ClauseLearning
