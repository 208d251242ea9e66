import ClauseLearning.Proofs.Progress

/-!
# Between any two operations

`Engine.Reachable` is every state of an engine between two of its operations, from a new engine on:
between the calls of a session, in the midst of an addition or of a removal, and before and within
every stage of a search. An engine that is in the midst of something is at a moment that says what
the next operation relies on.

All of them are in order (`Engine.Orderly`), and so are the states of an engine that a caller sees
(`Session.Reachable.engine`) and the stages that a query goes through (`Session.Meets.reachable`).
-/

namespace ClauseLearning

variable {κ : Type}

/-- What an engine is in the midst of. -/
inductive Moment (κ : Type)
  /-- Nothing that the next operation relies on. -/
  | resting
  /-- An addition that began at `start` has attached the constraints `attached` so far. -/
  | adding (start : SearchState κ) (attached : List Reference)
  /-- What an addition made true is taken back, and what it attached is to be deleted. -/
  | refusing (attached : List Reference)
  /-- The root facts have no reasons any more, so that constraints can be deleted. -/
  | removing
  /-- A search is about to carry a stage out. -/
  | searching (stage : Stage)
  /-- A conflict is about to be analysed. -/
  | analysing (r : Reference)

namespace Engine

variable [CustomConstraint κ]

/-- The engines that operations make of a new one, with what they are in the midst of. -/
inductive Reachable : Moment κ → Engine κ → Prop
  | make (o : Options) : Reachable .resting (make o)
  /-- What is counted and reported may be anything, and so may the answer that is known. -/
  | noted {moment : Moment κ} {e : Engine κ} (h : Reachable moment e) (control : Control)
      (hc : e.control.Continues control) (hrestricted : control.restricted = e.control.restricted) :
      Reachable moment ⟨e.search, e.analyser, control⟩
  /-- Anything can be given up, and so can levels. -/
  | rested {moment : Moment κ} {e : Engine κ} (h : Reachable moment e) : Reachable .resting e
  | rewound {moment : Moment κ} {level : Nat} {e e' : Engine κ} (h : Reachable moment e)
      (hrun : e.backtrack level = .ok e') : Reachable .resting e'
  | grown {e : Engine κ} (h : Reachable .resting e) (n : Nat) : Reachable .resting (e.grow n)
  | modelled {e : Engine κ} (h : Reachable .resting e) : Reachable .resting e.model.2
  | confined {e : Engine κ} (h : Reachable .resting e) (vs : Option (List Nat)) :
      Reachable .resting (e.restrictDecisions vs)
  | cleared {e : Engine κ} (h : Reachable .resting e) : Reachable .resting e.clear
  -- Additions
  | begun {e : Engine κ} (h : Reachable .resting e) (hroot : e.search.decisionLevel = 0) :
      Reachable (.adding e.search []) e
  | widened {start : SearchState κ} {rs : List Reference} {e : Engine κ}
      (h : Reachable (.adding start rs) e) (n : Nat) : Reachable (.adding start rs) (e.grow n)
  | asserted {start : SearchState κ} {rs : List Reference} {e : Engine κ}
      (h : Reachable (.adding start rs) e) {l : Literal}
      (hk : l.Known e.search.assignment.cells.size) :
      Reachable (.adding start rs) (e.modifySearch fun s => (s.enqueue l).2)
  | attached {start : SearchState κ} {rs : List Reference} {e : Engine κ}
      (h : Reachable (.adding start rs) e) {d : Description κ} {k : Kind κ}
      (hd : d.Known e.search.assignment.cells.size)
      (hk : d.normalise e.search.assignment = .constraint k) (handle : Nat) :
      Reachable (.adding start (rs ++ [(e.search.attach ⟨k, .ofHandle handle⟩).1]))
        (e.modifySearch fun s => (s.attach ⟨k, .ofHandle handle⟩).2.2)
  | extended {start : SearchState κ} {rs : List Reference} {e e' : Engine κ}
      {conflict : Option Reference} (h : Reachable (.adding start rs) e)
      (hrun : e.propagate = .ok (conflict, e')) : Reachable (.adding start rs) e'
  | withdrawn {start : SearchState κ} {rs : List Reference} {e : Engine κ} {s : SearchState κ}
      (h : Reachable (.adding start rs) e)
      (hrun : e.search.backtrackRoot start.trailLength = .ok s) :
      Reachable (.refusing rs) ⟨s, e.analyser, e.control⟩
  | refused {rs : List Reference} {e : Engine κ} (h : Reachable (.refusing rs) e) :
      Reachable .resting (e.modifySearch (·.delete rs))
  -- Removals
  | forgot {moment : Moment κ} {e : Engine κ} {s : SearchState κ} (h : Reachable moment e)
      (hrun : e.search.forgetReasons = .ok s) : Reachable .removing ⟨s, e.analyser, e.control⟩
  | deleted {e : Engine κ} (h : Reachable .removing e) (rs : List Reference) (hrs : rs.Nodup)
      (halive : ∀ r ∈ rs, ∃ c, e.search.arena.get? r = some c) :
      Reachable .resting (e.modifySearch (·.delete rs))
  -- Searches
  | posed {e e' : Engine κ} (h : Reachable .resting e) (hrun : e.backtrack 0 = .ok e')
      {assumptions : List Literal} (hne : ∀ l ∈ assumptions, l.var ≠ 0) :
      Reachable (.searching .propagating) (e'.posed assumptions)
  | propagated {e e' : Engine κ} {conflict : Option Reference}
      (h : Reachable (.searching .propagating) e) (hrun : e.propagate = .ok (conflict, e')) :
      Reachable (.searching ((conflict.map Stage.conflict).getD .deciding)) e'
  | counted {r : Reference} {e : Engine κ} (h : Reachable (.searching (.conflict r)) e) :
      Reachable (.searching (.conflict r)) e.countConflict
  | lowered {r : Reference} {c : Constraint κ} {e e' : Engine κ}
      (h : Reachable (.searching (.conflict r)) e) (hc : e.search.arena.get? r = some c)
      (hrun : e.backtrack
        (highestLevel e.search.assignment (c.reason e.search.assignment none)) = .ok e') :
      Reachable (.analysing r) e'
  | taught {r : Reference} {e : Engine κ} {lesson : Lesson κ} (h : Reachable (.analysing r) e)
      (hrun : e.analyser.analyse r e.search.assignment e.search.order e.search.learned
        e.search.arena = .ok lesson) :
      Reachable .resting ⟨e.search.taught lesson, lesson.analyser, e.control⟩
  | resolved {r : Reference} {e e' : Engine κ} (h : Reachable (.searching (.conflict r)) e)
      (hrun : e.resolveConflict r = .ok (true, e')) : Reachable (.searching .propagating) e'
  | simplified {e e' : Engine κ} (h : Reachable (.searching .deciding) e)
      (hrun : e.simplifyIfDue = .ok e') : Reachable (.searching .deciding) e'
  | reduced {e e' : Engine κ} (h : Reachable (.searching .deciding) e)
      (hrun : e.reduceIfDue = .ok e') : Reachable (.searching .deciding) e'
  | restarted {e e' : Engine κ} (h : Reachable (.searching .deciding) e)
      (hrun : e.restartIfDue = .ok e') : Reachable (.searching .deciding) e'
  | opened {e : Engine κ} (h : Reachable (.searching .deciding) e) :
      Reachable .resting (e.modifySearch (·.openLevel))
  | assumed {e : Engine κ} {l : Literal} (h : Reachable (.searching .deciding) e)
      (hnext : e.control.assumptions[e.search.decisionLevel]? = some l)
      (htrue : e.search.assignment.isSatisfied l = true) :
      Reachable (.searching .deciding) (e.modifySearch (·.openLevel))
  | decided {e : Engine κ} {l : Literal} (h : Reachable (.searching .deciding) e)
      (hnext : e.control.assumptions[e.search.decisionLevel]? = some l)
      (hfree : e.search.assignment.isUnassigned l = true) :
      Reachable (.searching .propagating) (e.decideOn l)
  | chosen {e e' : Engine κ} (h : Reachable (.searching .deciding) e)
      (hmade : e.control.assumptions.length ≤ e.search.decisionLevel)
      (hrun : e.decideVariable = .ok (none, e')) : Reachable (.searching .propagating) e'
  | concluded {e e' : Engine κ} {outcome : Outcome} (h : Reachable (.searching .deciding) e)
      (hmade : e.control.assumptions.length ≤ e.search.decisionLevel)
      (hrun : e.decideVariable = .ok (some outcome, e')) : Reachable .resting e'
  | failed {e e' : Engine κ} {l : Literal} {outcome : Outcome}
      (h : Reachable (.searching .deciding) e)
      (hnext : e.control.assumptions[e.search.decisionLevel]? = some l)
      (hfalse : e.search.assignment.isFalsified l = true)
      (hrun : e.failAssumption l = .ok (outcome, e')) : Reachable .resting e'

/-! ## Order -/

/-- What a stage of a search relies on. -/
structure Ready (e : Engine κ) (stage : Stage) : Prop where
  honours : e.Honours
  known : ∀ l ∈ e.control.assumptions, l.Known e.search.assignment.cells.size
  peopled : e.search.assignment.Peopled e.control.assumptions.length
  at_stage : e.At stage

omit [CustomConstraint κ] in
theorem Ready.step {stage stage' : Stage} {e e' : Engine κ} (h : e.Ready stage)
    (ha : e.Advances e') (hc : e.Carries e') (hat : e'.At stage') : e'.Ready stage' := by
  refine ⟨ha.honours h.honours, ha.known h.known, ?_, hat⟩
  rw [hc.assumptions]
  exact hc.peopled h.peopled

end Engine

/-- What the next operation relies on. -/
def Moment.Fits (e : Engine κ) : Moment κ → Prop
  | .resting => True
  | .adding start attached => start.WellFormed ∧ start.decisionLevel = 0 ∧
      SearchState.Preserves attached start e.search
  | .refusing attached => attached.Nodup ∧ (∀ r ∈ attached, ∃ c, e.search.arena.get? r = some c) ∧
      ∀ l ∈ e.search.assignment.trues, ∀ r ∈ attached, e.search.assignment.reason? l.var ≠ some r
  | .removing => ∀ l ∈ e.search.assignment.trues, e.search.assignment.reason? l.var = none
  | .searching stage => e.Ready stage
  | .analysing r => ∃ c, e.search.arena.get? r = some c ∧ c.kind.Violated e.search.assignment.trues

/-- What is counted, timed and reported does not matter to what is going on. -/
theorem Moment.Fits.noted {moment : Moment κ} {e : Engine κ} {control : Control}
    (h : moment.Fits e) (ha : control.assumptions = e.control.assumptions) :
    moment.Fits ⟨e.search, e.analyser, control⟩ := by
  cases moment with
  | searching stage =>
    obtain ⟨hh, hknown, hp, hat⟩ := h
    rw [Engine.Honours, ← ha] at hh
    rw [← ha] at hknown hp
    exact ⟨hh, hknown, hp, hat⟩
  | _ => exact h

namespace Engine

/-- The invariants of the state hold, every constraint is accounted for, a policy that never
restarts stays one, the tables are large enough, and the moment is what it is said to be. -/
structure Orderly (moment : Moment κ) (e : Engine κ) : Prop where
  wellFormed : e.WellFormed
  accounted : e.search.Accounted e.control.restricted
  steady : e.control.options.restart.strategy = .never → e.control.restarts = .never
  tabled : e.Tabled
  fits : moment.Fits e

namespace Orderly

variable {moment moment' : Moment κ} {e e' : Engine κ}

/-- An operation that keeps what every operation does. -/
theorem sustain (h : Orderly moment e) (hw : e'.WellFormed) (hc : e.Sustains e')
    (hf : moment'.Fits e') :
    Orderly moment' e' :=
  ⟨hw, hc.accounted h.accounted, fun hs => hc.steady (h.steady (by rw [← hc.options]; exact hs)),
    hc.tabled h.tabled, hf⟩

/-- An operation on the state of the search, with which no variables come in. -/
theorem of_search (h : Orderly moment e) {s : SearchState κ} (hw : s.WellFormed)
    (haccounted : s.Accounted e.control.restricted) (hsaves : e.search.order.Saves s.order)
    (hsize : s.assignment.cells.size = e.search.assignment.cells.size)
    (hf : moment'.Fits ⟨s, e.analyser, e.control⟩) :
    Orderly moment' ⟨s, e.analyser, e.control⟩ := by
  have hclean : e.analyser.Clean s.assignment.cells.size := by
    rw [hsize]
    exact h.wellFormed.clean
  exact ⟨⟨hw, hclean⟩, haccounted, h.steady, h.tabled.congr hsaves hsize rfl rfl, hf⟩

theorem search {stage stage' : Stage} (h : Orderly (.searching stage) e) (ha : e.Advances e')
    (hc : e.Carries e') (hat : e'.At stage') : Orderly (.searching stage') e' :=
  h.sustain ha.wellFormed hc.toSustains (Ready.step h.fits ha hc hat)

end Orderly

/-! ## What operations sustain -/

theorem grow_sustains {e : Engine κ} (h : e.WellFormed) (n : Nat) : e.Sustains (e.grow n) := by
  obtain ⟨-, -, hcontrol, hs, -⟩ := grow_spec h n
  refine ⟨by rw [hcontrol], by rw [hcontrol], fun hs => by rw [hcontrol]; exact hs, fun ha => ?_,
    fun hp => ?_, fun ht => ⟨?_, by rw [hcontrol]; exact ht.timer⟩⟩
  · rw [hcontrol]
    rcases hs with hs | hs <;> rw [hs]
    · exact ha
    · exact ha.agree (.refl e.search.arena) rfl (Nat.le_refl _)
  · rcases hs with hs | hs <;> rw [hs]
    · exact hp
    · exact hp.congr rfl rfl
  · rcases hs with hs | hs <;> rw [hs]
    · exact ht.saved
    · have hsize : (e.search.grow n).assignment.cells.size =
          max e.search.assignment.cells.size (n + 1) := Assignment.size_cells_grow _ n
      rw [hsize]
      exact DecisionOrder.covers_grow ht.saved n

theorem model_sustains (e : Engine κ) : e.Sustains e.model.2 := by
  obtain ⟨⟨board, arena, learned, order, head⟩, analyser, control⟩ := e
  exact ⟨rfl, rfl, fun hs => hs, fun hs => hs.agree (.refl arena) rfl (Nat.le_refl _), fun hp => hp,
    fun ht => ht.congr (SearchState.saves_model _) rfl rfl rfl⟩

theorem restrictDecisions_sustains (e : Engine κ) (vs : Option (List Nat)) :
    e.Sustains (e.restrictDecisions vs) := by
  obtain ⟨⟨board, arena, learned, order, head⟩, analyser, control⟩ := e
  exact ⟨rfl, rfl, fun hs => hs, fun hs => hs.agree (.refl arena) rfl (Nat.le_refl _), fun hp => hp,
    fun ht => ht.congr (.of_eq (DecisionOrder.phase_restoreAll _)) rfl rfl rfl⟩

namespace Orderly

/-- A new policy that never restarts stays one. -/
theorem of_options {o : RestartOptions} (h : o.strategy = .never) :
    RestartPolicy.ofOptions o = .never := by
  simp only [RestartPolicy.ofOptions, h]

theorem make (o : Options) : Orderly .resting (make o : Engine κ) :=
  ⟨wellFormed_make o, .of_empty rfl, of_options, ⟨Phase.covers_ofRule .., Nat.one_pos⟩, trivial⟩

variable {moment moment' : Moment κ} {e e' : Engine κ}

/-- What is counted and reported may change at any moment. -/
theorem noted (h : Orderly moment e) {control : Control} (hc : e.control.Continues control)
    (hrestricted : control.restricted = e.control.restricted) :
    Orderly moment ⟨e.search, e.analyser, control⟩ := by
  refine ⟨⟨h.wellFormed.search, h.wellFormed.clean⟩, ?_, fun hs => ?_,
    h.tabled.congr (.of_eq rfl) rfl hc.timers hc.reduceTimer, h.fits.noted hc.assumptions⟩
  · rw [hrestricted]
    exact h.accounted
  · rw [hc.options] at hs
    exact hc.steady (h.steady hs)

theorem rest (h : Orderly moment e) : Orderly .resting e :=
  ⟨h.wellFormed, h.accounted, h.steady, h.tabled, trivial⟩

theorem grow (h : Orderly .resting e) (n : Nat) : Orderly .resting (e.grow n) :=
  h.sustain (grow_spec h.wellFormed n).1.wellFormed (grow_sustains h.wellFormed n) trivial

theorem model (h : Orderly .resting e) : Orderly .resting e.model.2 :=
  h.sustain (model_spec _ h.wellFormed).1.wellFormed (model_sustains _) trivial

theorem restrictDecisions (h : Orderly .resting e) (vs : Option (List Nat)) :
    Orderly .resting (e.restrictDecisions vs) :=
  h.sustain (restrictDecisions_spec h.wellFormed vs).1 (restrictDecisions_sustains _ vs) trivial

theorem clear (h : Orderly moment e) : Orderly .resting e.clear := by
  obtain ⟨hw, -⟩ := clear_spec h.wellFormed
  obtain ⟨⟨⟨a, w⟩, arena, learned, order, head⟩, analyser, control⟩ := e
  have hsaves := DecisionOrder.Saves.of_eq order.phase_restoreAll
  have hsize : a.clear.cells.size = a.cells.size := Array.size_replicate ..
  refine ⟨hw, .of_empty rfl, of_options, ⟨?_, Nat.one_pos⟩, trivial⟩
  show order.restoreAll.phase.Covers a.clear.cells.size
  rw [hsize]
  exact hsaves _ h.tabled.saved

theorem delete {rs : List Reference} (h : Orderly moment e) (hrs : rs.Nodup)
    (halive : ∀ r ∈ rs, ∃ c, e.search.arena.get? r = some c)
    (hreason : ∀ l ∈ e.search.assignment.trues, ∀ r ∈ rs,
      e.search.assignment.reason? l.var ≠ some r) :
    Orderly .resting (e.modifySearch (·.delete rs)) := by
  obtain ⟨search, analyser, control⟩ := e
  obtain ⟨hw, ht, -⟩ := SearchState.delete_spec h.wellFormed.search hrs halive hreason
  exact h.of_search hw (h.accounted.delete rs)
    (.of_eq (congrArg DecisionOrder.phase ht.order)) ht.size
    trivial

theorem forgetReasons (h : Orderly moment e) {s : SearchState κ}
    (hrun : e.search.forgetReasons = .ok s) : Orderly .removing ⟨s, e.analyser, e.control⟩ := by
  obtain ⟨-, hw, ht, -, -, hnone⟩ := SearchState.forgetReasons_spec h.wellFormed.search hrun
  exact h.of_search hw (h.accounted.forgetReasons h.wellFormed.search hrun)
    (.of_eq (congrArg DecisionOrder.phase ht.order)) ht.size hnone

/-- With no reason among the root facts, any constraint can go. -/
theorem remove {rs : List Reference} (h : Orderly .removing e) (hrs : rs.Nodup)
    (halive : ∀ r ∈ rs, ∃ c, e.search.arena.get? r = some c) :
    Orderly .resting (e.modifySearch (·.delete rs)) := by
  refine h.delete hrs halive fun l hl r _ hreason => ?_
  rw [h.fits l hl] at hreason
  cases hreason

section

variable {start : SearchState κ} {rs : List Reference}

theorem begin (h : Orderly .resting e) (hroot : e.search.decisionLevel = 0) :
    Orderly (.adding e.search []) e :=
  ⟨h.wellFormed, h.accounted, h.steady, h.tabled, h.wellFormed.search, hroot, .refl _⟩

theorem refuse (h : Orderly (.refusing rs) e) :
    Orderly .resting (e.modifySearch (·.delete rs)) := by
  obtain ⟨hnodup, halive, hreason⟩ := h.fits
  exact h.delete hnodup halive hreason

theorem widen (h : Orderly (.adding start rs) e) (n : Nat) :
    Orderly (.adding start rs) (e.grow n) := by
  obtain ⟨hstart, hroot, hp⟩ := h.fits
  obtain ⟨hadv, -, -, hs, -⟩ := grow_spec h.wellFormed n
  refine h.sustain hadv.wellFormed (grow_sustains h.wellFormed n) ⟨hstart, hroot, ?_⟩
  rcases hs with hs | hs
  · rw [hs]
    exact hp
  · rw [hs, ← List.append_nil rs]
    exact hp.trans hstart (.grow h.wellFormed.search n)

theorem enqueue (h : Orderly (.adding start rs) e) {l : Literal}
    (hk : l.Known e.search.assignment.cells.size) :
    Orderly (.adding start rs) (e.modifySearch fun s => (s.enqueue l).2) := by
  obtain ⟨search, analyser, control⟩ := e
  obtain ⟨hstart, hroot, hp⟩ := h.fits
  obtain ⟨he, hw, -⟩ := SearchState.enqueue_spec h.wellFormed.search hk
  refine h.of_search hw (h.accounted.ofExtends he) (.of_eq rfl) he.extension.size
    ⟨hstart, hroot, ?_⟩
  rw [← List.append_nil rs]
  exact hp.trans hstart (.of_extends he)

end

variable [CustomConstraint κ]

theorem backtrack {level : Nat} (h : Orderly moment e)
    (hrun : e.backtrack level = .ok e') (hf : moment'.Fits e') : Orderly moment' e' :=
  h.sustain (backtrack_spec h.wellFormed hrun).1.wellFormed
    ((backtrack_yields h.wellFormed level).of_run hrun).toSustains hf

omit [CustomConstraint κ] in
theorem openLevel (h : Orderly (.searching .deciding) e) :
    Orderly .resting (e.modifySearch (·.openLevel)) := by
  obtain ⟨search, analyser, control⟩ := e
  exact h.of_search (h.wellFormed.search.openLevel h.fits.at_stage)
    (h.accounted.agree (.refl search.arena) rfl (Nat.le_refl _)) (.of_eq rfl) rfl trivial

/-- A search starts at the root, with the variables of its assumptions known. -/
theorem posed (h : Orderly .resting e) (hrun : e.backtrack 0 = .ok e') {assumptions : List Literal}
    (hne : ∀ l ∈ assumptions, l.var ≠ 0) :
    Orderly (.searching .propagating) (e'.posed assumptions) := by
  obtain ⟨hadv, hhonours, hknown, -⟩ := posed_spec h.wellFormed hne hrun
  have h' : Orderly .resting e' := h.backtrack hrun trivial
  have hunder : (e'.under assumptions).WellFormed := ⟨h'.wellFormed.search, h'.wellFormed.clean⟩
  have hc := grow_sustains hunder (Description.maxVariable assumptions)
  have hroot : e'.search.decisionLevel = 0 := by
    rw [SearchState.decisionLevel_backtrack h.wellFormed.search
      (backtrack_spec h.wellFormed hrun).2.1, Nat.zero_min]
  have hp : (e'.under assumptions).search.assignment.Peopled assumptions.length :=
    .of_le (Nat.le_trans (Nat.le_of_eq hroot) (Nat.zero_le _))
  have htabled : (e'.under assumptions).Tabled := h'.tabled.congr (.of_eq rfl) rfl rfl rfl
  refine ⟨hadv.wellFormed, hc.accounted h'.accounted, fun hs => hc.steady (h'.steady ?_),
    hc.tabled htabled, hhonours, hknown, ?_, trivial⟩
  · rw [show e'.control.options = (e'.under assumptions).control.options from rfl, ← hc.options]
    exact hs
  · rw [show (e'.posed assumptions).control.assumptions = assumptions from hc.assumptions]
    exact hc.peopled hp

section

variable {start : SearchState κ} {rs : List Reference}

theorem attach (h : Orderly (.adding start rs) e) {d : Description κ} {k : Kind κ}
    (hd : d.Known e.search.assignment.cells.size)
    (hk : d.normalise e.search.assignment = .constraint k) (handle : Nat) :
    Orderly (.adding start (rs ++ [(e.search.attach ⟨k, .ofHandle handle⟩).1]))
      (e.modifySearch fun s => (s.attach ⟨k, .ofHandle handle⟩).2.2) := by
  obtain ⟨search, analyser, control⟩ := e
  have hw : search.WellFormed := h.wellFormed.search
  obtain ⟨hstart, hroot, hp⟩ := h.fits
  obtain ⟨hkind, hfalsified, hfresh⟩ :=
    Description.wellFormed_of_normalise hw.onBoard.consistent hd hk
  rcases hrun : search.attach ⟨k, .ofHandle handle⟩ with ⟨r, ok, search'⟩
  obtain ⟨-, hw', hg, hsame, hlearned⟩ :=
    SearchState.attach_spec (c := ⟨k, .ofHandle handle⟩) hw hkind hfalsified hrun
  have haccounted := h.accounted.attach (c := ⟨k, .ofHandle handle⟩) hw hkind hfalsified rfl
      rfl hrun
  simp only [modifySearch, hrun]
  exact h.of_search hw' haccounted (.of_eq (congrArg DecisionOrder.phase hg.order)) (by rw [hsame])
    ⟨hstart, hroot, hp.trans hstart (.of_gains hw hg hlearned hfresh)⟩

theorem extend (h : Orderly (.adding start rs) e) {conflict : Option Reference}
    (hrun : e.propagate = .ok (conflict, e')) : Orderly (.adding start rs) e' := by
  obtain ⟨hstart, hroot, hp⟩ := h.fits
  obtain ⟨hadv, -, -, -, hf, -⟩ := propagate_spec h.wellFormed hrun
  refine h.sustain hadv.wellFormed ((propagate_yields h.wellFormed).of_run hrun).1.toSustains
    ⟨hstart, hroot, ?_⟩
  rw [← List.append_nil rs]
  exact hp.trans hstart (.of_follows hf)

theorem withdraw (h : Orderly (.adding start rs) e) {s : SearchState κ}
    (hrun : e.search.backtrackRoot start.trailLength = .ok s) :
    Orderly (.refusing rs) ⟨s, e.analyser, e.control⟩ := by
  obtain ⟨hstart, hroot, hp⟩ := h.fits
  have hsaves := SearchState.saves_backtrackRoot hrun
  rw [show start.trailLength = start.assignment.trues.length from
    Assignment.size_trail start.assignment] at hrun
  obtain ⟨-, hr, hw, -⟩ := SearchState.backtrackRoot_spec h.wellFormed.search hp.length_le hrun
  exact h.of_search hw (h.accounted.rewinds hr) hsaves hr.cut.size
    ⟨hp.nodup, (hp.withdrawn hstart hr hw).2.2⟩

end

/-! ### Stages of a search -/

theorem propagate (h : Orderly (.searching .propagating) e) {conflict : Option Reference}
    (hrun : e.propagate = .ok (conflict, e')) :
    Orderly (.searching ((conflict.map Stage.conflict).getD .deciding)) e' := by
  obtain ⟨hadv, hhead, hviolated, -⟩ := propagate_spec h.wellFormed hrun
  refine h.search hadv ((propagate_yields h.wellFormed).of_run hrun).1 ?_
  cases conflict with
  | none => exact hhead
  | some r => exact ⟨hhead, hviolated r rfl⟩

omit [CustomConstraint κ] in
theorem countConflict {r : Reference} (h : Orderly (.searching (.conflict r)) e) :
    Orderly (.searching (.conflict r)) e.countConflict := by
  obtain ⟨hadv, hsearch⟩ := countConflict_spec h.wellFormed
  refine h.search hadv (countConflict_carries _) ?_
  unfold At
  rw [hsearch]
  exact h.fits.at_stage

/-- A conflict is one at the highest level of what the constraint forbids, too. -/
theorem lower {r : Reference} {c : Constraint κ} (h : Orderly (.searching (.conflict r)) e)
    (hc : e.search.arena.get? r = some c)
    (hrun : e.backtrack
      (highestLevel e.search.assignment (c.reason e.search.assignment none)) = .ok e') :
    Orderly (.analysing r) e' := by
  obtain ⟨-, c', hc', hv⟩ := h.fits.at_stage
  cases hc.symm.trans hc'
  exact h.backtrack hrun (violated_backtrack h.wellFormed.search
    (backtrack_spec h.wellFormed hrun).2.1 hc hv fun m hm => le_highestLevel _ hm)

theorem analyse {r : Reference} {lesson : Lesson κ} (h : Orderly (.analysing r) e)
    (hrun : e.analyser.analyse r e.search.assignment e.search.order e.search.learned
      e.search.arena = .ok lesson) :
    Orderly .resting ⟨e.search.taught lesson, lesson.analyser, e.control⟩ := by
  obtain ⟨c, hc, hv⟩ := h.fits
  obtain ⟨htunes, hclean, -, haccounted⟩ :=
    taught_spec h.wellFormed.search h.wellFormed.clean hc hv hrun
  exact ⟨⟨htunes.wellFormed h.wellFormed.search, hclean⟩, haccounted _ h.accounted, h.steady,
    h.tabled.congr (saves_analyse hrun) rfl rfl rfl, trivial⟩

theorem resolveConflict {r : Reference} (h : Orderly (.searching (.conflict r)) e)
    (hrun : e.resolveConflict r = .ok (true, e')) : Orderly (.searching .propagating) e' := by
  obtain ⟨-, c, hc, hv⟩ := h.fits.at_stage
  exact h.search ((resolveConflict_spec h.wellFormed hc hv hrun).1 rfl).1
    ((resolveConflict_yields h.wellFormed h.fits.honours hc hv).of_run hrun).1 trivial

omit [CustomConstraint κ] in
theorem tidy (h : Orderly (.searching .deciding) e) (ht : e.Tidies e') (hc : e.Carries e') :
    Orderly (.searching .deciding) e' :=
  h.search ht.advances hc (ht.head h.fits.at_stage)

omit [CustomConstraint κ] in
/-- A level is opened for an assumption that is true already. -/
theorem passAssumption {l : Literal} (h : Orderly (.searching .deciding) e)
    (hnext : e.control.assumptions[e.search.decisionLevel]? = some l)
    (htrue : e.search.assignment.isSatisfied l = true) :
    Orderly (.searching .deciding) (e.modifySearch (·.openLevel)) := by
  have hcon := h.wellFormed.search.onBoard.consistent
  exact h.search (assumed_spec h.wellFormed h.fits.at_stage hnext
    ((hcon.isSatisfied_iff _).mp htrue)) (openLevel_carries hnext) h.fits.at_stage

theorem decideOn {l : Literal} (h : Orderly (.searching .deciding) e)
    (hnext : e.control.assumptions[e.search.decisionLevel]? = some l)
    (hfree : e.search.assignment.isUnassigned l = true) :
    Orderly (.searching .propagating) (e.decideOn l) := by
  have hcon := h.wellFormed.search.onBoard.consistent
  have hk := h.fits.known _ (List.mem_of_getElem? hnext)
  exact h.search (decideOn_spec h.wellFormed h.fits.at_stage hk
    ((hcon.isUnassigned_iff _).mp hfree) hnext).1
    (decideOn_carries h.wellFormed h.fits.at_stage hk hfree).1 trivial

/-- What deciding on a variable does, whether there is one left or not. -/
theorem advances_decideVariable {outcome : Option Outcome} (h : Orderly (.searching .deciding) e)
    (hmade : e.control.assumptions.length ≤ e.search.decisionLevel)
    (hrun : e.decideVariable = .ok (outcome, e')) : e.Advances e' ∧ e.Carries e' :=
  ⟨(decideVariable_spec h.wellFormed h.fits.at_stage h.fits.honours hmade hrun).advances,
    ((decideVariable_yields h.wellFormed h.fits.at_stage h.fits.peopled).of_run hrun).1⟩

theorem decideVariable (h : Orderly (.searching .deciding) e)
    (hmade : e.control.assumptions.length ≤ e.search.decisionLevel)
    (hrun : e.decideVariable = .ok (none, e')) : Orderly (.searching .propagating) e' := by
  obtain ⟨hadv, hc⟩ := h.advances_decideVariable hmade hrun
  exact h.search hadv hc trivial

theorem conclude {outcome : Outcome} (h : Orderly (.searching .deciding) e)
    (hmade : e.control.assumptions.length ≤ e.search.decisionLevel)
    (hrun : e.decideVariable = .ok (some outcome, e')) : Orderly .resting e' := by
  obtain ⟨hadv, hc⟩ := h.advances_decideVariable hmade hrun
  exact h.sustain hadv.wellFormed hc.toSustains trivial

theorem failAssumption {l : Literal} {outcome : Outcome} (h : Orderly (.searching .deciding) e)
    (hnext : e.control.assumptions[e.search.decisionLevel]? = some l)
    (hfalse : e.search.assignment.isFalsified l = true)
    (hrun : e.failAssumption l = .ok (outcome, e')) : Orderly .resting e' := by
  have hcon := h.wellFormed.search.onBoard.consistent
  have hfail := failAssumption_spec h.wellFormed h.fits.honours (List.mem_of_getElem? hnext)
    ((hcon.isFalsified_iff _).mp hfalse) (List.getElem?_eq_some_iff.mp hnext).1 hrun
  exact h.sustain hfail.advances.wellFormed
    ((failAssumption_yields h.wellFormed).of_run hrun).toSustains trivial

end Orderly

variable [CustomConstraint κ] {moment : Moment κ} {e : Engine κ}

/-- Every engine is in order, whatever it is in the midst of. -/
theorem Reachable.orderly (h : Reachable moment e) : Orderly moment e := by
  induction h with
  | make o => exact .make o
  | noted _ _ hc hrestricted ih => exact ih.noted hc hrestricted
  | rested _ ih => exact ih.rest
  | rewound _ hrun ih => exact ih.backtrack hrun trivial
  | grown _ n ih => exact ih.grow n
  | modelled _ ih => exact ih.model
  | confined _ vs ih => exact ih.restrictDecisions vs
  | cleared _ ih => exact ih.clear
  | begun _ hroot ih => exact ih.begin hroot
  | widened _ n ih => exact ih.widen n
  | asserted _ hk ih => exact ih.enqueue hk
  | attached _ hd hk handle ih => exact ih.attach hd hk handle
  | extended _ hrun ih => exact ih.extend hrun
  | withdrawn _ hrun ih => exact ih.withdraw hrun
  | refused _ ih => exact ih.refuse
  | forgot _ hrun ih => exact ih.forgetReasons hrun
  | deleted _ _ hrs halive ih => exact ih.remove hrs halive
  | posed _ hrun hne ih => exact ih.posed hrun hne
  | propagated _ hrun ih => exact ih.propagate hrun
  | counted _ ih => exact ih.countConflict
  | lowered _ hc hrun ih => exact ih.lower hc hrun
  | taught _ hrun ih => exact ih.analyse hrun
  | resolved _ hrun ih => exact ih.resolveConflict hrun
  | simplified _ hrun ih =>
    exact ih.tidy (simplifyIfDue_spec ih.wellFormed hrun)
      ((simplifyIfDue_yields ih.wellFormed).of_run hrun).1
  | reduced _ hrun ih =>
    exact ih.tidy (reduceIfDue_spec ih.wellFormed hrun)
      ((reduceIfDue_yields ih.wellFormed).of_run hrun).1
  | restarted _ hrun ih =>
    exact ih.tidy (restartIfDue_spec ih.wellFormed hrun)
      ((restartIfDue_yields ih.wellFormed).of_run hrun).1
  | opened _ ih => exact ih.openLevel
  | assumed _ hnext htrue ih => exact ih.passAssumption hnext htrue
  | decided _ hnext hfree ih => exact ih.decideOn hnext hfree
  | chosen _ hmade hrun ih => exact ih.decideVariable hmade hrun
  | concluded _ hmade hrun ih => exact ih.conclude hmade hrun
  | failed _ hnext hfalse hrun ih => exact ih.failAssumption hnext hfalse hrun

end Engine

end ClauseLearning
