import ClauseLearning.Proofs.Learning

/-!
# Decisions and what they end in

A decision opens a level, so it asks for nothing and misses nothing. When there is none left, either
everything is satisfied, or decisions are restricted and the current ones are forbidden. An
assumption that is false gives a core.

* `SearchState.Satisfied`: whatever completes the trail satisfies what was added.
* `Engine.Concludes`: what an outcome says about the problem.
* `Engine.decide_spec`: what a decision promises.
-/

namespace ClauseLearning

variable {κ : Type}

namespace SearchState

/-- Whatever completes the trail satisfies the constraints that were not learned. -/
def Satisfied (s : SearchState κ) : Prop :=
  ∀ ν : Valuation, (∀ l ∈ s.assignment.trues, l.holds ν = true) →
    ∀ {r c}, s.arena.get? r = some c → c.metadata.learned = false → c.kind.Holds ν

/-! ## When everything has a value -/

theorem subset_vars {s : SearchState κ} (hw : s.WellFormed) :
    s.assignment.trues.map Literal.var ⊆ List.range' 1 s.numVariables := by
  intro v hv
  have hcon : s.assignment.Consistent := hw.onBoard.consistent
  obtain ⟨l, hl, rfl⟩ := List.mem_map.mp hv
  have hzero := hcon.var_ne_zero hl
  have hsize := hcon.var_lt hl
  have hnum : s.numVariables = s.assignment.cells.size - 1 := rfl
  rw [List.mem_range'_1]
  omega

theorem trailLength_of_assigned {s : SearchState κ} (hw : s.WellFormed)
    (h : ∀ v, v ≠ 0 → v < s.assignment.cells.size → s.assignment.isAssigned v = true) :
    s.trailLength = s.numVariables := by
  have hcon : s.assignment.Consistent := hw.onBoard.consistent
  have hnum : s.numVariables = s.assignment.cells.size - 1 := rfl
  have hlen : s.trailLength = s.assignment.trues.length := s.assignment.size_trail
  have hle := (List.subperm_of_subset hcon.nodup_var (subset_vars hw)).length_le
  have hge : (List.range' 1 s.numVariables).length ≤
      (s.assignment.trues.map Literal.var).length := by
    refine (List.subperm_of_subset List.nodup_range' fun v hv => ?_).length_le
    rw [List.mem_range'_1] at hv
    exact (hcon.isAssigned_iff v).mp (h v (by omega) (by omega))
  rw [List.length_range', List.length_map] at hle hge
  omega

theorem mem_trues_of_trailLength {s : SearchState κ} (hw : s.WellFormed)
    (hlen : s.trailLength = s.numVariables) {v : Nat} (hv : v ≠ 0)
    (hlt : v < s.assignment.cells.size) : v ∈ s.assignment.trues.map Literal.var := by
  have hcon : s.assignment.Consistent := hw.onBoard.consistent
  have hsubperm := List.subperm_of_subset hcon.nodup_var (subset_vars hw)
  have hperm := hsubperm.perm_of_length_le (by
    have hnum : s.trailLength = s.assignment.trues.length := s.assignment.size_trail
    rw [List.length_range', List.length_map, ← hlen]
    exact Nat.le_of_eq hnum)
  rw [hperm.mem_iff, List.mem_range'_1]
  have hnum : s.numVariables = s.assignment.cells.size - 1 := rfl
  omega

/-- A settled state in which every variable has a value is satisfied. -/
theorem UpToDate.satisfied {s : SearchState κ} (h : s.UpToDate) (hw : s.WellFormed)
    (hhead : s.head = s.assignment.trues.length) (hlen : s.trailLength = s.numVariables) :
    s.Satisfied := by
  intro ν hν r c hc hl
  have hsettled := h.settles r c hc hl
  rw [hhead, List.take_length] at hsettled
  exact hsettled.holds (hw.onBoard.wellFormed hc)
    (fun v hv hlt => mem_trues_of_trailLength hw hlen hv hlt) hν

theorem satisfied_of_isSatisfied [CustomConstraint κ] {s : SearchState κ} (hw : s.WellFormed)
    (h : s.isSatisfied = true) : s.Satisfied := by
  intro ν hν r c hc hl
  have hmem : (r, c) ∈ s.arena.toList := (s.arena.mem_toList_iff (r, c)).mpr hc
  have := List.all_eq_true.mp h (r, c) hmem
  rw [hl, Bool.false_or] at this
  exact Constraint.holds_of_isSatisfied hw.onBoard.consistent (hw.onBoard.wellFormed hc) this hν

/-! ## Opening a level -/

/-- Another order may take the place of the old one. -/
theorem WellFormed.reorder {board : Board} {arena : Arena κ} {learned : LearnedDatabase}
    {order order' : DecisionOrder Generator} {head : Nat}
    (h : (⟨board, arena, learned, order, head⟩ : SearchState κ).WellFormed)
    (hw : order'.WellFormed board.assignment.cells.size) (ho : order'.Offers board.assignment) :
    (⟨board, arena, learned, order', head⟩ : SearchState κ).WellFormed :=
  ⟨h.onBoard, h.layered, h.head_le, h.starts_le, h.tidy, h.lists, hw, ho⟩

/-- When there is nothing left to decide, the order that is left is as good as the old one: every
variable that may be decided has a value. -/
theorem WellFormed.nextDecision_none {board : Board} {arena : Arena κ} {learned : LearnedDatabase}
    {order order' : DecisionOrder Generator} {head : Nat}
    (h : (⟨board, arena, learned, order, head⟩ : SearchState κ).WellFormed)
    (hnext : order.nextDecision board.assignment = (none, order')) :
    (⟨board, arena, learned, order', head⟩ : SearchState κ).WellFormed ∧
      order'.allowed = order.allowed ∧
      ∀ v, v < board.assignment.cells.size → order.isDecision v = true →
        board.assignment.isAssigned v = true := by
  obtain ⟨hworder, hallowed, hall⟩ := DecisionOrder.nextDecision_none h.order hnext
  have hassigned := hall h.offers
  refine ⟨h.reorder hworder fun v hv hdec hna => ?_, hallowed, hassigned⟩
  rw [hworder.numKeys] at hv
  rw [DecisionOrder.isDecision_congr hallowed] at hdec
  rw [hassigned v hv hdec] at hna
  cases hna

/-- A literal was decided on a level of its own. -/
structure Decides (l : Literal) (s s' : SearchState κ) : Prop where
  wellFormed : s'.WellFormed
  extension : s.openLevel.assignment.Extension s'.assignment
  retains : s.Retains s'
  admits : ∀ ν, s.Admits ν → s'.Admits ν
  upToDate : s.UpToDate → s'.UpToDate
  mem : l ∈ s'.assignment.trues
  fresh : ∀ {i m}, s.assignment.trues.length ≤ i → s'.assignment.trues[i]? = some m →
    m = l ∧ i = s.assignment.trues.length
  order : s'.order = s.order

theorem decides {s : SearchState κ} [CustomConstraint κ] (hw : s.WellFormed)
    (hhead : s.head = s.assignment.trues.length) {l : Literal}
    (hk : l.Known s.assignment.cells.size) (hl : l.var ∉ s.assignment.trues.map Literal.var) :
    s.Decides l (s.openLevel.enqueue l).2 := by
  have hw' := hw.openLevel hhead
  have hk' : l.Known s.openLevel.assignment.cells.size := hk
  obtain ⟨he, hw'', hq⟩ := enqueue_spec hw' hk'
  have hlevel : s.openLevel.decisionLevel ≠ 0 := by
    rw [decisionLevel_openLevel]
    omega
  refine ⟨hw'', hq.extension, (Retains.openLevel hw).trans (he.retains hw'), fun ν hν => ?_,
    fun hu => (hu.openLevel hhead).extend hw' he hq.consistent, ?_, fun hi hm => ?_, he.order⟩
  · exact (hν.openLevel hw).enqueue hw' hk' fun hzero => absurd hzero hlevel
  · cases hok : (s.openLevel.enqueue l).1 with
    | true => exact hq.mem hok
    | false =>
      obtain ⟨hneg, -⟩ := hq.falsified hok
      have hsame : (s.openLevel.enqueue l).2.assignment = s.openLevel.assignment :=
        (hq.falsified hok).2
      rw [hsame] at hneg
      exact absurd (List.mem_map.mpr ⟨-l, hneg, Literal.var_negate l⟩) hl
  · obtain ⟨hml, htake, -⟩ := hq.fresh hi hm
    have hlen := congrArg List.length htake
    rw [List.length_take, Nat.min_eq_left
      (Nat.le_of_lt (List.getElem?_eq_some_iff.mp hm).1)] at hlen
    exact ⟨hml, hlen⟩

/-- The variable that was decided is the only one that may have left the heap. -/
theorem Decides.offers {s s' : SearchState κ} {l : Literal} {order' : DecisionOrder Generator}
    (hd : s.Decides l s') (hw : s.WellFormed)
    (h : s.order.Decided s.assignment.cells.size s.assignment l order') :
    order'.Offers s'.assignment := by
  intro v hv hdec hna
  have hcon : s'.assignment.Consistent := hd.wellFormed.onBoard.consistent
  have hne : v ≠ l.var := by
    rintro rfl
    rw [(hcon.isAssigned_iff l.var).mpr (List.mem_map.mpr ⟨l, hd.mem, rfl⟩)] at hna
    cases hna
  have hna' : s.assignment.isAssigned v = false := isAssigned_of_extension hd.extension hna
  refine h.contains v (hw.offers v ?_ ?_ hna') hna' hne
  · rw [h.wellFormed.numKeys] at hv
    rw [hw.order.numKeys]
    exact hv
  · rw [← DecisionOrder.isDecision_congr h.allowed]
    exact hdec

end SearchState

namespace Engine

/-- What an outcome says about the problem that the engine `e` had, when `e'` is left. -/
def Concludes (e e' : Engine κ) : Outcome → Prop
  | .satisfiable => ∀ l ∈ e.control.assumptions, l ∈ e'.search.assignment.trues
  | .unsatisfiable => e'.control.restricted = false ∧ e'.control.infeasible = true ∧
      ∀ ν, ¬ e.search.Admits ν
  | .unsatisfiableUnder core => e'.control.restricted = false ∧ core.Nodup ∧
      (∀ l ∈ core, l ∈ e.control.assumptions) ∧
      ∀ ν, e.search.Admits ν → ¬ ∀ l ∈ core, l.holds ν = true
  | .budgetExceeded => False
  | .inconclusive => e'.control.restricted = true ∨ e'.search.order.allowed ≠ none

theorem Concludes.of_advances {e e₁ e' : Engine κ} {outcome : Outcome} (h : e.Advances e₁)
    (h₁ : e₁.Advances e') (hc : e₁.Concludes e' outcome) : e.Concludes e' outcome := by
  cases outcome with
  | satisfiable =>
    intro l hl
    rw [← h.assumptions] at hl
    exact hc l hl
  | unsatisfiable =>
    obtain ⟨hr, hi, hnone⟩ := hc
    exact ⟨hr, hi, fun ν hν => hnone ν (h.admits (h₁.restricted_eq_false hr) ν hν)⟩
  | unsatisfiableUnder core =>
    obtain ⟨hr, hnodup, hsub, hnone⟩ := hc
    refine ⟨hr, hnodup, ?_, fun ν hν => hnone ν (h.admits (h₁.restricted_eq_false hr) ν hν)⟩
    rw [← h.assumptions]
    exact hsub
  | budgetExceeded => exact hc
  | inconclusive => exact hc

/-- What is promised of a decision, which may be that there is an outcome. -/
structure Decides (e : Engine κ) (outcome : Option Outcome) (e' : Engine κ) : Prop where
  advances : e.Advances e'
  upToDate : e.search.UpToDate → e'.search.UpToDate
  concludes : ∀ o ∈ outcome, e.Concludes e' o
  satisfied : e.search.UpToDate → outcome = some .satisfiable → e'.search.Satisfied
  root : ∀ o ∈ outcome, o ≠ .satisfiable → e'.search.decisionLevel = 0

theorem Decides.of_advances {e e₁ e' : Engine κ} {outcome : Option Outcome} (h : e.Advances e₁)
    (hu : e.search.UpToDate → e₁.search.UpToDate) (hd : e₁.Decides outcome e') :
    e.Decides outcome e' :=
  ⟨h.trans hd.advances, fun he => hd.upToDate (hu he),
    fun o ho => (hd.concludes o ho).of_advances h hd.advances,
    fun he => hd.satisfied (hu he), hd.root⟩

/-- A decision after which the search goes on. -/
theorem Decides.of_none {e e' : Engine κ} (h : e.Advances e')
    (hu : e.search.UpToDate → e'.search.UpToDate) : e.Decides none e' := by
  refine ⟨h, hu, fun o ho => ?_, fun _ ho => ?_, fun o ho => ?_⟩
  · cases ho
  · cases ho
  · cases ho

/-! ## Forbidding decisions -/

/-- The first literal of a level, if there is one, is of that level. -/
theorem head_literalsOfLevel {a : Assignment} (hc : a.Consistent) (ha : a.Layered) {n : Nat}
    {l : Literal} (hhead : (a.literalsOfLevel (n + 1)).head? = some l) :
    l ∈ a.trues ∧ a.levelOf l.var = n + 1 := by
  rw [Assignment.literalsOfLevel, List.head?_eq_getElem?, Array.getElem?_toList,
    Array.getElem?_extract] at hhead
  split at hhead
  · rename_i hlt
    rw [Nat.add_zero, Assignment.getElem?_trail] at hhead
    have hlt' : a.startOfLevel (n + 1) < a.startOfLevel (n + 1 + 1) := by omega
    have hsize : a.startOfLevel (n + 1) < a.trail.size := by
      rw [Assignment.size_trail]
      exact (List.getElem?_eq_some_iff.mp hhead).1
    have hle := (Assignment.lt_startOfLevel_iff ha.sorted hsize).mp hlt'
    have hgt : a.startOfLevel (n + 1) < a.startOfLevel (n + 1) ↔
        a.levelAt (a.startOfLevel (n + 1)) ≤ n := Assignment.lt_startOfLevel_iff ha.sorted hsize
    refine ⟨List.mem_of_getElem? hhead, ?_⟩
    rw [hc.levelOf_eq hhead]
    omega
  · cases hhead

/-- The literals of a blocking clause are false, the first ones at higher levels. -/
theorem blockingClause_spec {a : Assignment} (hc : a.Consistent) (ha : a.Layered) (n : Nat) :
    (∀ l ∈ blockingClause a n, -l ∈ a.trues ∧ a.levelOf l.var ≤ n) ∧
      (blockingClause a n).Pairwise fun l m => a.levelOf m.var < a.levelOf l.var := by
  induction n with
  | zero => exact ⟨fun l hl => (by cases hl), List.Pairwise.nil⟩
  | succ n ih =>
    obtain ⟨hall, hpair⟩ := ih
    unfold blockingClause
    split
    · rename_i l hhead
      obtain ⟨hmem, hlevel⟩ := head_literalsOfLevel hc ha hhead
      refine ⟨fun m hm => ?_, List.pairwise_cons.mpr ⟨fun m hm => ?_, hpair⟩⟩
      · rcases List.mem_cons.mp hm with rfl | hm
        · rw [Literal.negate_negate, Literal.var_negate, hlevel]
          exact ⟨hmem, Nat.le_refl _⟩
        · exact ⟨(hall m hm).1, Nat.le_succ_of_le (hall m hm).2⟩
      · have hm' := (hall m hm).2
        rw [Literal.var_negate, hlevel]
        omega
    · exact ⟨fun m hm => ⟨(hall m hm).1, Nat.le_succ_of_le (hall m hm).2⟩, hpair⟩

theorem known_of_mem_blockingClause {a : Assignment} (hc : a.Consistent) (ha : a.Layered) {n : Nat}
    {l : Literal} (hl : l ∈ blockingClause a n) : l.Known a.cells.size := by
  have hneg := ((blockingClause_spec hc ha n).1 l hl).1
  have hk : (-l).Known a.cells.size := ⟨hc.var_ne_zero hneg, hc.var_lt hneg⟩
  rw [← Literal.negate_negate l]
  exact hk.negate

/-- Literals of different levels are of different variables. -/
theorem nodup_blockingClause {a : Assignment} (hc : a.Consistent) (ha : a.Layered) (n : Nat) :
    ((blockingClause a n).map Literal.var).Nodup := by
  rw [List.Nodup, List.pairwise_map]
  refine (blockingClause_spec hc ha n).2.imp fun {l m} hlt hlm => ?_
  rw [hlm] at hlt
  exact Nat.lt_irrefl _ hlt

/-- Behind the first literal of a blocking clause, the literals are false at lower levels. -/
theorem false_below_of_blockingClause {a : Assignment} (hc : a.Consistent) (ha : a.Layered)
    {n : Nat} {l : Literal} {ls : List Literal} (hblock : blockingClause a n = l :: ls) :
    ∀ m ∈ ls, -m ∈ a.trues ∧ a.levelOf m.var < a.levelOf l.var := by
  obtain ⟨hfalse, hpair⟩ := blockingClause_spec hc ha n
  rw [hblock] at hfalse hpair
  exact fun m hm =>
    ⟨(hfalse m (List.mem_cons_of_mem _ hm)).1, (List.pairwise_cons.mp hpair).1 m hm⟩

/-- Nothing at the root is forbidden. -/
theorem blockingClause_above {a : Assignment} (hc : a.Consistent) (ha : a.Layered) (n : Nat) :
    ∀ l ∈ blockingClause a n, 0 < a.levelOf l.var := by
  induction n with
  | zero => exact fun l hl => (by cases hl)
  | succ n ih =>
    unfold blockingClause
    split
    · rename_i l hhead
      refine List.forall_mem_cons.mpr ⟨?_, ih⟩
      rw [Literal.var_negate, (head_literalsOfLevel hc ha hhead).2]
      exact Nat.succ_pos n
    · exact ih

/-! ## Opening a level -/

/-- A literal that is decided is the next assumption, or all assumptions were made. -/
theorem advances_of_decides {search search' : SearchState κ} {order' : DecisionOrder Generator}
    {l : Literal} {analyser : Analyser} {control : Control} (control' : Control)
    (h : (⟨search, analyser, control⟩ : Engine κ).WellFormed) (hd : search.Decides l search')
    (hw : order'.WellFormed search'.assignment.cells.size)
    (ho : order'.Offers search'.assignment) (hallowed : order'.allowed = search.order.allowed)
    (hnext : control.assumptions.length ≤ search.decisionLevel ∨
      control.assumptions[search.decisionLevel]? = some l)
    (ha : control'.assumptions = control.assumptions)
    (hi : control'.infeasible = control.infeasible)
    (hr : control'.restricted = control.restricted) :
    Advances ⟨search, analyser, control⟩ ⟨{ search' with order := order' }, analyser, control'⟩ ∧
      (search.UpToDate → ({ search' with order := order' } : SearchState κ).UpToDate) := by
  have hw₀ : search.WellFormed := h.search
  obtain ⟨board, arena, learned, order, head⟩ := search'
  have hsize : board.assignment.cells.size = search.assignment.cells.size := hd.extension.size
  refine ⟨.of_search (hd.wellFormed.reorder hw ho) ?_ hsize
    ⟨hd.retains.roots, hd.retains.constraints⟩ (fun ν hν => ?_) (fun hh => ?_) hallowed ha hi hr,
    fun hu => ?_⟩
  · show analyser.Clean board.assignment.cells.size
    rw [hsize]
    exact h.clean
  · obtain ⟨hholds, hfacts⟩ := hd.admits ν hν
    exact ⟨hholds, hfacts⟩
  · refine hh.openLevel hw₀.onBoard.consistent hw₀.layered hd.extension (fun hi hm => ?_)
      fun m hm => ?_
    · obtain ⟨hml, hlen⟩ := hd.fresh hi hm
      refine ⟨hlen, fun hlt => ?_⟩
      rcases hnext with hle | hnext
      · exact absurd hlt (Nat.not_lt.mpr hle)
      · rw [hml]
        exact List.mem_of_getElem? hnext
    · rcases hnext with hle | hnext
      · have hnone : control.assumptions[search.decisionLevel]? = none := List.getElem?_eq_none hle
        rw [show search.assignment.decisionLevel = search.decisionLevel from rfl, hnone] at hm
        cases hm
      · rw [show search.assignment.decisionLevel = search.decisionLevel from rfl, hnext] at hm
        cases hm
        exact hd.mem
  · obtain ⟨hg, hs⟩ := hd.upToDate hu
    exact ⟨hg, hs⟩

/-- Under a restriction of decisions a step may lose models, if that is noted. -/
theorem advances_of_restricted {search search' : SearchState κ} {analyser : Analyser}
    {control control' : Control} (h : (⟨search, analyser, control⟩ : Engine κ).WellFormed)
    (hw : search'.WellFormed)
    (hsize : search'.assignment.cells.size = search.assignment.cells.size)
    (hretains : search.Retains search')
    (hhonours : search.assignment.Honours control.assumptions →
      search'.assignment.Honours control.assumptions)
    (hallowed : search'.order.allowed = search.order.allowed)
    (hsome : search.order.allowed ≠ none) (ha : control'.assumptions = control.assumptions)
    (hi : control'.infeasible = control.infeasible) (hr : control'.restricted = true) :
    Advances ⟨search, analyser, control⟩ ⟨search', analyser, control'⟩ := by
  refine ⟨⟨⟨hw, ?_⟩, Nat.le_of_eq hsize.symm, hretains, fun hf => ?_, fun _ => hr,
    fun h => Or.inl (hi.symm.trans h), ?_, fun hnone => absurd hnone hsome⟩, fun hh => ?_, ha⟩
  · show analyser.Clean search'.assignment.cells.size
    rw [hsize]
    exact h.clean
  · have hf' : control'.restricted = false := hf
    rw [hr] at hf'
    cases hf'
  · show search'.order.allowed = none ↔ search.order.allowed = none
    rw [hallowed]
  · show search'.assignment.Honours control'.assumptions
    rw [ha]
    exact hhonours hh

variable [CustomConstraint κ]

theorem decideOn_spec {l : Literal} {e : Engine κ} (h : e.WellFormed)
    (hhead : e.search.head = e.search.assignment.trues.length)
    (hk : l.Known e.search.assignment.cells.size)
    (hl : l.var ∉ e.search.assignment.trues.map Literal.var)
    (hnext : e.control.assumptions[e.search.decisionLevel]? = some l) :
    e.Advances (e.decideOn l) ∧ (e.search.UpToDate → (e.decideOn l).search.UpToDate) := by
  obtain ⟨search, analyser, control⟩ := e
  have hd := SearchState.decides h.search hhead hk hl
  exact advances_of_decides control h hd hd.wellFormed.order hd.wellFormed.offers
    (congrArg DecisionOrder.allowed hd.order) (Or.inr hnext) rfl rfl rfl

/-- Without decisions of its own there is nothing that a search could forbid. -/
theorem decides_inconclusive {search search' : SearchState κ} {analyser : Analyser}
    {control : Control} (h : (⟨search, analyser, control⟩ : Engine κ).WellFormed)
    (hsome : search.order.allowed ≠ none) (hback : search.backtrack 0 = .ok search') :
    Decides ⟨search, analyser, control⟩ (some .inconclusive) ⟨search', analyser, control⟩ := by
  have hrun : (⟨search, analyser, control⟩ : Engine κ).backtrack 0 =
      .ok ⟨search', analyser, control⟩ := by
    simp only [Engine.backtrack, hback]
    rfl
  obtain ⟨hadv, -, -⟩ := backtrack_spec h hrun
  obtain ⟨-, hallowed, -⟩ := SearchState.size_backtrack h.search hback
  refine ⟨hadv, fun hu => hu.backtrack h.search hback, fun o ho => ?_, fun _ ho => ?_,
    fun o _ _ => ?_⟩
  · cases ho
    refine Or.inr ?_
    show search'.order.allowed ≠ none
    rw [hallowed]
    exact hsome
  · cases ho
  · show search'.decisionLevel = 0
    rw [SearchState.decisionLevel_backtrack h.search hback, Nat.zero_min]

/-- A clause that forbids several decisions is learned once the last of them is taken back. -/
theorem decides_blockingClause {search : SearchState κ} {board : Board} {arena : Arena κ}
    {learned learned' : LearnedDatabase} {order : DecisionOrder Generator} {head level age : Nat}
    {analyser : Analyser} {control control' : Control} {l m : Literal} {ls : List Literal}
    (h : (⟨search, analyser, control⟩ : Engine κ).WellFormed)
    (hsome : search.order.allowed ≠ none) (hr : control'.restricted = true)
    (ha : control'.assumptions = control.assumptions)
    (hi : control'.infeasible = control.infeasible)
    (hblock : blockingClause search.assignment level = l :: m :: ls)
    (hback : search.backtrack (level - 1) = .ok ⟨board, arena, learned, order, head⟩)
    (hage : learned.nextAge = (age, learned')) (d : Nat) :
    Decides ⟨search, analyser, control⟩ none
      ⟨SearchState.learn ⟨l, m, ls⟩ (.blockingAt age) d ⟨board, arena, learned', order, head⟩,
        analyser, control'⟩ := by
  have hw : search.WellFormed := h.search
  have hcon : search.assignment.Consistent := hw.onBoard.consistent
  have hlevel : search.assignment.levelOf l.var ≤ level :=
    ((blockingClause_spec hcon hw.layered level).1 l (by rw [hblock]; exact List.mem_cons_self)).2
  have hbelow := false_below_of_blockingClause hcon hw.layered hblock
  have hnodup := nodup_blockingClause hcon hw.layered level
  rw [hblock] at hnodup
  obtain ⟨hsize, hallowed, -⟩ := SearchState.size_backtrack hw hback
  have hw₁ := hw.backtrack hback
  have hrefs : learned'.references = learned.references :=
    (congrArg (·.2.references) hage).symm
  have htunes : (⟨board, arena, learned, order, head⟩ : SearchState κ).Tunes
      ⟨board, arena, learned', order, head⟩ := ⟨rfl, .refl _, hrefs, .refl hw₁.order.valid, rfl⟩
  have hw₂ := htunes.wellFormed hw₁
  have hkind : (Kind.clause ⟨l, m, ls⟩ : Kind κ).WellFormed board.assignment.cells.size := by
    refine ⟨hnodup, fun k hk => ?_⟩
    rw [show board.assignment.cells.size = search.assignment.cells.size from hsize]
    have hk : k ∈ l :: m :: ls := hk
    exact known_of_mem_blockingClause hcon hw.layered (hblock ▸ hk)
  -- All but the first literal are of lower levels, so they are still false.
  have hrest : ∀ k ∈ m :: ls, -k ∈ board.assignment.trues := by
    intro k hk
    obtain ⟨hfalse, hlt⟩ := hbelow k hk
    refine SearchState.mem_backtrack hw hback hfalse ?_
    rw [Literal.var_negate]
    omega
  obtain ⟨r, c, -, hsim, hw₃, hgains, -⟩ := SearchState.learn_spec
    (m := .blockingAt age) hw₂ hkind rfl hrest
  refine .of_none (advances_of_restricted h hw₃ (hgains.extension.size.trans hsize)
    ((SearchState.Retains.backtrack hw hback).trans
      (htunes.retains.trans (hgains.retains hw₂))) (fun hh => ?_) ?_ hsome ha hi hr)
    fun hu => ?_
  · exact (SearchState.honours_backtrack hw hback hh).extend hw₁.onBoard.consistent
      hgains.extension fun hi hl => ⟨r, hgains.forced hi hl⟩
  · exact (congrArg DecisionOrder.allowed hgains.order).trans hallowed
  · exact hgains.upToDate hw₂ hw₃ (htunes.upToDate (hu.backtrack hw hback)) (Or.inl hsim.learned)

/-- A decision that is forbidden alone is false from the root on. -/
theorem decides_blockingFact {search search' : SearchState κ} {level : Nat} {analyser : Analyser}
    {control control' : Control} {l : Literal}
    (h : (⟨search, analyser, control⟩ : Engine κ).WellFormed)
    (hsome : search.order.allowed ≠ none) (hr : control'.restricted = true)
    (ha : control'.assumptions = control.assumptions)
    (hi : control'.infeasible = control.infeasible)
    (hblock : blockingClause search.assignment level = [l])
    (hback : search.backtrack 0 = .ok search') :
    Decides ⟨search, analyser, control⟩ none ⟨(search'.enqueue l).2, analyser, control'⟩ := by
  have hw : search.WellFormed := h.search
  obtain ⟨hsize, hallowed, -⟩ := SearchState.size_backtrack hw hback
  have hw₁ := hw.backtrack hback
  have hk : l.Known search'.assignment.cells.size := by
    rw [hsize]
    exact known_of_mem_blockingClause hw.onBoard.consistent hw.layered
      (hblock ▸ List.mem_cons_self)
  obtain ⟨he, hw₂, hq⟩ := SearchState.enqueue_spec hw₁ hk
  have hroot : (search'.enqueue l).2.assignment.decisionLevel = 0 := by
    have hstarts : (search'.enqueue l).2.assignment.decisionLevel = search'.decisionLevel :=
      congrArg Array.size he.extension.starts
    rw [hstarts, SearchState.decisionLevel_backtrack hw hback, Nat.zero_min]
  refine .of_none (advances_of_restricted h hw₂ (he.extension.size.trans hsize)
    ((SearchState.Retains.backtrack hw hback).trans (he.retains hw₁)) (fun _ => .of_root hroot)
    ?_ hsome ha hi hr) fun hu => ?_
  · exact (congrArg DecisionOrder.allowed he.order).trans hallowed
  · exact (hu.backtrack hw hback).extend hw₁ he hq.consistent

/-- Forbidding the current decisions may lose models, which is noted. -/
theorem blockDecisions_spec {e e' : Engine κ} {outcome : Option Outcome} (h : e.WellFormed)
    (hallowed : e.search.order.allowed ≠ none)
    (hrun : e.blockDecisions = .ok (outcome, e')) : e.Decides outcome e' := by
  obtain ⟨search, analyser, control⟩ := e
  simp only [blockDecisions] at hrun
  split at hrun
  · obtain ⟨search', hback, hrun⟩ := ok_of_bind hrun
    cases hrun
    exact decides_inconclusive h hallowed hback
  · split at hrun
    · rename_i l m ls hblock
      obtain ⟨⟨board, arena, learned, order, head⟩, hback, hrun⟩ := ok_of_bind hrun
      rcases hage : learned.nextAge with ⟨age, learned'⟩
      simp only [hage] at hrun
      cases hrun
      refine decides_blockingClause h hallowed ?_ ?_ ?_ hblock hback hage _
      all_goals rfl
    · rename_i l hblock
      obtain ⟨search', hback, hrun⟩ := ok_of_bind hrun
      cases hrun
      refine decides_blockingFact h hallowed ?_ ?_ ?_ hblock hback
      all_goals rfl
    · cases hrun

/-! ## Decisions -/

/-- Once all assumptions were made, a variable is decided, or there is an outcome. -/
theorem decideVariable_spec {e e' : Engine κ} {outcome : Option Outcome} (h : e.WellFormed)
    (hhead : e.search.head = e.search.assignment.trues.length) (hh : e.Honours)
    (hmade : e.control.assumptions.length ≤ e.search.decisionLevel)
    (hrun : e.decideVariable = .ok (outcome, e')) : e.Decides outcome e' := by
  obtain ⟨⟨board, arena, learned, order, head⟩, analyser, control⟩ := e
  have hw : (⟨board, arena, learned, order, head⟩ : SearchState κ).WellFormed := h.search
  have hcon : board.assignment.Consistent := hw.onBoard.consistent
  simp only [decideVariable] at hrun
  split at hrun
  · rename_i l order' hnext
    cases hrun
    have hdecided := DecisionOrder.nextDecision_some hw.order hnext
    have hunassigned := DecisionOrder.var_nextDecision hnext
    have hl : l.var ∉ board.assignment.trues.map Literal.var := fun hmem => by
      rw [(hcon.isAssigned_iff l.var).mpr hmem] at hunassigned
      cases hunassigned
    have hd := SearchState.decides hw hhead ⟨hdecided.var_ne_zero, hdecided.var_lt⟩ hl
    have hsize := hd.extension.size
    have hoffers := hd.offers hw hdecided
    have hworder : order'.WellFormed ((⟨board, arena, learned, order, head⟩ :
        SearchState κ).openLevel.enqueue l).2.assignment.cells.size := by
      rw [hsize]
      exact hdecided.wellFormed
    obtain ⟨hadv, hup⟩ :=
      advances_of_decides (control.count fun s => { s with decisions := s.decisions + 1 })
        h hd hworder hoffers hdecided.allowed (Or.inl hmade) rfl rfl rfl
    exact .of_none hadv hup
  · rename_i order' hnext
    obtain ⟨hw₁, hallowed, hassigned⟩ := hw.nextDecision_none hnext
    have hadv : Advances ⟨⟨board, arena, learned, order, head⟩, analyser, control⟩
        ⟨⟨board, arena, learned, order', head⟩, analyser, control⟩ :=
      .of_search hw₁ h.clean rfl
        ⟨fun _ hl => hl, fun {r c} hc _ => Or.inl ⟨c, hc, .refl _, .refl _⟩⟩
        (fun ν hν => ⟨hν.holds, hν.facts⟩) (fun hh => hh) hallowed rfl rfl rfl
    have hup : (⟨board, arena, learned, order, head⟩ : SearchState κ).UpToDate →
        (⟨board, arena, learned, order', head⟩ : SearchState κ).UpToDate :=
      fun hu => ⟨hu.grounded, hu.settles⟩
    split at hrun
    · rename_i hdone
      cases hrun
      refine ⟨hadv, hup, fun o ho => ?_, fun hu _ => ?_, fun o ho hne => ?_⟩
      · cases ho
        intro l hl
        obtain ⟨k, hk⟩ := List.mem_iff_getElem?.mp hl
        have hlt := (List.getElem?_eq_some_iff.mp hk).1
        obtain ⟨i, hi, -⟩ := hh.made (Nat.lt_of_lt_of_le hlt hmade) hk
        exact List.mem_of_getElem? hi
      · rcases hdone with hdone | hdone
        · exact (hup hu).satisfied hw₁ hhead hdone
        · exact SearchState.satisfied_of_isSatisfied hw₁ hdone
      · cases ho
        exact absurd rfl hne
    · rename_i hopen
      have hsome : order'.allowed ≠ none := by
        intro hnone
        refine hopen (Or.inl ?_)
        have hfree : order.allowed = none := hallowed.symm.trans hnone
        refine SearchState.trailLength_of_assigned hw₁ fun v hv hlt => hassigned v hlt ?_
        simp only [DecisionOrder.isDecision, hfree]
        simpa using hv
      exact .of_advances hadv hup (blockDecisions_spec hadv.wellFormed hsome hrun)

/-- A false assumption gives a core, unless models may have been lost. -/
theorem failAssumption_spec {l : Literal} {e e' : Engine κ} {outcome : Outcome} (h : e.WellFormed)
    (hh : e.Honours) (hl : l ∈ e.control.assumptions) (hfalse : -l ∈ e.search.assignment.trues)
    (hlevel : e.search.decisionLevel < e.control.assumptions.length)
    (hrun : e.failAssumption l = .ok (outcome, e')) : e.Decides (some outcome) e' := by
  obtain ⟨search, ⟨minimisation, seen, minimiser⟩, control⟩ := e
  have hw : search.WellFormed := h.search
  obtain ⟨⟨core, seen'⟩, hcore, hrun⟩ := ok_of_bind hrun
  obtain ⟨search', hback, hrun⟩ := ok_of_bind hrun
  cases hrun
  obtain ⟨hsize, hall, -⟩ := SearchState.size_backtrack hw hback
  obtain ⟨hseen, hoff, hnodup, hmem, hcontra⟩ :=
    unsatCore_spec hw.justifies hw.layered hfalse h.clean.size h.clean.off hcore
  have hclean : Analyser.Clean search'.assignment.cells.size ⟨minimisation, seen', minimiser⟩ := by
    rw [hsize]
    exact ⟨hseen, hoff, h.clean.minimiser⟩
  have hadv : Advances ⟨search, ⟨minimisation, seen, minimiser⟩, control⟩
      ⟨search', ⟨minimisation, seen', minimiser⟩, control⟩ :=
    .of_search (hw.backtrack hback) hclean hsize (.backtrack hw hback)
      (fun ν hν => hν.backtrack hw hback)
      (fun hh => SearchState.honours_backtrack hw hback hh) hall rfl rfl rfl
  refine ⟨hadv, fun hu => hu.backtrack hw hback, fun o ho => ?_, fun _ hsat => ?_, fun o _ _ => ?_⟩
  · cases ho
    by_cases hr : control.restricted = true
    · rw [if_pos hr]
      exact Or.inl hr
    · rw [if_neg hr]
      refine ⟨by simpa using hr, hnodup, fun m hm => ?_, fun ν hν => hcontra ν (hν.model hw)⟩
      rcases hmem m hm with rfl | ⟨i, hi, hnone, hne⟩
      · exact hl
      · have htop := search.assignment.levelAt_le i
        have hlt : search.assignment.decisionLevel < control.assumptions.length := hlevel
        exact hh.chosen hi hnone hne (by
          show search.assignment.levelAt i ≤ control.assumptions.length
          omega)
  · simp only [Option.some.injEq] at hsat
    split at hsat <;> cases hsat
  · show search'.decisionLevel = 0
    rw [SearchState.decisionLevel_backtrack hw hback, Nat.zero_min]

omit [CustomConstraint κ] in
/-- An assumption that is true already gets a level all the same. -/
theorem assumed_spec {l : Literal} {e : Engine κ} (h : e.WellFormed)
    (hhead : e.search.head = e.search.assignment.trues.length)
    (hnext : e.control.assumptions[e.search.decisionLevel]? = some l)
    (htrue : l ∈ e.search.assignment.trues) : e.Advances (e.modifySearch (·.openLevel)) := by
  obtain ⟨search, analyser, control⟩ := e
  have hw : search.WellFormed := h.search
  refine .of_search (hw.openLevel hhead) h.clean rfl (.openLevel hw) (fun ν hν => hν.openLevel hw)
    (fun hh => hh.openLevel hw.onBoard.consistent hw.layered (.refl _) (fun hi hm => ?_)
      fun m hm => ?_) rfl rfl rfl rfl
  · exact (false_of_getElem? hi hm).elim
  · have hml : m = l := Option.some.inj (hm.symm.trans hnext)
    rw [hml]
    exact htrue

/-- Assumptions are made in order, each on a level of its own. -/
theorem assume_spec {ls : List Literal} {e e' : Engine κ} {outcome : Option Outcome}
    (h : e.WellFormed) (hhead : e.search.head = e.search.assignment.trues.length) (hh : e.Honours)
    (hknown : ∀ l ∈ e.control.assumptions, l.Known e.search.assignment.cells.size)
    (hls : ls = e.control.assumptions.drop e.search.decisionLevel)
    (hrun : e.assume ls = .ok (outcome, e')) : e.Decides outcome e' := by
  induction ls generalizing e with
  | nil =>
    exact decideVariable_spec h hhead hh (List.drop_eq_nil_iff.mp hls.symm) hrun
  | cons l ls ih =>
    have hnext : e.control.assumptions[e.search.decisionLevel]? = some l := by
      have := congrArg List.head? hls
      rw [List.head?_cons, List.head?_drop] at this
      exact this.symm
    have hlt := (List.getElem?_eq_some_iff.mp hnext).1
    have hmem := List.mem_of_getElem? hnext
    have hcon : e.search.assignment.Consistent := h.search.onBoard.consistent
    unfold assume at hrun
    split at hrun
    · rename_i hsat
      have hadv := assumed_spec h hhead hnext ((hcon.isSatisfied_iff l).mp hsat)
      obtain ⟨search, analyser, control⟩ := e
      refine .of_advances hadv (fun hu => hu.openLevel hhead)
        (ih hadv.wellFormed hhead (hadv.honours hh) hknown ?_ hrun)
      have hlevel : search.openLevel.decisionLevel = search.decisionLevel + 1 :=
        search.decisionLevel_openLevel
      have htail := congrArg List.tail hls
      rw [List.tail_cons, List.tail_drop] at htail
      rw [htail]
      show control.assumptions.drop (search.decisionLevel + 1) =
        control.assumptions.drop search.openLevel.decisionLevel
      rw [hlevel]
    · rename_i hsat
      split at hrun
      · rename_i hfalse
        obtain ⟨⟨o, e₁⟩, hfail, hrun⟩ := ok_of_bind hrun
        cases hrun
        exact failAssumption_spec h hh hmem ((hcon.isFalsified_iff l).mp hfalse) hlt hfail
      · rename_i hfalse
        cases hrun
        have hl : l.var ∉ e.search.assignment.trues.map Literal.var := fun hv => by
          rcases Literal.mem_or_negate_mem hv with hv | hv
          · exact hsat ((hcon.isSatisfied_iff l).mpr hv)
          · exact hfalse ((hcon.isFalsified_iff l).mpr hv)
        obtain ⟨hadv, hup⟩ := decideOn_spec h hhead (hknown l hmem) hl hnext
        exact .of_none hadv hup

theorem decide_spec {e e' : Engine κ} {outcome : Option Outcome} (h : e.WellFormed)
    (hhead : e.search.head = e.search.assignment.trues.length) (hh : e.Honours)
    (hknown : ∀ l ∈ e.control.assumptions, l.Known e.search.assignment.cells.size)
    (hrun : e.decide = .ok (outcome, e')) : e.Decides outcome e' :=
  assume_spec h hhead hh hknown rfl hrun

end Engine

end ClauseLearning
