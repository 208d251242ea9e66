import ClauseLearning.Proofs.Deciding

/-!
# New variables and new beginnings

Making variables known changes nothing about the others, and a state that forgets everything asks
for nothing.

* `SearchState.WellFormed.grow`, `SearchState.UpToDate.grow`, `SearchState.Retains.grow`: new
  variables.
* `SearchState.Blank`: a state without constraints and facts.
* `Engine.grow_spec`, `Engine.restrictDecisions_spec`: what is kept.
-/

namespace ClauseLearning

variable {κ : Type}

namespace Assignment

theorem reason?_grow (a : Assignment) (n v : Nat) : (a.grow n).reason? v = a.reason? v := by
  simp only [reason?, cell?_grow]

theorem Honours.grow {assumptions : List Literal} {a : Assignment} (h : a.Honours assumptions)
    (n : Nat) : (a.grow n).Honours assumptions := by
  refine ⟨fun hl hr => h.driven hl ?_, fun hl hr => h.chosen hl ?_, h.made⟩
  · rw [← reason?_grow a n]
    exact hr
  · rw [← reason?_grow a n]
    exact hr

end Assignment

namespace SearchState

/-! ## New variables -/

theorem assignment_grow (s : SearchState κ) (n : Nat) :
    (s.grow n).assignment = s.assignment.grow n := rfl

theorem numUndos_grow (s : SearchState κ) (n v : Nat) (r : Reference) :
    (s.grow n).board.watches.numUndos v r = s.board.watches.numUndos v r := by
  show (s.board.watches.grow n).numUndos v r = s.board.watches.numUndos v r
  simp only [Watches.numUndos, Watches.undosOf_grow]

theorem settles_grow {s : SearchState κ} {trues seen : List Literal} (n : Nat)
    (h : s.arena.Settles s.board.watches trues seen) :
    (s.grow n).arena.Settles (s.grow n).board.watches trues seen :=
  fun r c hc hl => (h r c hc hl).congr_told fun x _ => numUndos_grow s n x.var r

theorem WellFormed.grow {s : SearchState κ} (h : s.WellFormed) (n : Nat) :
    (s.grow n).WellFormed := by
  have hb := h.onBoard
  have hsize := Assignment.size_cells_grow s.assignment n
  have hle : s.assignment.cells.size ≤ (s.assignment.grow n).cells.size := by omega
  obtain ⟨horder, -, -⟩ := h.order.grow n
  refine ⟨⟨hb.consistent.grow n, ?_, fun hc => (hb.wellFormed hc).mono hle, fun hl hr => ?_,
    fun hc l => ?_, fun he => ?_, fun {r c} hc => ?_, fun hu => ?_⟩, ⟨h.layered.sorted,
    h.layered.le_length⟩, h.head_le, h.starts_le, h.tidy, h.lists, ?_, h.offers.grow h.order n⟩
  · show (s.board.watches.grow n).Sized (s.assignment.grow n).cells.size
    rw [hsize]
    exact hb.sized.grow n
  · exact hb.explained hl ((Assignment.reason?_grow s.assignment n _).symm.trans hr)
  · rw [← hb.watched hc l]
    show (s.board.watches.grow n).numWatchers _ l = s.board.watches.numWatchers _ l
    simp only [Watches.numWatchers, Watches.watchersOf_grow]
  · refine hb.entries (l := ?_) ?_
    · assumption
    · have he' := he
      rw [show (s.grow n).board.watches = s.board.watches.grow n from rfl,
        Watches.watchersOf_grow] at he'
      exact he'
  · rw [← hb.counted hc]
    exact (Watches.notified_perm_of_numUndos fun v => numUndos_grow s n v r).length_eq
  · rw [numUndos_grow] at hu
    obtain ⟨c, hc, x, hx, hxv, hle⟩ := hb.reported hu
    exact ⟨c, hc, x, hx, hxv, by rw [numUndos_grow]; exact hle⟩
  · show (s.order.grow n).WellFormed (s.assignment.grow n).cells.size
    rw [hsize]
    exact horder

theorem UpToDate.grow {s : SearchState κ} (h : s.UpToDate) (n : Nat) : (s.grow n).UpToDate :=
  ⟨fun m hm => settles_grow n (h.grounded m hm), settles_grow n h.settles⟩

theorem Retains.grow (s : SearchState κ) (n : Nat) : s.Retains (s.grow n) :=
  .of_agree (.refl _) fun _ hl => hl

theorem admits_grow {s : SearchState κ} {n : Nat} {ν : Valuation} :
    (s.grow n).Admits ν ↔ s.Admits ν := by
  constructor
  · refine fun h => ⟨h.holds, fun l hl hr => h.facts l hl ?_⟩
    exact (Assignment.reason?_grow s.assignment n _).trans hr
  · refine fun h => ⟨h.holds, fun l hl hr => h.facts l hl ?_⟩
    exact (Assignment.reason?_grow s.assignment n _).symm.trans hr

/-! ## New beginnings -/

/-- Nothing is attached and nothing is assigned. -/
structure Blank (s : SearchState κ) : Prop where
  wellFormed : s.WellFormed
  upToDate : s.UpToDate
  admits : ∀ ν, s.Admits ν
  decisionLevel : s.decisionLevel = 0
  trues : s.assignment.trues = []

theorem Blank.of_empty {a : Assignment} {w : Watches} {learned : LearnedDatabase}
    {order : DecisionOrder Generator} (hc : ∀ v, a.cell? v = none) (ht : a.trues = [])
    (hs : a.levelStarts.toList = []) (hw : w.Sized a.cells.size)
    (hwatchers : ∀ l, w.watchersOf l = []) (hundos : ∀ v, w.undosOf v = [])
    (hl : learned.references = #[]) (ho : order.WellFormed a.cells.size)
    (hoffers : order.Offers a) : (⟨⟨a, w⟩, .empty, learned, order, 0⟩ : SearchState κ).Blank := by
  have hnone : ∀ r, (Arena.empty : Arena κ).get? r = none := fun r => rfl
  have hdead : ∀ {P : Prop} {r : Reference} {c : Constraint κ},
      (Arena.empty : Arena κ).get? r = some c → P := by
    intro P r c hc
    rw [hnone] at hc
    cases hc
  have hnum : ∀ v r, w.numUndos v r = 0 := by
    intro v r
    simp only [Watches.numUndos, hundos]
    rfl
  have hnomem : ∀ {P : Nat → Prop}, ∀ m ∈ a.levelStarts.toList, P m := by
    intro P m hm
    rw [hs] at hm
    cases hm
  have hlevel : a.decisionLevel = 0 := by
    have hlen := congrArg List.length hs
    simpa [Assignment.decisionLevel] using hlen
  refine ⟨⟨⟨Assignment.consistent_of_cells_none hc ht, hw, fun hc => hdead hc, fun {i _ _} hl => ?_,
    fun hc => hdead hc, fun {l e} he => ?_, fun hc => hdead hc, fun {v r} hu => ?_⟩, ⟨?_, hnomem⟩,
    Nat.zero_le _, hnomem, ⟨List.nodup_nil, fun r hr => (by cases hr), fun r hr => (by cases hr)⟩,
    ⟨?_, fun r hr => ?_⟩, ho, hoffers⟩, ⟨fun _ _ r c hc => hdead hc, fun r c hc => hdead hc⟩,
    fun ν => ⟨fun hc => hdead hc, fun l hl => ?_⟩, hlevel, ht⟩
  · have hl' : a.trues[i]? = some _ := hl
    rw [ht] at hl'
    cases hl'
  · have he' : e ∈ w.watchersOf l := he
    rw [hwatchers] at he'
    cases he'
  · exact absurd (hnum v r) hu
  · show a.levelStarts.toList.Pairwise _
    rw [hs]
    exact List.Pairwise.nil
  · show learned.references.toList.Nodup
    rw [hl]
    exact List.nodup_nil
  · have hr' : r ∈ learned.references.toList := hr
    rw [hl] at hr'
    cases hr'
  · have hl' := Assignment.mem_trues_of_mem_roots hl
    rw [show (⟨⟨a, w⟩, .empty, learned, order, 0⟩ : SearchState κ).assignment = a from rfl,
      ht] at hl'
    cases hl'

theorem blank_make (o : Options) : (make o : SearchState κ).Blank := by
  refine .of_empty (fun v => rfl) rfl rfl ⟨rfl, rfl⟩ (fun l => rfl) (fun v => rfl) rfl
    (DecisionOrder.wellFormed_make _ _ _ _) fun v hv => ?_
  exact absurd hv (Nat.not_lt_zero v)

theorem WellFormed.blank_clear {s : SearchState κ} (h : s.WellFormed) : s.clear.Blank := by
  obtain ⟨⟨a, w⟩, arena, learned, order, head⟩ := s
  have hsize : a.clear.cells.size = a.cells.size := Array.size_replicate
  have hsized : w.Sized a.cells.size := h.onBoard.sized
  have horder : order.WellFormed a.cells.size := h.order
  obtain ⟨hw, hallowed, hcontains⟩ := horder.restoreAll
  refine .of_empty (fun v => Assignment.cell?_clear a v) rfl rfl (hsize ▸ hsized.clear)
    (fun l => Watches.watchersOf_clear w l) (fun v => Watches.undosOf_clear w v) rfl (hsize ▸ hw)
    fun v hv hd _ => ?_
  rw [hw.numKeys] at hv
  rw [DecisionOrder.isDecision_congr hallowed] at hd
  exact hcontains v hv hd

end SearchState

namespace Engine

theorem wellFormed_make (o : Options) : (make o : Engine κ).WellFormed :=
  ⟨(SearchState.blank_make o).wellFormed, Analyser.clean_make _⟩

/-- New variables are a step that changes nothing else. -/
theorem grow_spec {e : Engine κ} (h : e.WellFormed) (n : Nat) :
    e.Advances (e.grow n) ∧ (e.search.UpToDate → (e.grow n).search.UpToDate) ∧
      (e.grow n).control = e.control ∧
      ((e.grow n).search = e.search ∨ (e.grow n).search = e.search.grow n) ∧
      ∀ v, v ≠ 0 → v ≤ n → v < (e.grow n).search.assignment.cells.size := by
  obtain ⟨search, analyser, control⟩ := e
  have hnum : search.numVariables = search.assignment.cells.size - 1 := rfl
  unfold Engine.grow
  dsimp only
  split
  · rename_i hle
    refine ⟨.refl h, fun hu => hu, rfl, Or.inl rfl, fun v hv hvn => ?_⟩
    show v < search.assignment.cells.size
    omega
  · rename_i hlt
    have hw : search.WellFormed := h.search
    have hsize : (search.grow n).assignment.cells.size = max search.assignment.cells.size (n + 1) :=
      Assignment.size_cells_grow search.assignment n
    have hclean : analyser.Clean search.assignment.cells.size := h.clean
    have hallowed : (search.grow n).order.allowed = none ↔ search.order.allowed = none := by
      have hrepeat := (hw.order.repeat_addVariable (n + 1 - search.order.heap.numKeys)).2.1
      show (search.order.grow n).allowed = none ↔ search.order.allowed = none
      simp only [DecisionOrder.grow, Option.map_eq_none_iff, hrepeat]
    refine ⟨⟨⟨⟨hw.grow n, ?_⟩, ?_, .grow search n, fun _ ν hν => SearchState.admits_grow.mpr hν,
      fun hr => hr, Or.inl, hallowed, fun _ => rfl⟩, fun hh => hh.grow n, rfl⟩,
      fun hu => hu.grow n, rfl, Or.inr rfl, fun v _ hvn => ?_⟩
    · have hgrown := hclean.grow (k := n)
      rw [show search.assignment.cells.size + (n + 1 - search.assignment.cells.size) =
        (search.grow n).assignment.cells.size from by omega] at hgrown
      exact hgrown
    · show search.assignment.cells.size ≤ (search.grow n).assignment.cells.size
      omega
    · show v < (search.grow n).assignment.cells.size
      omega

/-- After everything was forgotten, nothing is known to be wrong. -/
theorem clear_spec {e : Engine κ} (h : e.WellFormed) :
    e.clear.WellFormed ∧ e.clear.search.Blank ∧ e.clear.control.restricted = false ∧
      e.clear.control.infeasible = false := by
  obtain ⟨search, analyser, control⟩ := e
  have hblank := h.search.blank_clear
  have hsize : search.clear.assignment.cells.size = search.assignment.cells.size :=
    Array.size_replicate
  refine ⟨⟨hblank.wellFormed, ?_⟩, hblank, rfl, rfl⟩
  show analyser.Clean search.clear.assignment.cells.size
  rw [hsize]
  exact h.clean

/-- Another restriction of decisions leaves the constraints and the facts alone. -/
theorem restrictDecisions_spec {e : Engine κ} (h : e.WellFormed) (vs : Option (List Nat)) :
    (e.restrictDecisions vs).WellFormed ∧
      (e.restrictDecisions vs).control.restricted = e.control.restricted ∧
      (e.restrictDecisions vs).control.infeasible = e.control.infeasible ∧
      (e.restrictDecisions vs).search.decisionLevel = e.search.decisionLevel ∧
      e.search.Retains (e.restrictDecisions vs).search ∧
      (∀ ν, e.search.Admits ν → (e.restrictDecisions vs).search.Admits ν) ∧
      (e.search.UpToDate → (e.restrictDecisions vs).search.UpToDate) := by
  obtain ⟨⟨board, arena, learned, order, head⟩, analyser, control⟩ := e
  obtain ⟨hw, ho⟩ := h.search.order.restrictTo vs board.assignment
  exact ⟨⟨h.search.reorder hw ho, h.clean⟩, rfl, rfl, rfl,
    ⟨fun _ hl => hl, fun {r c} hc _ => Or.inl ⟨c, hc, .refl _, .refl _⟩⟩,
    fun ν hν => ⟨hν.holds, hν.facts⟩, fun hu => ⟨hu.grounded, hu.settles⟩⟩

end Engine

end ClauseLearning
