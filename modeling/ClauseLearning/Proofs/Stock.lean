import ClauseLearning.Engine.Solve
import ClauseLearning.Proofs.Calls
import ClauseLearning.Proofs.Resolution
import ClauseLearning.Proofs.Restrictions

/-!
# The variables that are left to decide

Between two operations the heap of the order has every variable that may be decided and has no
value, and it has no variable that may not be decided (`DecisionOrder.Stocks`). Whatever gives
values leaves the heap alone; whatever takes values back puts the variables into the heap again.
This needs nothing to hold of the constraints, so it holds in the presence of constraints from
outside as well.

* `DecisionOrder.Stocks.widen`: more values, and the same keys in the heap.
* `DecisionOrder.Stocks.nextDecision_some`, `DecisionOrder.Stocks.nextDecision_none`: what is
  decided.
* `SearchState.Stocked`, `Engine.Stocked`: what operations keep.
-/

namespace ClauseLearning

/-! ## Values -/

namespace Assignment

/-- The same variables are known, and those that had a value have one. -/
structure Widens (a b : Assignment) : Prop where
  size : b.cells.size = a.cells.size
  unassigned : ∀ v, b.isAssigned v = false → a.isAssigned v = false

namespace Widens

theorem refl (a : Assignment) : a.Widens a := ⟨rfl, fun _ h => h⟩

theorem trans {a b c : Assignment} (h : a.Widens b) (h' : b.Widens c) : a.Widens c :=
  ⟨h'.size.trans h.size, fun v hv => h.unassigned v (h'.unassigned v hv)⟩

end Widens

theorem widens_openLevel (a : Assignment) : a.Widens a.openLevel := ⟨rfl, fun _ h => h⟩

theorem isAssigned_assign {a : Assignment} {l : Literal} (r : Option Reference) {v : Nat}
    (hv : l.var < a.cells.size) :
    (a.assign l r).isAssigned v = (decide (l.var = v) || a.isAssigned v) := by
  by_cases heq : l.var = v
  · subst heq
    simp [isAssigned, cell?_assign_self r hv]
  · simp [isAssigned, cell?_assign_of_ne a r heq, heq]

theorem widens_enqueue (a : Assignment) (l : Literal) (r : Option Reference) :
    a.Widens (a.enqueue l r).2 := by
  unfold enqueue
  split
  · rename_i hcell
    have hlt : l.var < a.cells.size := (Array.getElem?_eq_some_iff.mp hcell).1
    refine ⟨size_cells_assign a l r, fun v hv => ?_⟩
    rw [isAssigned_assign r hlt, Bool.or_eq_false_iff] at hv
    exact hv.2
  · exact .refl a
  · exact .refl a

/-- A literal of a known variable makes the variable assigned, whether it becomes true or not. -/
theorem isAssigned_enqueue_self {a : Assignment} {l : Literal} (r : Option Reference)
    (hv : l.var < a.cells.size) : (a.enqueue l r).2.isAssigned l.var = true := by
  unfold enqueue
  rw [Array.getElem?_eq_getElem hv]
  cases hcell : a.cells[l.var] with
  | none => simp [isAssigned_assign r hv]
  | some c => simp [isAssigned, cell?, Array.getElem?_eq_getElem hv, hcell]

theorem widens_clearReason (a : Assignment) (v : Nat) : a.Widens (a.clearReason v) := by
  refine ⟨size_cells_clearReason a v, fun w hw => ?_⟩
  simp only [isAssigned, cell?_clearReason] at hw ⊢
  split at hw
  · rwa [Option.isSome_map] at hw
  · exact hw

end Assignment

/-! ## The order of decisions -/

namespace DecisionOrder

variable {γ : Type}

/-- The heap has every unassigned variable that may be decided, and no variable that may not. -/
structure Stocks (o : DecisionOrder γ) (a : Assignment) : Prop where
  wellFormed : o.WellFormed a.cells.size
  offers : o.Offers a
  confined : ∀ v, o.heap.contains v = true → o.isDecision v = true

theorem stocks_make [RandomSource γ] (decayFactor randomFrequency : Float) (seed : UInt64)
    (rule : PhaseRule) :
    (make decayFactor randomFrequency seed rule : DecisionOrder γ).Stocks .empty where
  wellFormed := wellFormed_make decayFactor randomFrequency seed rule
  offers := fun _ hv => absurd hv (Nat.not_lt_zero _)
  confined := fun v hv => by
    have hlt := PriorityHeap.valid_empty.lt_of_contains hv
    exact absurd hlt (Nat.not_lt_zero v)

namespace Stocks

variable {o o' : DecisionOrder γ} {a b : Assignment}

theorem widen (h : o.Stocks a) (hk : o.SameKeys o') (ha : a.Widens b) : o'.Stocks b where
  wellFormed := by
    rw [ha.size]
    exact hk.wellFormed h.wellFormed
  offers := hk.offers fun v hv hd hb => h.offers v hv hd (ha.unassigned v hb)
  confined := fun v hv => by
    rw [isDecision_congr hk.allowed]
    exact h.confined v (hk.contains v ▸ hv)

/-- Anything that leaves the order alone. -/
theorem of_widens (h : o.Stocks a) (ha : a.Widens b) : o.Stocks b :=
  h.widen (.refl h.wellFormed.valid) ha

theorem onUnassign (h : o.Stocks a) (l : Literal) : (o.onUnassign l).Stocks (a.unassign l) := by
  have hsize : (a.unassign l).cells.size = a.cells.size := by
    simp [Assignment.unassign]
  obtain ⟨hw, hallowed, -⟩ := h.wellFormed.onUnassign l
  refine ⟨hsize ▸ hw, h.offers.onUnassign h.wellFormed fun v hv hb => ?_, fun v hv => ?_⟩
  · simpa only [Assignment.isAssigned, Assignment.cell?_unassign_of_ne a (Ne.symm hv)] using hb
  · rw [isDecision_congr hallowed]
    by_cases hd : o.isDecision l.var = true
    · have hrun : (o.onUnassign l).heap = o.heap.restore l.var := by
        simp only [DecisionOrder.onUnassign, hd, if_true]
      rw [hrun, (h.wellFormed.valid.restore l.var).2.2, Bool.or_eq_true, Bool.and_eq_true,
        beq_iff_eq] at hv
      rcases hv with hv | ⟨rfl, -⟩
      · exact h.confined v hv
      · exact hd
    · have hrun : (o.onUnassign l).heap = o.heap := by
        simp only [DecisionOrder.onUnassign, hd]
        rfl
      exact h.confined v (hrun ▸ hv)

end Stocks

/-! ### New variables -/

/-- A new variable is in the heap if it may be decided, and nothing else comes in. -/
theorem WellFormed.of_contains_addVariable {o : DecisionOrder γ} {n : Nat} (h : o.WellFormed n)
    {v : Nat} (hv : o.addVariable.heap.contains v = true) :
    o.heap.contains v = true ∨ o.isDecision v = true := by
  obtain ⟨hval, -, hcon⟩ := h.valid.push (0.0 : Float)
  by_cases hd : o.isDecision o.heap.numKeys = true
  · have hrun : o.addVariable.heap = o.heap.push 0.0 := by
      simp only [DecisionOrder.addVariable, hd]
      rfl
    rw [hrun, hcon, Bool.or_eq_true, beq_iff_eq] at hv
    exact hv.imp_right fun (heq : v = o.heap.numKeys) => heq ▸ hd
  · have hrun : o.addVariable.heap = (o.heap.push 0.0).delete o.heap.numKeys := by
      simp only [DecisionOrder.addVariable, hd]
      rfl
    rw [hrun, (hval.delete o.heap.numKeys).2.2, hcon, Bool.and_eq_true, Bool.or_eq_true, beq_iff_eq,
      bne_iff_ne] at hv
    exact Or.inl (hv.1.resolve_right hv.2)

theorem WellFormed.of_contains_repeat_addVariable {o : DecisionOrder γ} {n : Nat}
    (h : o.WellFormed n)
    (m : Nat) {v : Nat} (hv : (m.repeat DecisionOrder.addVariable o).heap.contains v = true) :
    o.heap.contains v = true ∨ o.isDecision v = true := by
  induction m with
  | zero => exact Or.inl hv
  | succ m ih =>
    obtain ⟨hw, hallowed, -⟩ := h.repeat_addVariable m
    rcases hw.of_contains_addVariable hv with hv | hd
    · exact ih hv
    · exact Or.inr (isDecision_congr hallowed v ▸ hd)

theorem Stocks.grow {o : DecisionOrder γ} {a : Assignment} (h : o.Stocks a) (n : Nat) :
    (o.grow n).Stocks (a.grow n) := by
  obtain ⟨hw, hdecision, -⟩ := h.wellFormed.grow n
  refine ⟨?_, h.offers.grow h.wellFormed n, fun v hv => ?_⟩
  · rw [Assignment.size_cells_grow]
    exact hw
  · have hheap : (o.grow n).heap =
        ((n + 1 - o.heap.numKeys).repeat DecisionOrder.addVariable o).heap := rfl
    rw [hdecision]
    exact (h.wellFormed.of_contains_repeat_addVariable _ (hheap ▸ hv)).elim (h.confined v) id

/-! ### Restrictions -/

/-- Whatever may not be decided is out of the heap once it was seen to, and stays out. -/
theorem WellFormed.of_contains_restoreAll {o : DecisionOrder γ} {n : Nat} (h : o.WellFormed n)
    {v : Nat} (hv : o.restoreAll.heap.contains v = true) : o.isDecision v = true := by
  by_contra hd
  have hfold : ∀ (vs : List Nat) (o' : DecisionOrder γ), o'.heap.Valid → o'.allowed = o.allowed →
      (v ∈ vs ∨ o'.heap.contains v = false) →
      (vs.foldl (fun o v =>
        let isDecision := o.isDecision v
        o.modifyHeap fun heap => if isDecision then heap.restore v else heap.delete v)
        o').heap.contains v = false := by
    intro vs
    induction vs with
    | nil => exact fun o' _ _ hout => hout.resolve_left List.not_mem_nil
    | cons w ws ih =>
      intro o' hval hallowed hout
      rw [List.foldl_cons]
      have hsame := isDecision_congr hallowed
      by_cases hw : o'.isDecision w = true
      · have hne : v ≠ w := by
          rintro rfl
          exact hd (hsame v ▸ hw)
        obtain ⟨hval', -, hcon⟩ := hval.restore w
        simp only [hw, if_true]
        refine ih _ hval' hallowed ((hout.imp_left fun hmem => ?_).imp_right fun hout => ?_)
        · exact (List.mem_cons.mp hmem).resolve_left hne
        · show (o'.heap.restore w).contains v = false
          rw [hcon, hout, beq_eq_false_iff_ne.mpr hne]
          rfl
      · obtain ⟨hval', -, hcon⟩ := hval.delete w
        simp only [hw]
        refine ih _ hval' hallowed ?_
        by_cases hvw : v = w
        · refine Or.inr ?_
          show (o'.heap.delete w).contains v = false
          rw [hcon, bne_eq_false_iff_eq.mpr hvw, Bool.and_false]
        · refine (hout.imp_left fun hmem => (List.mem_cons.mp hmem).resolve_left hvw).imp_right
            fun hout => ?_
          show (o'.heap.delete w).contains v = false
          rw [hcon, hout, Bool.false_and]
  have hrange : v ∈ List.range' 1 (o.heap.numKeys - 1) ∨ o.heap.contains v = false := by
    cases hcontains : o.heap.contains v with
    | false => exact Or.inr rfl
    | true =>
      have hlt := h.valid.lt_of_contains hcontains
      have hne : v ≠ 0 := by
        rintro rfl
        rw [h.zero] at hcontains
        cases hcontains
      refine Or.inl (List.mem_range'_1.mpr ?_)
      omega
  have hout := hfold _ o h.valid rfl hrange
  have hin : (o.restoreAll).heap.contains v = true := hv
  rw [show o.restoreAll.heap.contains v = false from hout] at hin
  cases hin

/-- Whatever values there are, the heap is right for them once everything was put back. -/
theorem WellFormed.stocks_restoreAll {o : DecisionOrder γ} {a : Assignment}
    (h : o.WellFormed a.cells.size) : o.restoreAll.Stocks a := by
  obtain ⟨hw, hallowed, hcon⟩ := h.restoreAll
  refine ⟨hw, fun v hv hd _ => ?_, fun v hv => ?_⟩
  · rw [hw.numKeys] at hv
    exact hcon v hv (isDecision_congr hallowed v ▸ hd)
  · rw [isDecision_congr hallowed]
    exact h.of_contains_restoreAll hv

theorem Stocks.restrictTo {o : DecisionOrder γ} {a : Assignment} (h : o.Stocks a)
    (vs : Option (List Nat)) : (o.restrictTo vs).Stocks a :=
  WellFormed.stocks_restoreAll ⟨h.wellFormed.valid, h.wellFormed.numKeys, h.wellFormed.zero⟩

/-! ### Decisions -/

variable [RandomSource γ]

theorem WellFormed.of_contains_nextActive {o : DecisionOrder γ} {n : Nat} (h : o.WellFormed n)
    {a : Assignment} {v : Nat} (hv : (o.nextActive a).2.heap.contains v = true) :
    o.heap.contains v = true := by
  obtain ⟨heap, increment, decayFactor, randomFrequency, generator, allowed, phase⟩ := o
  cases hp : popUnassigned a heap.size heap with
  | mk v? heap' =>
    obtain ⟨-, -, hsub, -, -⟩ := popUnassigned_spec a heap.size h.valid hp
    simp only [nextActive, hp] at hv
    cases v? with
    | none => exact hsub v hv
    | some w => exact hsub v hv

/-- Asking for a decision puts nothing into the heap. -/
theorem WellFormed.of_contains_nextDecision {o : DecisionOrder γ} {n : Nat} (h : o.WellFormed n)
    {a : Assignment} {v : Nat} (hv : (o.nextDecision a).2.heap.contains v = true) :
    o.heap.contains v = true := by
  obtain ⟨hheap, -, -⟩ := drawVariable?_heap o
  have hdrawn : ∀ {o₁ : DecisionOrder γ}, o₁.heap = o.heap →
      (o₁.nextActive a).2.heap.contains v = true → o.heap.contains v = true := by
    intro o₁ heq hv
    have h₁ : o₁.WellFormed n := ⟨heq ▸ h.valid, heq ▸ h.numKeys, heq ▸ h.zero⟩
    rw [← heq]
    exact h₁.of_contains_nextActive hv
  unfold nextDecision at hv
  split at hv
  · rename_i w o₁ hdraw
    rw [hdraw] at hheap
    split at hv
    · rw [← hheap]
      exact hv
    · exact hdrawn hheap hv
  · rename_i o₁ hdraw
    rw [hdraw] at hheap
    exact hdrawn hheap hv

theorem WellFormed.contains_of_nextActive {o o' : DecisionOrder γ} {n : Nat} (h : o.WellFormed n)
    {a : Assignment} {l : Literal} (hrun : o.nextActive a = (some l, o')) :
    o.heap.contains l.var = true := by
  obtain ⟨heap, increment, decayFactor, randomFrequency, generator, allowed, phase⟩ := o
  cases hp : popUnassigned a heap.size heap with
  | mk v? heap' =>
    obtain ⟨-, -, -, hsome, -⟩ := popUnassigned_spec a heap.size h.valid hp
    simp only [nextActive, hp] at hrun
    cases v? with
    | none => simp at hrun
    | some v =>
      simp only [Prod.mk.injEq, Option.some.injEq] at hrun
      rw [← hrun.1, Phase.var_select]
      exact hsome v rfl

namespace Stocks

variable {o o' : DecisionOrder γ} {a : Assignment} {l : Literal}

/-- Whether it is drawn or the most active one, what is decided may be decided. -/
theorem isDecision_nextDecision (h : o.Stocks a) (hrun : o.nextDecision a = (some l, o')) :
    o.isDecision l.var = true := by
  obtain ⟨hheap, hallowed, -⟩ := drawVariable?_heap o
  have hactive : ∀ {o₁ : DecisionOrder γ}, o₁.heap = o.heap →
      o₁.nextActive a = (some l, o') → o.isDecision l.var = true := by
    intro o₁ heq hrun
    have h₁ : o₁.WellFormed a.cells.size :=
      ⟨heq ▸ h.wellFormed.valid, heq ▸ h.wellFormed.numKeys, heq ▸ h.wellFormed.zero⟩
    exact h.confined _ (heq ▸ h₁.contains_of_nextActive hrun)
  unfold nextDecision at hrun
  split at hrun
  · rename_i v o₁ hdraw
    rw [hdraw] at hheap hallowed
    split at hrun
    · rename_i hv
      simp only [Bool.and_eq_true, Bool.not_eq_true'] at hv
      simp only [Prod.mk.injEq, Option.some.injEq] at hrun
      have hvar : (o₁.select v).1.var = v := Phase.var_select v o₁.phase
      rw [← hrun.1, hvar, ← isDecision_congr hallowed]
      exact hv.2
    · exact hactive hheap hrun
  · rename_i o₁ hdraw
    rw [hdraw] at hheap
    exact hactive hheap hrun

/-- Once the decision is made, everything else that is unassigned is in the heap still. -/
theorem nextDecision_some (h : o.Stocks a) (hrun : o.nextDecision a = (some l, o')) :
    o'.Stocks (a.openLevel.enqueue l none).2 := by
  have hd := DecisionOrder.nextDecision_some h.wellFormed hrun
  have hwide : a.Widens (a.openLevel.enqueue l none).2 :=
    a.widens_openLevel.trans (a.openLevel.widens_enqueue l none)
  refine ⟨?_, fun v hv hdv hav => ?_, fun v hv => ?_⟩
  · rw [hwide.size]
    exact hd.wellFormed
  · rw [hd.wellFormed.numKeys] at hv
    have hne : v ≠ l.var := by
      rintro rfl
      have hknown : l.var < a.openLevel.cells.size := hd.var_lt
      rw [Assignment.isAssigned_enqueue_self none hknown] at hav
      cases hav
    have hva := hwide.unassigned v hav
    exact hd.contains v (h.offers v (h.wellFormed.numKeys.symm ▸ hv)
      (isDecision_congr hd.allowed v ▸ hdv) hva) hva hne
  · rw [isDecision_congr hd.allowed]
    have hafter : (o.nextDecision a).2.heap.contains v = true := by
      rw [hrun]
      exact hv
    exact h.confined v (h.wellFormed.of_contains_nextDecision hafter)

theorem nextDecision_none (h : o.Stocks a) (hrun : o.nextDecision a = (none, o')) :
    o'.Stocks a := by
  obtain ⟨hw, hallowed, hall⟩ := DecisionOrder.nextDecision_none h.wellFormed hrun
  refine ⟨hw, fun v hv hd hav => ?_, fun v hv => ?_⟩
  · rw [hw.numKeys] at hv
    rw [hall h.offers v hv (isDecision_congr hallowed v ▸ hd)] at hav
    cases hav
  · rw [isDecision_congr hallowed]
    have hafter : (o.nextDecision a).2.heap.contains v = true := by
      rw [hrun]
      exact hv
    exact h.confined v (h.wellFormed.of_contains_nextDecision hafter)

end Stocks

end DecisionOrder

/-! ## Constraints on the board -/

section

variable {κ : Type}

theorem Board.widens_enqueue (r : Option Reference) (l : Literal) (b : Board) :
    b.assignment.Widens (b.enqueue r l).2.assignment :=
  b.assignment.widens_enqueue l r

/-- Whatever a constraint from outside asks for, no variable loses its value. -/
theorem Script.widens_run {α : Type} (r : Reference) (script : Script α) (b : Board) :
    b.assignment.Widens (script.run r b).2.assignment := by
  induction script generalizing b with
  | done result => exact .refl _
  | watch l next ih => exact ih (b.watch r l none)
  | unwatch l next ih => exact ih (b.unwatch r l)
  | registerUndo v next ih => exact ih (b.registerUndo r v)
  | enqueue l next ih => exact (b.widens_enqueue (some r) l).trans (ih _ _)
  | look next ih => exact ih _ b

theorem Clause.widens_propagate (r : Reference) (p : Literal) (c : Clause) (b : Board) :
    b.assignment.Widens (c.propagate r p b).2.2.assignment := by
  simp only [propagate]
  split
  · exact .refl _
  · split
    · exact .refl _
    · exact Board.widens_enqueue (some r) _ _

theorem Cardinality.widens_force (r : Reference) (c : Cardinality) (b : Board) :
    b.assignment.Widens (c.force r b).assignment := by
  unfold force
  induction c.literals generalizing b with
  | nil => exact .refl _
  | cons l ls ih =>
    rw [List.foldl_cons]
    refine Assignment.Widens.trans ?_ (ih _)
    split
    · exact b.widens_enqueue (some r) l
    · exact .refl _

theorem Cardinality.widens_propagate (r : Reference) (p : Literal) (c : Cardinality) (b : Board) :
    b.assignment.Widens (c.propagate r p b).2.2.assignment := by
  simp only [propagate]
  split
  · exact .refl _
  · split
    · exact widens_force r _ ((b.watch r p none).registerUndo r p.var)
    · exact .refl _

theorem Cardinality.assignment_attach (r : Reference) (c : Cardinality) (b : Board) :
    (c.attach r b).assignment = b.assignment := by
  unfold attach
  induction c.literals generalizing b with
  | nil => rfl
  | cons l ls ih => exact ih _

theorem Parity.widens_propagate (r : Reference) (p : Literal) (c : Parity) (b : Board) :
    b.assignment.Widens (c.propagate r p b).2.2.assignment := by
  simp only [propagate]
  split
  · exact .refl _
  · exact Board.widens_enqueue (some r) _ _

namespace Constraint

variable [CustomConstraint κ]

theorem widens_propagate (r : Reference) (p : Literal) (c : Constraint κ) (b : Board) :
    b.assignment.Widens (c.propagate r p b).2.2.assignment := by
  obtain ⟨kind, m⟩ := c
  cases kind with
  | clause k => exact k.widens_propagate r p b
  | cardinality k => exact k.widens_propagate r p b
  | parity k => exact k.widens_propagate r p b
  | custom k => exact Script.widens_run r _ b

theorem widens_attach (r : Reference) (c : Constraint κ) (b : Board) :
    b.assignment.Widens (c.attach r b).2.2.assignment := by
  obtain ⟨kind, m⟩ := c
  cases kind with
  | clause k => exact .refl _
  | cardinality k =>
    show b.assignment.Widens (k.attach r b).assignment
    rw [k.assignment_attach]
    exact .refl _
  | parity k => exact .refl _
  | custom k => exact Script.widens_run r _ b

end Constraint

end

/-! ## The state of the search -/

namespace SearchState

variable {κ : Type}

/-- The heap is right for the assignment. -/
def Stocked (s : SearchState κ) : Prop := s.order.Stocks s.assignment

/-- More values, and the order is left alone. -/
structure Widens (s s' : SearchState κ) : Prop where
  order : s'.order = s.order
  assignment : s.assignment.Widens s'.assignment

namespace Widens

theorem refl (s : SearchState κ) : s.Widens s := ⟨rfl, .refl _⟩

theorem trans {s₁ s₂ s₃ : SearchState κ} (h : s₁.Widens s₂) (h' : s₂.Widens s₃) : s₁.Widens s₃ :=
  ⟨h'.order.trans h.order, h.assignment.trans h'.assignment⟩

theorem stocked {s s' : SearchState κ} (h : s.Widens s') (hs : s.Stocked) : s'.Stocked := by
  have horder := h.order ▸ DecisionOrder.Stocks.of_widens hs h.assignment
  exact horder

end Widens

variable {s s' : SearchState κ}

theorem Stocked.grow (h : s.Stocked) (n : Nat) : (s.grow n).Stocked :=
  DecisionOrder.Stocks.grow h n

theorem Stocked.model (h : s.Stocked) : s.model.2.Stocked := by
  obtain ⟨board, arena, learned, order, head⟩ := s
  have hvalid : order.heap.Valid := h.wellFormed.valid
  exact DecisionOrder.Stocks.widen h (Engine.select_spec _ hvalid []).2 (.refl _)

theorem Widens.enqueue (s : SearchState κ) (l : Literal) : s.Widens (s.enqueue l).2 := by
  obtain ⟨board, arena, learned, order, head⟩ := s
  exact ⟨rfl, board.widens_enqueue none l⟩

theorem Widens.openLevel (s : SearchState κ) : s.Widens s.openLevel :=
  ⟨rfl, s.assignment.widens_openLevel⟩

variable [CustomConstraint κ]

omit [CustomConstraint κ] in
theorem Stocked.clear (h : s.Stocked) : s.clear.Stocked := by
  obtain ⟨⟨a, w⟩, arena, learned, order, head⟩ := s
  have hsize : a.clear.cells.size = a.cells.size := Array.size_replicate
  have hw : order.WellFormed a.clear.cells.size := by
    rw [hsize]
    exact h.wellFormed
  exact hw.stocks_restoreAll

omit [CustomConstraint κ] in
theorem Widens.delete (s : SearchState κ) (rs : List Reference) : s.Widens (s.delete rs) := by
  refine ⟨order_delete s rs, ?_⟩
  rw [assignment_delete]
  exact .refl _

theorem Widens.attach (s : SearchState κ) (c : Constraint κ) : s.Widens (s.attach c).2.2 := by
  obtain ⟨board, arena, learned, order, head⟩ := s
  exact ⟨rfl, c.widens_attach _ board⟩

omit [CustomConstraint κ] in
theorem Widens.learn (s : SearchState κ) (k : Clause) (m : Metadata) (lbd : Nat) :
    s.Widens (s.learn k m lbd) := by
  obtain ⟨board, arena, learned, order, head⟩ := s
  exact ⟨rfl, (k.attach _ board).widens_enqueue _ k.first⟩

/-! ### Propagation -/

theorem Widens.visit {p : Literal} {r : Reference} {numAssigned : Nat} {ok : Bool}
    (hrun : SearchState.visit p r numAssigned s = .ok (ok, s')) : s.Widens s' := by
  obtain ⟨board, arena, learned, order, head⟩ := s
  obtain ⟨c, -, hrun⟩ := ok_of_bind hrun
  have hwide := c.widens_propagate r p board
  dsimp only at hrun
  split at hrun
  · rename_i heq
    cases hrun
    rw [heq] at hwide
    exact ⟨rfl, hwide⟩
  · rename_i heq
    rw [heq] at hwide
    split at hrun <;> cases hrun <;> exact ⟨rfl, hwide⟩

theorem Widens.notify {p : Literal} {ws : List Watcher} {conflict : Option Reference}
    (hrun : SearchState.notify p ws s = .ok (conflict, s')) : s.Widens s' := by
  induction ws generalizing s with
  | nil =>
    cases hrun
    exact .refl _
  | cons w ws ih =>
    unfold SearchState.notify at hrun
    split at hrun
    · have hrest := ih hrun
      exact ⟨hrest.order, hrest.assignment⟩
    · obtain ⟨⟨ok, s₁⟩, hvisit, hrun⟩ := ok_of_bind hrun
      have hvisited := Widens.visit hvisit
      cases ok with
      | true => exact hvisited.trans (ih hrun)
      | false =>
        cases hrun
        exact ⟨hvisited.order, hvisited.assignment⟩

theorem Widens.propagate {conflict : Option Reference} (hrun : s.propagate = .ok (conflict, s')) :
    s.Widens s' := by
  have hsteps : ∀ n (s : SearchState κ), propagateSteps n s = .ok (conflict, s') → s.Widens s' := by
    intro n
    induction n with
    | zero => exact fun _ hrun => nomatch hrun
    | succ n ih =>
      intro s hrun
      obtain ⟨⟨a, w⟩, arena, learned, order, head⟩ := s
      unfold propagateSteps at hrun
      split at hrun
      · cases hrun
        exact .refl _
      · obtain ⟨⟨found, s₁⟩, hnotify, hrun⟩ := ok_of_bind hrun
        obtain ⟨horder, hwide⟩ := Widens.notify hnotify
        cases found with
        | none => exact Widens.trans ⟨horder, hwide⟩ (ih s₁ hrun)
        | some r =>
          cases hrun
          exact ⟨horder, hwide⟩
  exact hsteps _ s hrun

/-! ### Taking assignments back -/

theorem stocks_undoNewest (n : Nat) {board board' : Board} {arena arena' : Arena κ}
    {order order' : DecisionOrder Generator} (h : order.Stocks board.assignment)
    (hrun : undoNewest n board arena order = .ok (board', arena', order')) :
    order'.Stocks board'.assignment := by
  induction n generalizing board arena order with
  | zero =>
    cases hrun
    exact h
  | succ n ih =>
    unfold undoNewest at hrun
    split at hrun
    · cases hrun
      exact h
    · rename_i l hl
      obtain ⟨arena₁, -, hrun⟩ := ok_of_bind hrun
      exact ih (h.onUnassign l) hrun

theorem Stocked.backtrack (h : s.Stocked) {level : Nat} (hrun : s.backtrack level = .ok s') :
    s'.Stocked := by
  obtain ⟨board, arena, learned, order, head⟩ := s
  simp only [SearchState.backtrack] at hrun
  split at hrun
  · cases hrun
    exact h
  · obtain ⟨⟨⟨a, w⟩, arena₁, order₁⟩, hundo, hret⟩ := ok_of_bind hrun
    cases hret
    exact (stocks_undoNewest _ h hundo).of_widens ⟨rfl, fun _ hv => hv⟩

theorem Stocked.backtrackRoot (h : s.Stocked) {checkpoint : Nat}
    (hrun : s.backtrackRoot checkpoint = .ok s') : s'.Stocked := by
  obtain ⟨board, arena, learned, order, head⟩ := s
  simp only [SearchState.backtrackRoot] at hrun
  split at hrun
  · cases hrun
  · obtain ⟨⟨board₁, arena₁, order₁⟩, hundo, hret⟩ := ok_of_bind hrun
    cases hret
    exact stocks_undoNewest _ h hundo

omit [CustomConstraint κ] in
theorem Widens.forgetReasons (hrun : s.forgetReasons = .ok s') : s.Widens s' := by
  obtain ⟨⟨a, w⟩, arena, learned, order, head⟩ := s
  simp only [SearchState.forgetReasons] at hrun
  split at hrun
  · cases hrun
  · cases hrun
    refine ⟨rfl, ?_⟩
    show a.Widens (a.trail.foldl (fun a l => a.clearReason l.var) a)
    rw [← Array.foldl_toList]
    have hfold : ∀ (ls : List Literal) (b : Assignment), a.Widens b →
        a.Widens (ls.foldl (fun a l => a.clearReason l.var) b) := by
      intro ls
      induction ls with
      | nil => exact fun _ h => h
      | cons l ls ih => exact fun b h => ih _ (h.trans (b.widens_clearReason l.var))
    exact hfold _ a (.refl a)

theorem Widens.simplify {n : Nat} (hrun : s.simplify = .ok (n, s')) : s.Widens s' := by
  obtain ⟨s₁, hforget, hret⟩ := ok_of_bind hrun
  cases hret
  exact (Widens.forgetReasons hforget).trans (.delete s₁ _)

theorem Stocked.deleteOwned (h : s.Stocked) {rs : List Reference} {handle : Nat}
    (hrun : s.deleteOwned rs handle = .ok s') : s'.Stocked := by
  obtain ⟨s₁, hback, hrun⟩ := ok_of_bind hrun
  obtain ⟨s₂, hforget, hret⟩ := ok_of_bind hrun
  cases hret
  exact ((Widens.forgetReasons hforget).trans (.delete s₂ _)).stocked (h.backtrack hback)

end SearchState

/-! ## Analyses -/

namespace Resolution

variable {κ : Type} [CustomConstraint κ]

omit [CustomConstraint κ] in
theorem sameKeys_note {a : Assignment} {l : Literal} {s : Resolution κ}
    {o : DecisionOrder Generator} (h : o.SameKeys s.order) : o.SameKeys (s.note a l).order := by
  obtain ⟨seen, marked, lower, numOpen, order, arena, needsRescale⟩ := s
  unfold note
  dsimp only
  split
  · exact h
  · have hbumped := h.trans (DecisionOrder.sameKeys_bump h.valid l.var)
    split
    · dsimp only
      exact hbumped
    · dsimp only
      exact hbumped

theorem sameKeys_resolve {d : LearnedDatabase} {a : Assignment} {r : Reference} {p : Option Literal}
    {s s' : Resolution κ} {o : DecisionOrder Generator} (h : o.SameKeys s.order)
    (hrun : resolve d a r p s = .ok s') : o.SameKeys s'.order := by
  obtain ⟨seen, marked, lower, numOpen, order, arena, needsRescale⟩ := s
  obtain ⟨c, -, hrun⟩ := ok_of_bind hrun
  have hfold : ∀ (ls : List Literal) (s : Resolution κ), o.SameKeys s.order →
      o.SameKeys (ls.foldl (fun s l => s.note a l) s).order := by
    intro ls
    induction ls with
    | nil => exact fun _ h => h
    | cons l ls ih =>
      intro s h
      rw [List.foldl_cons]
      exact ih _ (sameKeys_note h)
  dsimp only at hrun
  split at hrun
  · cases hrun
  · cases hrun
    exact hfold _ _ h

theorem sameKeys_descend {d : LearnedDatabase} {a : Assignment} {n : Nat} {l : Literal}
    {s s' : Resolution κ} {o : DecisionOrder Generator} (h : o.SameKeys s.order)
    (hrun : descend d a n s = .ok (l, s')) : o.SameKeys s'.order := by
  induction n generalizing s with
  | zero => cases hrun
  | succ n ih =>
    obtain ⟨seen, marked, lower, numOpen, order, arena, needsRescale⟩ := s
    unfold descend at hrun
    split at hrun
    · exact ih h hrun
    · split at hrun
      · split at hrun
        · cases hrun
          exact h
        · split at hrun
          · cases hrun
          · obtain ⟨s₁, hresolve, hrun⟩ := ok_of_bind hrun
            exact ih (sameKeys_resolve (by exact h) hresolve) hrun
      · exact ih h hrun

end Resolution

/-- Variables that took part in a conflict move within the heap. -/
theorem Analyser.sameKeys_analyse {κ : Type} [CustomConstraint κ] {r : Reference} {a : Assignment}
    {analyser : Analyser} {order : DecisionOrder Generator} {learned : LearnedDatabase}
    {arena : Arena κ} {lesson : Lesson κ} (h : order.heap.Valid)
    (hrun : analyser.analyse r a order learned arena = .ok lesson) :
    order.SameKeys lesson.order := by
  obtain ⟨minimisation, seen, minimiser⟩ := analyser
  simp only [analyse] at hrun
  split at hrun
  · cases hrun
  · obtain ⟨s, hresolve, hrun⟩ := ok_of_bind hrun
    obtain ⟨⟨last, s'⟩, hdescend, hrun⟩ := ok_of_bind hrun
    have hsame : order.SameKeys s'.order :=
      Resolution.sameKeys_descend (Resolution.sameKeys_resolve (.refl h) hresolve) hdescend
    dsimp only at hrun
    split at hrun
    · obtain ⟨rescaled, -, hrun⟩ := ok_of_bind hrun
      obtain ⟨minimised, -, hret⟩ := ok_of_bind hrun
      cases hret
      exact hsame
    · obtain ⟨pair, -, hrun⟩ := ok_of_bind hrun
      obtain ⟨minimised, -, hret⟩ := ok_of_bind hrun
      cases hret
      exact hsame

end ClauseLearning
