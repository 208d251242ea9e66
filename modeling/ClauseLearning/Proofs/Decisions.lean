import ClauseLearning.Decision.Order
import ClauseLearning.Proofs.Heap
import ClauseLearning.Proofs.Trail

/-!
# What the order of decisions offers

The heap of the order never holds the number 0, which names no variable
(`DecisionOrder.WellFormed`), and it holds every variable that may be decided and has no value
(`DecisionOrder.Offers`).

* `nextDecision_some`: a decision is about an unassigned variable that has a cell.
* `nextDecision_none`: without a decision, every variable that may be decided has a value.
-/

namespace ClauseLearning.DecisionOrder

variable {γ : Type}

/-- There is a key for every number below `n`, and 0 is not in the heap. -/
structure WellFormed (o : DecisionOrder γ) (n : Nat) : Prop where
  valid : o.heap.Valid
  numKeys : o.heap.numKeys = n
  zero : o.heap.contains 0 = false

/-- Every variable that may be decided and has no value is in the heap. -/
def Offers (o : DecisionOrder γ) (a : Assignment) : Prop :=
  ∀ v, v < o.heap.numKeys → o.isDecision v = true → a.isAssigned v = false →
    o.heap.contains v = true

/-- The same keys are in the heap, and the same variables may be decided. -/
structure SameKeys (o o' : DecisionOrder γ) : Prop where
  valid : o'.heap.Valid
  numKeys : o'.heap.numKeys = o.heap.numKeys
  contains : ∀ k, o'.heap.contains k = o.heap.contains k
  allowed : o'.allowed = o.allowed

theorem isDecision_zero (o : DecisionOrder γ) : o.isDecision 0 = false := rfl

theorem isDecision_congr {o o' : DecisionOrder γ} (h : o'.allowed = o.allowed) (v : Nat) :
    o'.isDecision v = o.isDecision v := by
  simp only [isDecision, h]

theorem wellFormed_make [RandomSource γ] (decayFactor randomFrequency : Float) (seed : UInt64)
    (rule : PhaseRule) :
    (make decayFactor randomFrequency seed rule : DecisionOrder γ).WellFormed 0 :=
  ⟨PriorityHeap.valid_empty, rfl, rfl⟩

namespace SameKeys

theorem refl {o : DecisionOrder γ} (hv : o.heap.Valid) : o.SameKeys o :=
  ⟨hv, rfl, fun _ => rfl, rfl⟩

theorem trans {o₁ o₂ o₃ : DecisionOrder γ} (h : o₁.SameKeys o₂) (h' : o₂.SameKeys o₃) :
    o₁.SameKeys o₃ :=
  ⟨h'.valid, h'.numKeys.trans h.numKeys, fun k => (h'.contains k).trans (h.contains k),
    h'.allowed.trans h.allowed⟩

variable {o o' : DecisionOrder γ} (h : o.SameKeys o')
include h

theorem wellFormed {n : Nat} (hw : o.WellFormed n) : o'.WellFormed n :=
  ⟨h.valid, h.numKeys.trans hw.numKeys, (h.contains 0).trans hw.zero⟩

theorem offers {a : Assignment} (ho : o.Offers a) : o'.Offers a := by
  intro v hv hd ha
  rw [h.contains]
  exact ho v (h.numKeys ▸ hv) (isDecision_congr h.allowed v ▸ hd) ha

end SameKeys

/-! ## Activities -/

theorem sameKeys_rescale {o : DecisionOrder γ} (hv : o.heap.Valid) : o.SameKeys o.rescale := by
  obtain ⟨hval, hnum, hcon⟩ := hv.divideAll maxActivity
  exact ⟨hval, hnum, hcon, rfl⟩

theorem sameKeys_bump {o : DecisionOrder γ} (hv : o.heap.Valid) (v : Nat) :
    o.SameKeys (o.bump v) := by
  have hstep : ∀ o' : DecisionOrder γ, o'.heap.Valid →
      o'.SameKeys (o'.modifyHeap (·.increase v o'.increment)) := by
    intro o' hv'
    obtain ⟨hval, hnum, hcon⟩ := hv'.increase v o'.increment
    exact ⟨hval, hnum, hcon, rfl⟩
  simp only [bump]
  split
  · have hr := sameKeys_rescale hv
    exact hr.trans (hstep _ hr.valid)
  · exact hstep o hv

theorem sameKeys_decay {o : DecisionOrder γ} (hv : o.heap.Valid) : o.SameKeys o.decay :=
  ⟨hv, rfl, fun _ => rfl, rfl⟩

theorem sameKeys_select [RandomSource γ] {o : DecisionOrder γ} (hv : o.heap.Valid) (v : Nat) :
    o.SameKeys (o.select v).2 :=
  ⟨hv, rfl, fun _ => rfl, rfl⟩

/-! ## Variables that lose their value -/

theorem WellFormed.onUnassign {o : DecisionOrder γ} {n : Nat} (h : o.WellFormed n) (l : Literal) :
    (o.onUnassign l).WellFormed n ∧ (o.onUnassign l).allowed = o.allowed ∧
      ∀ k, o.heap.contains k = true ∨ (k = l.var ∧ o.isDecision k = true ∧ k < n) →
        (o.onUnassign l).heap.contains k = true := by
  by_cases hd : o.isDecision l.var = true
  · have hrun : (o.onUnassign l).heap = o.heap.restore l.var := by
      simp only [DecisionOrder.onUnassign, hd, if_true]
    obtain ⟨hval, hnum, hcon⟩ := h.valid.restore l.var
    have hne : l.var ≠ 0 := by
      intro hz
      rw [hz, isDecision_zero] at hd
      cases hd
    refine ⟨⟨hrun ▸ hval, ?_, ?_⟩, rfl, fun k hk => ?_⟩
    · rw [hrun, hnum, h.numKeys]
    · rw [hrun, hcon, h.zero, beq_eq_false_iff_ne.mpr (Ne.symm hne)]
      rfl
    · rw [hrun, hcon, h.numKeys]
      rcases hk with hk | ⟨rfl, -, hk⟩
      · simp [hk]
      · simp [hk]
  · have hrun : (o.onUnassign l).heap = o.heap := by
      simp only [DecisionOrder.onUnassign, hd]
      rfl
    refine ⟨⟨hrun ▸ h.valid, hrun ▸ h.numKeys, hrun ▸ h.zero⟩, rfl, fun k hk => ?_⟩
    rw [hrun]
    rcases hk with hk | ⟨rfl, hk, -⟩
    · exact hk
    · exact absurd hk hd

theorem Offers.onUnassign {o : DecisionOrder γ} {a a' : Assignment} {n : Nat} (h : o.WellFormed n)
    (ho : o.Offers a) {l : Literal}
    (ha : ∀ v, v ≠ l.var → a'.isAssigned v = false → a.isAssigned v = false) :
    (o.onUnassign l).Offers a' := by
  obtain ⟨hw, hallowed, hcon⟩ := h.onUnassign l
  intro v hv hd hav
  rw [hw.numKeys] at hv
  rw [isDecision_congr hallowed] at hd
  apply hcon
  by_cases hvl : v = l.var
  · exact Or.inr ⟨hvl, hd, hv⟩
  · exact Or.inl (ho v (h.numKeys ▸ hv) hd (ha v hvl hav))

/-! ## New variables -/

theorem WellFormed.addVariable {o : DecisionOrder γ} {n : Nat} (h : o.WellFormed n) :
    o.addVariable.WellFormed (n + 1) ∧ o.addVariable.allowed = o.allowed ∧
      ∀ k, o.heap.contains k = true ∨ (k = n ∧ o.isDecision k = true) →
        o.addVariable.heap.contains k = true := by
  have hnumKeys := h.numKeys
  obtain ⟨hval, hnum, hcon⟩ := h.valid.push (0.0 : Float)
  by_cases hd : o.isDecision o.heap.numKeys = true
  · have hrun : o.addVariable.heap = o.heap.push 0.0 := by
      simp only [DecisionOrder.addVariable, hd]
      rfl
    have hne : n ≠ 0 := by
      rintro rfl
      rw [hnumKeys, isDecision_zero] at hd
      cases hd
    refine ⟨⟨hrun ▸ hval, ?_, ?_⟩, rfl, fun k hk => ?_⟩
    · rw [hrun, hnum, hnumKeys]
    · rw [hrun, hcon, h.zero, hnumKeys, beq_eq_false_iff_ne.mpr (Ne.symm hne)]
      rfl
    · rw [hrun, hcon, hnumKeys]
      rcases hk with hk | ⟨rfl, -⟩
      · simp [hk]
      · simp
  · have hrun : o.addVariable.heap = (o.heap.push 0.0).delete o.heap.numKeys := by
      simp only [DecisionOrder.addVariable, hd]
      rfl
    obtain ⟨hval', hnum', hcon'⟩ := hval.delete o.heap.numKeys
    refine ⟨⟨hrun ▸ hval', ?_, ?_⟩, rfl, fun k hk => ?_⟩
    · rw [hrun, hnum', hnum, hnumKeys]
    · rw [hrun, hcon', hcon, h.zero, hnumKeys]
      simp
    · rw [hrun, hcon', hcon]
      rcases hk with hk | ⟨rfl, hk⟩
      · have hlt := h.valid.lt_of_contains hk
        have hne : k ≠ o.heap.numKeys := by omega
        simp [hk, hne]
      · exact absurd (hnumKeys ▸ hk) hd

theorem WellFormed.repeat_addVariable {o : DecisionOrder γ} {n : Nat} (h : o.WellFormed n)
    (m : Nat) :
    (m.repeat DecisionOrder.addVariable o).WellFormed (n + m) ∧
    (m.repeat DecisionOrder.addVariable o).allowed = o.allowed ∧
      ∀ k, o.heap.contains k = true ∨ (n ≤ k ∧ k < n + m ∧ o.isDecision k = true) →
        (m.repeat DecisionOrder.addVariable o).heap.contains k = true := by
  induction m with
  | zero =>
    refine ⟨h, rfl, fun k hk => ?_⟩
    rcases hk with hk | ⟨hge, hlt, -⟩
    · exact hk
    · omega
  | succ m ih =>
    obtain ⟨hw, hallowed, hcon⟩ := ih
    obtain ⟨hw', hallowed', hcon'⟩ := hw.addVariable
    refine ⟨hw', hallowed'.trans hallowed, fun k hk => hcon' k ?_⟩
    rcases hk with hk | ⟨hge, hlt, hd⟩
    · exact Or.inl (hcon k (Or.inl hk))
    · by_cases hkm : k = n + m
      · exact Or.inr ⟨hkm, (isDecision_congr hallowed k).trans hd⟩
      · exact Or.inl (hcon k (Or.inr ⟨hge, by omega, hd⟩))

theorem isDecision_grow (o : DecisionOrder γ) (n v : Nat)
    (hallowed : ((n + 1 - o.heap.numKeys).repeat addVariable o).allowed = o.allowed) :
    (o.grow n).isDecision v = o.isDecision v := by
  simp only [isDecision, DecisionOrder.grow, hallowed]
  cases o.allowed with
  | none => rfl
  | some table =>
    simp only [Option.map_some]
    congr 1
    exact getD_append_replicate ..

theorem WellFormed.grow {o : DecisionOrder γ} {n : Nat} (h : o.WellFormed n) (m : Nat) :
    (o.grow m).WellFormed (max n (m + 1)) ∧ (∀ v, (o.grow m).isDecision v = o.isDecision v) ∧
      ∀ k, o.heap.contains k = true ∨ (n ≤ k ∧ k ≤ m ∧ o.isDecision k = true) →
        (o.grow m).heap.contains k = true := by
  obtain ⟨hw, hallowed, hcon⟩ := h.repeat_addVariable (m + 1 - n)
  have hnumKeys := h.numKeys
  have hheap : (o.grow m).heap = ((m + 1 - n).repeat DecisionOrder.addVariable o).heap := by
    simp only [DecisionOrder.grow, hnumKeys]
  have hmax : n + (m + 1 - n) = max n (m + 1) := by omega
  refine ⟨⟨hheap ▸ hw.valid, ?_, hheap ▸ hw.zero⟩, fun v => ?_, fun k hk => ?_⟩
  · rw [hheap, hw.numKeys, hmax]
  · exact isDecision_grow o m v (by rw [hnumKeys]; exact hallowed)
  · rw [hheap]
    apply hcon
    rcases hk with hk | ⟨hge, hle, hd⟩
    · exact Or.inl hk
    · exact Or.inr ⟨hge, by omega, hd⟩

theorem Offers.grow {o : DecisionOrder γ} {a : Assignment} {n : Nat} (h : o.WellFormed n)
    (ho : o.Offers a) (m : Nat) : (o.grow m).Offers (a.grow m) := by
  obtain ⟨hw, hdecision, hcon⟩ := h.grow m
  intro v hv hd ha
  rw [hw.numKeys] at hv
  rw [hdecision] at hd
  apply hcon
  by_cases hvn : v < n
  · refine Or.inl (ho v (h.numKeys ▸ hvn) hd ?_)
    simpa only [Assignment.isAssigned, Assignment.cell?_grow] using ha
  · exact Or.inr ⟨by omega, by omega, hd⟩

/-! ## Restricting decisions -/

/-- A variable is put into the heap if it may be decided and taken out if not; the others that may
be decided stay. -/
theorem WellFormed.restoreOrDelete {o : DecisionOrder γ} {n v : Nat} (h : o.WellFormed n)
    (hv : v ≠ 0) :
    (o.modifyHeap fun heap =>
        if o.isDecision v then heap.restore v else heap.delete v).WellFormed n ∧
      ∀ k, k < n → o.isDecision k = true → (k = v ∨ o.heap.contains k = true) →
        (o.modifyHeap fun heap =>
          if o.isDecision v then heap.restore v else heap.delete v).heap.contains k = true := by
  by_cases hd : o.isDecision v = true
  · obtain ⟨hval, hnum, hcon⟩ := h.valid.restore v
    simp only [hd, if_true]
    refine ⟨⟨hval, hnum.trans h.numKeys, ?_⟩, fun k hk _ hor => ?_⟩
    · show (o.heap.restore v).contains 0 = false
      rw [hcon, h.zero, beq_eq_false_iff_ne.mpr (Ne.symm hv)]
      rfl
    · show (o.heap.restore v).contains k = true
      rw [hcon, h.numKeys]
      rcases hor with rfl | hor
      · simp [hk]
      · rw [hor, Bool.true_or]
  · obtain ⟨hval, hnum, hcon⟩ := h.valid.delete v
    simp only [hd]
    refine ⟨⟨hval, hnum.trans h.numKeys, ?_⟩, fun k _ hdk hor => ?_⟩
    · show (o.heap.delete v).contains 0 = false
      rw [hcon, h.zero, Bool.false_and]
    · have hkv : k ≠ v := by
        rintro rfl
        exact hd hdk
      show (o.heap.delete v).contains k = true
      rw [hcon, hor.resolve_left hkv]
      simpa using hkv

/-- What was seen to is in the heap if it may be decided, and nothing takes it out again. -/
theorem WellFormed.restoreAll_of {o : DecisionOrder γ} {n : Nat} (h : o.WellFormed n)
    {vs : List Nat} (hvs : ∀ v ∈ vs, v ≠ 0) :
    let r := vs.foldl (fun o v =>
      let isDecision := o.isDecision v
      o.modifyHeap fun heap => if isDecision then heap.restore v else heap.delete v) o
    r.WellFormed n ∧ r.allowed = o.allowed ∧ ∀ k, k < n → o.isDecision k = true →
      (k ∈ vs ∨ o.heap.contains k = true) → r.heap.contains k = true := by
  induction vs generalizing o with
  | nil => exact ⟨h, rfl, fun k _ _ hk => hk.resolve_left List.not_mem_nil⟩
  | cons v vs ih =>
    obtain ⟨hv, hvs⟩ := List.forall_mem_cons.mp hvs
    obtain ⟨hw, hcontains⟩ := h.restoreOrDelete hv
    obtain ⟨hr, hallowed, hrest⟩ := ih hw hvs
    refine ⟨hr, hallowed, fun k hk hd hor => hrest k hk hd ?_⟩
    rcases hor with hor | hor
    · exact (List.mem_cons.mp hor).symm.imp_right fun heq => hcontains k hk hd (Or.inl heq)
    · exact Or.inr (hcontains k hk hd (Or.inr hor))

theorem WellFormed.restoreAll {o : DecisionOrder γ} {n : Nat} (h : o.WellFormed n) :
    o.restoreAll.WellFormed n ∧ o.restoreAll.allowed = o.allowed ∧
      ∀ v, v < n → o.isDecision v = true → o.restoreAll.heap.contains v = true := by
  have hnumKeys := h.numKeys
  have hvs : ∀ v ∈ List.range' 1 (o.heap.numKeys - 1), v ≠ 0 := by
    intro v hv
    have := (List.mem_range'_1.mp hv).1
    omega
  obtain ⟨hr, hallowed, hrest⟩ := h.restoreAll_of hvs
  refine ⟨hr, hallowed, fun v hv hd => hrest v hv hd (Or.inl ?_)⟩
  have hz : v ≠ 0 := by
    rintro rfl
    cases hd
  rw [List.mem_range'_1]
  omega

theorem WellFormed.restrictTo {o : DecisionOrder γ} {n : Nat} (h : o.WellFormed n)
    (vs : Option (List Nat)) (a : Assignment) :
    (o.restrictTo vs).WellFormed n ∧ (o.restrictTo vs).Offers a := by
  have hw : ({ o with allowed := vs.map (allowedTable o.heap.numKeys) } :
      DecisionOrder γ).WellFormed
      n := ⟨h.valid, h.numKeys, h.zero⟩
  obtain ⟨hr, hallowed, hcon⟩ := hw.restoreAll
  refine ⟨hr, fun v hv hd _ => ?_⟩
  have hnumKeys : (o.restrictTo vs).heap.numKeys = n := hr.numKeys
  rw [hnumKeys] at hv
  exact hcon v hv ((isDecision_congr hallowed v).symm.trans hd)

/-! ## Decisions -/

theorem popUnassigned_spec (a : Assignment) (fuel : Nat) {heap : PriorityHeap Float}
    (hv : heap.Valid) {v? : Option Nat} {heap' : PriorityHeap Float}
    (h : popUnassigned a fuel heap = (v?, heap')) :
    heap'.Valid ∧ heap'.numKeys = heap.numKeys ∧
      (∀ k, heap'.contains k = true → heap.contains k = true) ∧
      (∀ v ∈ v?, heap.contains v = true) ∧
      (∀ k, heap.contains k = true → a.isAssigned k = false → k ∉ v? →
        heap'.contains k = true) := by
  induction fuel generalizing heap with
  | zero =>
    cases h
    exact ⟨hv, rfl, fun _ hk => hk, fun v hv => (by cases hv), fun _ hk _ _ => hk⟩
  | succ fuel ih =>
    unfold popUnassigned at h
    split at h
    · cases h
      exact ⟨hv, rfl, fun _ hk => hk, fun v hv => (by cases hv), fun _ hk _ _ => hk⟩
    · rename_i v hpeek
      obtain ⟨hval, hnum, hcon⟩ := hv.delete v
      have hkept : ∀ k, (heap.delete v).contains k = true → heap.contains k = true := by
        intro k hk
        rw [hcon] at hk
        exact (Bool.and_eq_true_iff.mp hk).1
      split at h
      · rename_i hassigned
        obtain ⟨hval', hnum', hsub, hsome, hrest⟩ := ih hval h
        refine ⟨hval', hnum'.trans hnum, fun k hk => hkept k (hsub k hk),
          fun w hw => hkept w (hsome w hw), fun k hk hka hne => hrest k ?_ hka hne⟩
        have hkv : k ≠ v := by
          rintro rfl
          rw [hka] at hassigned
          cases hassigned
        rw [hcon, hk]
        simpa using hkv
      · cases h
        refine ⟨hval, hnum, hkept, ?_, ?_⟩
        · rintro w hw
          cases hw
          exact hv.contains_of_peek? hpeek
        · intro k hk _ hne
          have hkv : k ≠ v := by
            rintro rfl
            exact hne rfl
          rw [hcon, hk]
          simpa using hkv

theorem popUnassigned_none (a : Assignment) (fuel : Nat) {heap : PriorityHeap Float}
    (hv : heap.Valid) (hfuel : heap.size ≤ fuel) {heap' : PriorityHeap Float}
    (h : popUnassigned a fuel heap = (none, heap')) (k : Nat) (hk : heap.contains k = true) :
    a.isAssigned k = true := by
  induction fuel generalizing heap with
  | zero =>
    rw [PriorityHeap.contains_of_size_eq_zero (by omega)] at hk
    cases hk
  | succ fuel ih =>
    unfold popUnassigned at h
    split at h
    · rename_i hpeek
      rw [PriorityHeap.contains_of_size_eq_zero (hv.size_of_peek? hpeek)] at hk
      cases hk
    · rename_i v hpeek
      obtain ⟨hval, hnum, hcon⟩ := hv.delete v
      split at h
      · rename_i hassigned
        by_cases hkv : k = v
        · rw [hkv]
          exact hassigned
        · have hsize := hv.size_delete_of_peek? hpeek
          refine ih hval (by omega) h ?_
          rw [hcon, hk]
          simpa using hkv
      · cases h

/-- A decision is about a variable that has a cell; what is unassigned apart from it stays in the
heap. -/
structure Decided (o : DecisionOrder γ) (n : Nat) (a : Assignment) (l : Literal)
    (o' : DecisionOrder γ) : Prop where
  wellFormed : o'.WellFormed n
  allowed : o'.allowed = o.allowed
  var_ne_zero : l.var ≠ 0
  var_lt : l.var < n
  contains : ∀ k, o.heap.contains k = true → a.isAssigned k = false → k ≠ l.var →
    o'.heap.contains k = true

variable [RandomSource γ]

theorem WellFormed.nextActive_some {o o' : DecisionOrder γ} {n : Nat} (h : o.WellFormed n)
    {a : Assignment} {l : Literal} (hrun : o.nextActive a = (some l, o')) :
    o.Decided n a l o' := by
  obtain ⟨heap, increment, decayFactor, randomFrequency, generator, allowed, phase⟩ := o
  cases hp : popUnassigned a heap.size heap with
  | mk v? heap' =>
    obtain ⟨hval, hnum, hsub, hsome, hrest⟩ := popUnassigned_spec a heap.size h.valid hp
    simp only [nextActive, hp] at hrun
    cases v? with
    | none => simp at hrun
    | some v =>
      simp only [Prod.mk.injEq, Option.some.injEq] at hrun
      obtain ⟨rfl, rfl⟩ := hrun
      have hv : heap.contains v = true := hsome v rfl
      have hvar := Phase.var_select v phase
      refine ⟨⟨hval, hnum.trans h.numKeys, ?_⟩, rfl, ?_, ?_, ?_⟩
      · by_contra hz
        have := h.zero
        rw [hsub 0 (by simpa using hz)] at this
        cases this
      · rw [hvar]
        rintro rfl
        have := h.zero
        rw [hv] at this
        cases this
      · rw [hvar]
        exact h.numKeys ▸ h.valid.lt_of_contains hv
      · intro k hk hka hne
        rw [hvar] at hne
        refine hrest k hk hka fun hmem => hne ?_
        cases hmem
        rfl

theorem WellFormed.nextActive_none {o o' : DecisionOrder γ} {n : Nat} (h : o.WellFormed n)
    {a : Assignment} (hrun : o.nextActive a = (none, o')) :
    o'.WellFormed n ∧ o'.allowed = o.allowed ∧
      (∀ k, o.heap.contains k = true → a.isAssigned k = true) := by
  obtain ⟨heap, increment, decayFactor, randomFrequency, generator, allowed, phase⟩ := o
  cases hp : popUnassigned a heap.size heap with
  | mk v? heap' =>
    obtain ⟨hval, hnum, hsub, -, -⟩ := popUnassigned_spec a heap.size h.valid hp
    simp only [nextActive, hp] at hrun
    cases v? with
    | some v => simp at hrun
    | none =>
      cases hrun
      refine ⟨⟨hval, hnum.trans h.numKeys, ?_⟩, rfl,
        popUnassigned_none a heap.size h.valid (Nat.le_refl _) hp⟩
      by_contra hz
      have := h.zero
      rw [hsub 0 (by simpa using hz)] at this
      cases this

theorem drawVariable?_heap (o : DecisionOrder γ) :
    o.drawVariable?.2.heap = o.heap ∧ o.drawVariable?.2.allowed = o.allowed ∧
      ∀ v ∈ o.drawVariable?.1, v < o.heap.numKeys := by
  obtain ⟨heap, increment, decayFactor, randomFrequency, generator, allowed, phase⟩ := o
  simp only [drawVariable?]
  split
  · rename_i hdraw
    generalize (if randomFrequency < 1 then randomFrequency else 1) = p
    split
    · refine ⟨rfl, rfl, ?_⟩
      rintro v hv
      cases hv
      exact (RandomSource.index_mem hdraw.2 _).2
    · exact ⟨rfl, rfl, fun v hv => by cases hv⟩
  · exact ⟨rfl, rfl, fun v hv => by cases hv⟩

theorem nextDecision_some {o o' : DecisionOrder γ} {n : Nat} (h : o.WellFormed n) {a : Assignment}
    {l : Literal} (hrun : o.nextDecision a = (some l, o')) : o.Decided n a l o' := by
  obtain ⟨hheap, hallowed, hlt⟩ := drawVariable?_heap o
  unfold nextDecision at hrun
  split at hrun
  · rename_i v o₁ hdraw
    rw [hdraw] at hheap hallowed hlt
    have h₁ : o₁.WellFormed n := ⟨hheap ▸ h.valid, hheap ▸ h.numKeys, hheap ▸ h.zero⟩
    split at hrun
    · rename_i hv
      simp only [Bool.and_eq_true, Bool.not_eq_true'] at hv
      simp only [Prod.mk.injEq, Option.some.injEq] at hrun
      obtain ⟨rfl, rfl⟩ := hrun
      have hvar : (o₁.select v).1.var = v := Phase.var_select v o₁.phase
      refine ⟨⟨h₁.valid, h₁.numKeys, h₁.zero⟩, hallowed, ?_, ?_, fun k hk _ _ => ?_⟩
      · rw [hvar]
        rintro rfl
        cases hv.2
      · rw [hvar]
        exact h.numKeys ▸ hlt v rfl
      · show o₁.heap.contains k = true
        rw [hheap]
        exact hk
    · have hd := h₁.nextActive_some hrun
      exact ⟨hd.wellFormed, hd.allowed.trans hallowed, hd.var_ne_zero, hd.var_lt,
        fun k hk => hd.contains k (hheap ▸ hk)⟩
  · rename_i o₁ hdraw
    rw [hdraw] at hheap hallowed
    have h₁ : o₁.WellFormed n := ⟨hheap ▸ h.valid, hheap ▸ h.numKeys, hheap ▸ h.zero⟩
    have hd := h₁.nextActive_some hrun
    exact ⟨hd.wellFormed, hd.allowed.trans hallowed, hd.var_ne_zero, hd.var_lt,
      fun k hk => hd.contains k (hheap ▸ hk)⟩

theorem nextDecision_none {o o' : DecisionOrder γ} {n : Nat} (h : o.WellFormed n) {a : Assignment}
    (hrun : o.nextDecision a = (none, o')) :
    o'.WellFormed n ∧ o'.allowed = o.allowed ∧
      (o.Offers a → ∀ v, v < n → o.isDecision v = true → a.isAssigned v = true) := by
  obtain ⟨hheap, hallowed, -⟩ := drawVariable?_heap o
  have hactive : ∀ o₁ : DecisionOrder γ, o₁.heap = o.heap → o₁.allowed = o.allowed →
      o₁.nextActive a = (none, o') → o'.WellFormed n ∧ o'.allowed = o.allowed ∧
      (o.Offers a → ∀ v, v < n → o.isDecision v = true → a.isAssigned v = true) := by
    intro o₁ hheap hallowed hrun
    have h₁ : o₁.WellFormed n := ⟨hheap ▸ h.valid, hheap ▸ h.numKeys, hheap ▸ h.zero⟩
    obtain ⟨hw, ha, hall⟩ := h₁.nextActive_none hrun
    refine ⟨hw, ha.trans hallowed, fun ho v hv hd => ?_⟩
    by_contra hva
    exact hva (hall v (hheap ▸ ho v (h.numKeys ▸ hv) hd (by simpa using hva)))
  unfold nextDecision at hrun
  split at hrun
  · rename_i v o₁ hdraw
    rw [hdraw] at hheap hallowed
    split at hrun
    · cases hrun
    · exact hactive o₁ hheap hallowed hrun
  · rename_i o₁ hdraw
    rw [hdraw] at hheap hallowed
    exact hactive o₁ hheap hallowed hrun

end ClauseLearning.DecisionOrder
