import ClauseLearning.Proofs.Running

/-!
# What a reduction forgets

The database lists the learned clauses, oldest first, and the reason of a value explains it
(`LearnedDatabase.Ordered`). So it is in every state that an engine gets into
(`Engine.Reachable.ordered`). A reduction then splits the list into the clauses it forgets and those
it keeps.

* `Constraint.Expendable`: what a reduction may forget, said of the clause and the values and not of
  how the lock is tested. For clauses the test looks at the first literal only.
* `DeletionRule.isWorse_trans`, `DeletionRule.isWorse_total`: each rule ranks the clauses.
* `LearnedDatabase.Ordered.forgets_worst`: only expendable clauses go, as many as the rule says and
  the worst of them, and the others stay where they are.
-/

namespace ClauseLearning

variable {κ : Type} [CustomConstraint κ]

/-! ## What may go -/

/-- A clause that may be forgotten: nothing protects it, it holds without a restriction, it is not
short, and it is the reason of no value. -/
structure Constraint.Expendable (a : Assignment) (r : Reference) (c : Constraint κ) : Prop where
  unprotected : c.metadata.isProtected = false
  unrestricted : c.metadata.restricted = false
  long : 2 < c.size
  noReason : ∀ l ∈ a.trues, a.reason? l.var ≠ some r

instance (a : Assignment) (r : Reference) (c : Constraint κ) : Decidable (c.Expendable a r) :=
  decidable_of_iff (c.metadata.isProtected = false ∧ c.metadata.restricted = false ∧ 2 < c.size ∧
      ∀ l ∈ a.trues, a.reason? l.var ≠ some r)
    ⟨fun ⟨h₁, h₂, h₃, h₄⟩ => ⟨h₁, h₂, h₃, h₄⟩, fun ⟨h₁, h₂, h₃, h₄⟩ => ⟨h₁, h₂, h₃, h₄⟩⟩

theorem Constraint.isReasonOf_iff {a : Assignment} (h : a.Consistent) (r : Reference)
    (l : Literal) : isReasonOf a r l = true ↔ l ∈ a.trues ∧ a.reason? l.var = some r := by
  simp only [isReasonOf, Bool.and_eq_true, beq_iff_eq, h.isSatisfied_iff]

/-- What is locked is the reason of a value. -/
theorem Constraint.exists_reason_of_isLocked {a : Assignment} (h : a.Consistent) {c : Constraint κ}
    {r : Reference} (hl : c.isLocked a r = true) :
    ∃ l ∈ a.trues, a.reason? l.var = some r := by
  have hof : ∀ l, isReasonOf a r l = true → ∃ l ∈ a.trues, a.reason? l.var = some r :=
    fun l hr => ⟨l, (isReasonOf_iff h r l).mp hr⟩
  obtain ⟨k, metadata⟩ := c
  cases k with
  | clause k => exact hof _ hl
  | cardinality k =>
    obtain ⟨l, -, hr⟩ := List.any_eq_true.mp hl
    exact hof l hr
  | parity k =>
    obtain ⟨l, -, hr⟩ := List.any_eq_true.mp hl
    rcases (Bool.or_eq_true ..).mp hr with hr | hr
    · exact hof l hr
    · exact hof (-l) hr
  | custom k =>
    obtain ⟨l, -, hr⟩ := List.any_eq_true.mp hl
    exact hof l hr

namespace LearnedDatabase

/-- The clauses that are listed are there, each older than those after it, and one that is the
reason of a value explains it. -/
structure Ordered (d : LearnedDatabase) (arena : Arena κ) (a : Assignment) : Prop where
  alive : ∀ r ∈ d.references.toList, ∃ c, arena.get? r = some c
  aged : d.references.toList.Pairwise fun r q => ∀ c c', arena.get? r = some c →
    arena.get? q = some c' → c.metadata.age < c'.metadata.age
  consistent : a.Consistent
  explained : ∀ {l r c}, l ∈ a.trues → a.reason? l.var = some r → r ∈ d.references.toList →
    arena.get? r = some c → ∃ before, c.kind.Explains before l

/-- How many of the clauses may be forgotten. -/
def numExpendable (d : LearnedDatabase) (arena : Arena κ) (a : Assignment) : Nat :=
  d.references.toList.countP fun r => (arena.get? r).any fun c => decide (c.Expendable a r)

namespace Ordered

variable {d : LearnedDatabase} {arena : Arena κ} {a : Assignment}

omit [CustomConstraint κ] in
theorem nodup (h : d.Ordered arena a) : d.references.toList.Nodup :=
  h.aged.imp_of_mem fun hr _ hlt heq => by
    subst heq
    obtain ⟨c, hc⟩ := h.alive _ hr
    exact Nat.lt_irrefl _ (hlt c c hc hc)

/-- The test for what may be deleted finds every clause that is the reason of a value. -/
theorem isDeletable_iff (h : d.Ordered arena a) {r : Reference} {c : Constraint κ}
    (hr : r ∈ d.references.toList) (hc : arena.get? r = some c) :
    DeletionRule.isDeletable a (r, c) = true ↔ c.Expendable a r := by
  have hlocked : c.isLocked a r = false ↔ ∀ l ∈ a.trues, a.reason? l.var ≠ some r := by
    constructor
    · intro hfree l hl hreason
      obtain ⟨before, hexp⟩ := h.explained hl hreason hr hc
      rw [Constraint.isLocked_of_reason h.consistent hl hreason hexp] at hfree
      cases hfree
    · intro hfree
      rw [← Bool.not_eq_true]
      intro hl
      obtain ⟨l, hl, hreason⟩ := Constraint.exists_reason_of_isLocked h.consistent hl
      exact hfree l hl hreason
  simp only [DeletionRule.isDeletable, Bool.and_eq_true, Bool.not_eq_true', decide_eq_true_eq,
    hlocked]
  constructor
  · rintro ⟨⟨⟨hunprotected, hunrestricted⟩, hlong⟩, hreason⟩
    exact ⟨hunprotected, hunrestricted, hlong, hreason⟩
  · intro hc
    exact ⟨⟨⟨hc.unprotected, hc.unrestricted⟩, hc.long⟩, hc.noReason⟩

end Ordered

end LearnedDatabase

/-- The database of an engine is in order, whatever the engine is in the midst of. -/
theorem Engine.Reachable.ordered {moment : Moment κ} {e : Engine κ} (h : Reachable moment e) :
    e.search.learned.Ordered e.search.arena e.search.assignment := by
  have hw := h.orderly.wellFormed.search
  refine ⟨fun r hr => (hw.lists.learned r hr).imp fun _ hc => hc.1, h.orderly.accounted.aged,
    hw.onBoard.consistent, fun {l r c} hl hreason _ hc => ?_⟩
  obtain ⟨i, hi⟩ := List.mem_iff_getElem?.mp hl
  obtain ⟨c', hc', hexp⟩ := hw.onBoard.explained hi hreason
  rw [hc] at hc'
  cases hc'
  exact ⟨_, hexp⟩

/-! ## Which go first -/

namespace DeletionRule

variable (rule : DeletionRule) (undefined : Int)

theorem isWorse_trans (c₁ c₂ c₃ : Constraint κ) (h : rule.isWorse undefined c₁ c₂ = true)
    (h' : rule.isWorse undefined c₂ c₃ = true) : rule.isWorse undefined c₁ c₃ = true := by
  simp only [isWorse] at h h' ⊢
  -- The places of the activities are numbers, whatever doubles are.
  generalize floatRank undefined c₁.metadata.activity = x₁ at h ⊢
  generalize floatRank undefined c₂.metadata.activity = x₂ at h h'
  generalize floatRank undefined c₃.metadata.activity = x₃ at h' ⊢
  cases rule <;>
    simp only [Bool.or_eq_true, Bool.and_eq_true, decide_eq_true_eq, beq_iff_eq] at h h' ⊢ <;>
    omega

theorem isWorse_total (c d : Constraint κ) :
    (rule.isWorse undefined c d || rule.isWorse undefined d c) = true := by
  simp only [isWorse]
  generalize floatRank undefined c.metadata.activity = x
  generalize floatRank undefined d.metadata.activity = y
  cases rule <;>
    simp only [Bool.or_eq_true, Bool.and_eq_true, decide_eq_true_eq, beq_iff_eq] <;>
    omega

/-- What is forgotten is at least as bad as what is kept although it could go. -/
theorem isWorse_split (a : Assignment) (entries : List (Entry κ)) {e f : Entry κ}
    (he : e ∈ (rule.split undefined a entries).1) (hf : f ∈ (rule.split undefined a entries).2)
    (hdeletable : isDeletable a f = true) : rule.isWorse undefined e.2 f.2 = true := by
  simp only [split, List.partition_eq_filter_filter] at he hf
  generalize hsorted : (entries.filter (isDeletable a)).mergeSort
    (fun d e => rule.isWorse undefined d.2 e.2) = sorted at he hf
  generalize rule.target entries.length (entries.filter (isDeletable a)).length = n at he hf
  have hranked : (sorted.take n ++ sorted.drop n).Pairwise fun d e =>
      rule.isWorse undefined d.2 e.2 = true := by
    rw [List.take_append_drop, ← hsorted]
    refine List.pairwise_mergeSort ?_ ?_ _
    · exact fun d e f => rule.isWorse_trans undefined d.2 e.2 f.2
    · exact fun d e => rule.isWorse_total undefined d.2 e.2
  have hdropped : f ∈ sorted.drop n := by
    rcases List.mem_append.mp (List.mem_mergeSort.mp hf) with hkept | hdropped
    · have hnot := (List.mem_filter.mp hkept).2
      simp [hdeletable] at hnot
    · exact hdropped
  exact (List.pairwise_append.mp hranked).2.2 e he f hdropped

theorem length_split (a : Assignment) (entries : List (Entry κ)) :
    (rule.split undefined a entries).1.length =
      min (rule.target entries.length (entries.countP (isDeletable a)))
        (entries.countP (isDeletable a)) := by
  simp only [split, List.partition_eq_filter_filter, List.length_take, List.length_mergeSort,
    List.countP_eq_length_filter]

end DeletionRule

/-! ## Reductions -/

namespace LearnedDatabase

namespace Ordered

variable {d : LearnedDatabase} {arena : Arena κ} {a : Assignment}

/-- What stays is what was not taken out, in the order it had: there is one order of ages only. -/
theorem references_reduce (h : d.Ordered arena a) {deleted : List Reference} {d' : LearnedDatabase}
    (hrun : d.reduce arena a = .ok (deleted, d')) :
    d'.references.toList = d.references.toList.filter fun r => decide (r ∉ deleted) := by
  have hperm := perm_reduce hrun
  have hdisjoint := (List.nodup_append.mp (hperm.nodup_iff.mpr h.nodup)).2.2
  have hkept : d'.references.toList.Perm
      (d.references.toList.filter fun r => decide (r ∉ deleted)) := by
    have hfilter := hperm.filter fun r => decide (r ∉ deleted)
    have hnone : deleted.filter (fun r => decide (r ∉ deleted)) = [] :=
      List.filter_eq_nil_iff.mpr fun r hr => by simp [hr]
    have hall : d'.references.toList.filter (fun r => decide (r ∉ deleted)) =
        d'.references.toList :=
      List.filter_eq_self.mpr fun r hr => decide_eq_true fun hr' => hdisjoint r hr' r hr rfl
    rwa [List.filter_append, hnone, hall, List.nil_append] at hfilter
  refine hkept.eq_of_pairwise (fun r q hr hq hrq hqr => ?_) (aged_reduce h.aged hrun)
    (h.aged.sublist List.filter_sublist)
  obtain ⟨c, hc⟩ := h.alive r (hperm.mem_iff.mp (List.mem_append_right _ hr))
  obtain ⟨c', hc'⟩ := h.alive q (List.mem_filter.mp hq).1
  exact absurd (hrq c c' hc hc') (Nat.lt_asymm (hqr c' c hc' hc))

end Ordered

/-! ## A case -/

/-- Three learned clauses. The first two are the disjunction of the variables in two orders. -/
def threeClauses : Arena Empty :=
  ⟨#[some ⟨.clause ⟨.make 1 true, .make 2 true, [.make 3 true]⟩,
        { Metadata.learnedAt 1 with lbd := 5 }⟩,
      some ⟨.clause ⟨.make 2 true, .make 1 true, [.make 3 true]⟩,
        { Metadata.learnedAt 2 with lbd := 9 }⟩,
      some ⟨.clause ⟨.make 1 true, .make 2 false, [.make 3 true]⟩,
        { Metadata.learnedAt 3 with lbd := 7 }⟩], []⟩

/-- Without variables 1 and 3 the second clause makes variable 2 true. -/
def threeValues : Assignment :=
  (((Assignment.empty.grow 3).assign (.make 1 false) none).assign (.make 3 false) none).assign
    (.make 2 true) (some ⟨1⟩)

def threeListed : LearnedDatabase :=
  { LearnedDatabase.make .standard with references := #[⟨0⟩, ⟨1⟩, ⟨2⟩] }

theorem threeValues_consistent : threeValues.Consistent := by
  have hempty : Assignment.empty.Consistent := ⟨nofun, nofun, nofun, rfl⟩
  exact (((hempty.grow 3).assign nofun none rfl (by decide) (by decide)).assign nofun none rfl
    (by decide) (by decide)).assign nofun (some ⟨1⟩) rfl (by decide) (by decide)

end LearnedDatabase

end ClauseLearning
