import ClauseLearning.Engine.State
import ClauseLearning.Proofs.Decisions
import ClauseLearning.Proofs.Visiting

/-!
# The invariant of the state

The board and the arena belong together (`Arena.OnBoard`): every constraint that is alive has its
watchers in the lists and nothing else has, every value with a reason is explained by it, and the
reports that a constraint counted are those it asked to take back. A state is well formed when this
holds up to the head of the trail, and when the tables around it fit (`SearchState.WellFormed`).

* `Watches.length_notified_le`, `Watches.length_notified_eq`: counted reports are false literals.
* `Arena.OnBoard.numUndos_eq_zero`: nobody was told of what was not notified of.
-/

namespace ClauseLearning

variable {κ : Type}

/-- What a constraint is remembered as, apart from its activity and its block distance. -/
structure Metadata.Similar (m m' : Metadata) : Prop where
  learned : m'.learned = m.learned
  age : m'.age = m.age
  restricted : m'.restricted = m.restricted
  handle : m'.handle = m.handle

theorem Metadata.Similar.refl (m : Metadata) : m.Similar m := ⟨rfl, rfl, rfl, rfl⟩

theorem Metadata.Similar.trans {m₁ m₂ m₃ : Metadata} (h : m₁.Similar m₂) (h' : m₂.Similar m₃) :
    m₁.Similar m₃ :=
  ⟨h'.learned.trans h.learned, h'.age.trans h.age, h'.restricted.trans h.restricted,
    h'.handle.trans h.handle⟩

/-! ## Slots -/

namespace Arena

theorem isAlive_iff {s : Arena κ} {r : Reference} : s.isAlive r = true ↔ ∃ c, s.get? r = some c :=
  Option.isSome_iff_exists

theorem get_eq_ok {s : Arena κ} {r : Reference} {c : Constraint κ} :
    s.get r = .ok c ↔ s.get? r = some c := by
  unfold get
  cases s.get? r with
  | none => simp
  | some d => simp

theorem slot_lt {s : Arena κ} {r : Reference} {c : Constraint κ} (h : s.get? r = some c) :
    r.slot < s.slots.size := by
  by_contra hlt
  simp [get?, Array.getElem?_eq_none (Nat.le_of_not_lt hlt)] at h

theorem get?_set {s : Arena κ} {r : Reference} {c₀ : Constraint κ} (h : s.get? r = some c₀)
    (c : Constraint κ) (q : Reference) :
    (s.set r c).get? q = if q = r then some c else s.get? q := by
  by_cases hq : q = r
  · rw [if_pos hq, hq]
    exact get?_set_self s r c (isAlive_iff.mpr ⟨c₀, h⟩)
  · rw [if_neg hq]
    exact get?_set_of_ne s c fun h => hq h.symm

/-- One constraint is replaced by something that is related to it, all others stay. -/
theorem exists_get?_set {s : Arena κ} {r : Reference} {c c' : Constraint κ} (hc : s.get? r = some c)
    {P : Constraint κ → Constraint κ → Prop} (hnew : P c c') (hrefl : ∀ d, P d d) {q : Reference}
    {d : Constraint κ} (hd : s.get? q = some d) : ∃ d', (s.set r c').get? q = some d' ∧ P d d' := by
  rw [get?_set hc]
  by_cases hq : q = r
  · subst hq
    rw [hc] at hd
    cases hd
    exact ⟨c', if_pos rfl, hnew⟩
  · exact ⟨d, (if_neg hq).trans hd, hrefl d⟩

theorem get?_set_eq_none {s : Arena κ} {r : Reference} {c : Constraint κ} (hc : s.get? r = some c)
    (c' : Constraint κ) {q : Reference} (hq : s.get? q = none) : (s.set r c').get? q = none := by
  rw [get?_set hc, if_neg]
  · exact hq
  · rintro rfl
    rw [hc] at hq
    cases hq

/-- The free list names empty slots, each once. -/
structure Tidy (s : Arena κ) : Prop where
  nodup : s.recycled.Nodup
  dead : ∀ r ∈ s.recycled, s.get? r = none
  lt : ∀ r ∈ s.recycled, r.slot < s.slots.size

/-- The same constraints are in the same slots, up to the order of their literals. -/
structure Agree (s s' : Arena κ) : Prop where
  alive : ∀ {r c}, s.get? r = some c →
    ∃ c', s'.get? r = some c' ∧ c.kind.Similar c'.kind ∧ c.metadata.Similar c'.metadata
  dead : ∀ {r}, s.get? r = none → s'.get? r = none
  recycled : s'.recycled = s.recycled
  size : s'.slots.size = s.slots.size

namespace Agree

theorem refl (s : Arena κ) : s.Agree s :=
  ⟨fun {_ c} hc => ⟨c, hc, .refl _, .refl _⟩, fun h => h, rfl, rfl⟩

theorem trans {s₁ s₂ s₃ : Arena κ} (h : s₁.Agree s₂) (h' : s₂.Agree s₃) : s₁.Agree s₃ := by
  refine ⟨fun {r c} hc => ?_, fun hd => h'.dead (h.dead hd), h'.recycled.trans h.recycled,
    h'.size.trans h.size⟩
  obtain ⟨c₂, hc₂, hk, hm⟩ := h.alive hc
  obtain ⟨c₃, hc₃, hk', hm'⟩ := h'.alive hc₂
  exact ⟨c₃, hc₃, hk.trans hk', hm.trans hm'⟩

theorem set {s : Arena κ} {r : Reference} {c c' : Constraint κ} (hc : s.get? r = some c)
    (hk : c.kind.Similar c'.kind) (hm : c.metadata.Similar c'.metadata) : s.Agree (s.set r c') where
  alive := exists_get?_set hc
    (P := fun d d' => d.kind.Similar d'.kind ∧ d.metadata.Similar d'.metadata) ⟨hk, hm⟩
    fun _ => ⟨.refl _, .refl _⟩
  dead := get?_set_eq_none hc c'
  recycled := rfl
  size := by simp [Arena.set]

variable {s s' : Arena κ} (h : s.Agree s')
include h

theorem of_alive {r : Reference} {c' : Constraint κ} (hc : s'.get? r = some c') :
    ∃ c, s.get? r = some c ∧ c.kind.Similar c'.kind ∧ c.metadata.Similar c'.metadata := by
  cases hr : s.get? r with
  | none =>
    rw [h.dead hr] at hc
    cases hc
  | some c =>
    obtain ⟨d, hd, hk, hm⟩ := h.alive hr
    rw [hc] at hd
    cases hd
    exact ⟨c, rfl, hk, hm⟩

theorem tidy (ht : s.Tidy) : s'.Tidy := by
  refine ⟨?_, fun r hr => ?_, fun r hr => ?_⟩
  · rw [h.recycled]
    exact ht.nodup
  · rw [h.recycled] at hr
    exact h.dead (ht.dead r hr)
  · rw [h.recycled] at hr
    rw [h.size]
    exact ht.lt r hr

end Agree

end Arena

/-- The database of learned clauses lists clauses that are alive and learned, each once. -/
structure LearnedDatabase.Lists (d : LearnedDatabase) (s : Arena κ) : Prop where
  nodup : d.references.toList.Nodup
  learned : ∀ r ∈ d.references.toList, ∃ c, s.get? r = some c ∧ c.metadata.learned = true

theorem LearnedDatabase.Lists.agree {d d' : LearnedDatabase} {s s' : Arena κ} (h : d.Lists s)
    (hd : d'.references = d.references) (hs : s.Agree s') : d'.Lists s' := by
  refine ⟨by rw [hd]; exact h.nodup, fun r hr => ?_⟩
  rw [hd] at hr
  obtain ⟨c, hc, hl⟩ := h.learned r hr
  obtain ⟨c', hc', -, hm⟩ := hs.alive hc
  exact ⟨c', hc', hm.learned.trans hl⟩

/-! ## Reports -/

namespace Watches

/-- The variables of the false literals, each as often as it occurs. -/
def falseVars (trues ls : List Literal) : List Nat :=
  (ls.filter fun l => decide (-l ∈ trues)).map Literal.var

theorem length_falseVars (trues ls : List Literal) :
    (falseVars trues ls).length = numFalse trues ls := by
  rw [falseVars, List.length_map, numFalse, List.countP_eq_length_filter]

theorem count_falseVars {trues : List Literal} (ht : Functional trues) {x : Literal}
    (hx : x ∈ trues) (ls : List Literal) : (falseVars trues ls).count x.var = ls.count (-x) := by
  induction ls with
  | nil => rfl
  | cons l ls ih =>
    unfold falseVars at ih ⊢
    rw [List.filter_cons]
    by_cases hl : -l ∈ trues
    · rw [if_pos (decide_eq_true hl), List.map_cons, List.count_cons, List.count_cons, ih]
      congr 1
      have hiff : l.var = x.var ↔ l = -x := by
        constructor
        · intro hv
          rw [ht x hx (-l) hl (by rw [Literal.var_negate, hv]), Literal.negate_negate]
        · rintro rfl
          exact Literal.var_negate x
      simp only [beq_iff_eq, hiff]
    · have hne : l ≠ -x := by
        rintro rfl
        rw [Literal.negate_negate] at hl
        exact hl hx
      rw [if_neg (by simpa using hl), ih, List.count_cons_of_ne hne]

theorem mem_falseVars {trues ls : List Literal} {v : Nat} (h : v ∈ falseVars trues ls) :
    ∃ x ∈ trues, x.var = v := by
  obtain ⟨l, hl, rfl⟩ := List.mem_map.mp h
  exact ⟨-l, by simpa using (List.mem_filter.mp hl).2, Literal.var_negate l⟩

variable {w : Watches} {r : Reference} {trues ls : List Literal}

/-- Reports that stand for false literals are not more than there are false literals. -/
theorem length_notified_le (ht : Functional trues)
    (h : ∀ v, w.numUndos v r ≠ 0 → ∃ x ∈ trues, x.var = v ∧ w.numUndos v r ≤ ls.count (-x)) :
    (w.notified r).length ≤ numFalse trues ls := by
  rw [← length_falseVars]
  apply List.Subperm.length_le
  rw [List.subperm_ext_iff]
  intro v hv
  rw [count_notified]
  by_cases hz : w.numUndos v r = 0
  · omega
  · obtain ⟨x, hx, rfl, hle⟩ := h v hz
    rw [count_falseVars ht hx]
    exact hle

/-- If every false literal was reported, there are as many reports as false literals. -/
theorem length_notified_eq (ht : Functional trues)
    (h : ∀ x ∈ trues, w.numUndos x.var r = ls.count (-x))
    (hzero : ∀ v, v ∉ trues.map Literal.var → w.numUndos v r = 0) :
    (w.notified r).length = numFalse trues ls := by
  rw [← length_falseVars]
  apply List.Perm.length_eq
  rw [List.perm_iff_count]
  intro v
  rw [count_notified]
  by_cases hv : v ∈ trues.map Literal.var
  · obtain ⟨x, hx, rfl⟩ := List.mem_map.mp hv
    rw [count_falseVars ht hx, h x hx]
  · rw [hzero v hv, eq_comm, List.count_eq_zero]
    intro hmem
    obtain ⟨x, hx, rfl⟩ := mem_falseVars hmem
    exact hv (List.mem_map.mpr ⟨x, hx, rfl⟩)

end Watches

/-! ## Board and arena -/

/-- What the board says of the constraints in the arena. The first `head` literals of the trail are
those that constraints were notified of. -/
structure Arena.OnBoard (s : Arena κ) (b : Board) (head : Nat) : Prop where
  consistent : b.assignment.Consistent
  sized : b.watches.Sized b.assignment.cells.size
  wellFormed : ∀ {r c}, s.get? r = some c → c.kind.WellFormed b.assignment.cells.size
  explained : ∀ {i l r}, b.assignment.trues[i]? = some l → b.assignment.reason? l.var = some r →
    ∃ c, s.get? r = some c ∧ c.kind.Explains (b.assignment.trues.take i) l
  watched : ∀ {r c}, s.get? r = some c → ∀ l, b.watches.numWatchers r l = c.kind.watched.count l
  entries : ∀ {l e}, e ∈ b.watches.watchersOf l →
    ∃ c, s.get? e.constraint = some c ∧ ∀ m ∈ e.blocker, c.kind.Blocks m
  counted : ∀ {r c}, s.get? r = some c → (b.watches.notified r).length = c.kind.falsified
  reported : ∀ {v r}, b.watches.numUndos v r ≠ 0 → ∃ c, s.get? r = some c ∧
    ∃ x ∈ b.assignment.trues.take head, x.var = v ∧ b.watches.numUndos v r ≤ c.kind.reports (-x)

namespace Arena.OnBoard

variable {s : Arena κ} {b : Board} {head : Nat} (h : s.OnBoard b head)
include h

theorem mono {head' : Nat} (hle : head ≤ head') : s.OnBoard b head' := by
  refine ⟨h.consistent, h.sized, h.wellFormed, h.explained, h.watched, h.entries, h.counted, ?_⟩
  intro v r hu
  obtain ⟨c, hc, x, hx, hrest⟩ := h.reported hu
  exact ⟨c, hc, x, (List.take_subset_take_left _ hle) hx, hrest⟩

/-- Constraints may be notified of the whole trail. -/
theorem full : s.OnBoard b b.assignment.trues.length := by
  refine ⟨h.consistent, h.sized, h.wellFormed, h.explained, h.watched, h.entries, h.counted, ?_⟩
  intro v r hu
  obtain ⟨c, hc, x, hx, hrest⟩ := h.reported hu
  refine ⟨c, hc, x, ?_, hrest⟩
  rw [List.take_length]
  exact List.mem_of_mem_take hx

/-- The order within the watch lists does not matter. -/
theorem of_perm {w : Watches} (hs : w.Sized b.assignment.cells.size)
    (hperm : ∀ l, (w.watchersOf l).Perm (b.watches.watchersOf l)) (hu : w.undos = b.watches.undos) :
    s.OnBoard ⟨b.assignment, w⟩ head := by
  have hundos : ∀ v r, w.numUndos v r = b.watches.numUndos v r := by
    intro v r
    simp only [Watches.numUndos, Watches.undosOf, hu]
  refine ⟨h.consistent, hs, h.wellFormed, h.explained, ?_, ?_, ?_, ?_⟩
  · intro r c hc l
    rw [← h.watched hc l]
    exact (hperm l).countP_eq _
  · intro l e he
    exact h.entries ((hperm l).mem_iff.mp he)
  · intro r c hc
    rw [← h.counted hc]
    exact (Watches.notified_perm_of_numUndos fun v => hundos v r).length_eq
  · intro v r hu'
    rw [hundos] at hu' ⊢
    exact h.reported hu'

/-- Nobody was told of a variable that was not notified of. -/
theorem numUndos_eq_zero {v : Nat} (hv : v ∉ (b.assignment.trues.take head).map Literal.var)
    (r : Reference) : b.watches.numUndos v r = 0 := by
  by_contra hu
  obtain ⟨c, -, x, hx, rfl, -⟩ := h.reported hu
  exact hv (List.mem_map.mpr ⟨x, hx, rfl⟩)

/-- Empty slots are named nowhere. -/
theorem numWatchers_of_dead {r : Reference} (hr : s.get? r = none) (l : Literal) :
    b.watches.numWatchers r l = 0 := by
  rw [Watches.numWatchers, List.countP_eq_zero]
  intro e he
  obtain ⟨c, hc, -⟩ := h.entries he
  simp only [decide_eq_true_eq]
  rintro rfl
  rw [hr] at hc
  cases hc

theorem numUndos_of_dead {r : Reference} (hr : s.get? r = none) (v : Nat) :
    b.watches.numUndos v r = 0 := by
  by_contra hu
  obtain ⟨c, hc, -⟩ := h.reported hu
  rw [hr] at hc
  cases hc

end Arena.OnBoard

/-! ## States -/

/-- Everything that was notified of is counted and explained, and the tables fit each other. -/
structure SearchState.WellFormed (s : SearchState κ) : Prop where
  onBoard : s.arena.OnBoard s.board s.head
  layered : s.assignment.Layered
  head_le : s.head ≤ s.assignment.trues.length
  starts_le : ∀ m ∈ s.assignment.levelStarts.toList, m ≤ s.head
  tidy : s.arena.Tidy
  lists : s.learned.Lists s.arena
  order : s.order.WellFormed s.assignment.cells.size
  offers : s.order.Offers s.assignment

end ClauseLearning
