import ClauseLearning.Conflict.Analysis
import ClauseLearning.Proofs.Deletion

/-!
# Resolution along the trail

The literals that an analysis has marked are a clause that follows from the constraints: those from
lower levels are listed, those of the current level are found on the trail, and every step replaces
the newest of these by its reason. When one literal of the current level is left, the clause is the
one to learn.

* `Resolution.Marks`: what the marks stand for, while the trail is walked down.
* `Resolution.Refutes`: the marked literals make a clause that a model satisfies.
* `Resolution.descend_spec`: the clause that is left.
* `Assignment.Driven`, `Resolution.descend_total`: levels begin with their decisions, so the walk
  always ends at such a clause.
-/

namespace ClauseLearning

variable {κ : Type}

/-! ## Activities do not matter -/

/-- The same constraints are in the same slots, with other activities. -/
structure Arena.Retagged (s s' : Arena κ) : Prop where
  alive : ∀ {r c}, s.get? r = some c →
    ∃ m, s'.get? r = some ⟨c.kind, m⟩ ∧ c.metadata.Similar m
  dead : ∀ {r}, s.get? r = none → s'.get? r = none
  recycled : s'.recycled = s.recycled
  size : s'.slots.size = s.slots.size

namespace Arena.Retagged

theorem refl (s : Arena κ) : s.Retagged s :=
  ⟨fun {_ c} hc => ⟨c.metadata, hc, .refl _⟩, fun h => h, rfl, rfl⟩

theorem trans {s₁ s₂ s₃ : Arena κ} (h : s₁.Retagged s₂) (h' : s₂.Retagged s₃) :
    s₁.Retagged s₃ := by
  refine ⟨fun hc => ?_, fun hd => h'.dead (h.dead hd), h'.recycled.trans h.recycled,
    h'.size.trans h.size⟩
  obtain ⟨m, hm, hs⟩ := h.alive hc
  obtain ⟨m', hm', hs'⟩ := h'.alive hm
  exact ⟨m', hm', hs.trans hs'⟩

theorem set {s : Arena κ} {r : Reference} {c : Constraint κ} {m : Metadata}
    (hc : s.get? r = some c) (hm : c.metadata.Similar m) : s.Retagged (s.set r ⟨c.kind, m⟩) where
  alive := by
    intro q d hd
    obtain ⟨_, hd', m', rfl, hm'⟩ := exists_get?_set hc
      (P := fun d d' => ∃ m, d' = ⟨d.kind, m⟩ ∧ d.metadata.Similar m) ⟨m, rfl, hm⟩
      (fun d => ⟨d.metadata, rfl, .refl _⟩) hd
    exact ⟨m', hd', hm'⟩
  dead := get?_set_eq_none hc _
  recycled := rfl
  size := by simp [Arena.set]

variable {s s' : Arena κ} (h : s.Retagged s')
include h

theorem agree : s.Agree s' := by
  refine ⟨fun {_ c} hc => ?_, h.dead, h.recycled, h.size⟩
  obtain ⟨m, hm, hs⟩ := h.alive hc
  exact ⟨_, hm, .refl _, hs⟩

theorem of_alive {r : Reference} {c' : Constraint κ} (hc : s'.get? r = some c') :
    ∃ c, s.get? r = some c ∧ c'.kind = c.kind ∧ c.metadata.Similar c'.metadata := by
  obtain ⟨c, hc₀, -, -⟩ := h.agree.of_alive hc
  obtain ⟨m, hm, hs⟩ := h.alive hc₀
  rw [hc] at hm
  cases hm
  exact ⟨c, hc₀, rfl, hs⟩

theorem onBoard {b : Board} {head : Nat} (hb : s.OnBoard b head) : s'.OnBoard b head := by
  refine ⟨hb.consistent, hb.sized, fun hc => ?_, fun hl hr => ?_, fun hc l => ?_, fun he => ?_,
    fun hc => ?_, fun hu => ?_⟩
  · obtain ⟨c, hc₀, hk, -⟩ := h.of_alive hc
    rw [hk]
    exact hb.wellFormed hc₀
  · obtain ⟨c, hc, he⟩ := hb.explained hl hr
    obtain ⟨m, hm, -⟩ := h.alive hc
    exact ⟨_, hm, he⟩
  · obtain ⟨c, hc₀, hk, -⟩ := h.of_alive hc
    rw [hk]
    exact hb.watched hc₀ l
  · obtain ⟨c, hc, hblocks⟩ := hb.entries he
    obtain ⟨m, hm, -⟩ := h.alive hc
    exact ⟨_, hm, hblocks⟩
  · obtain ⟨c, hc₀, hk, -⟩ := h.of_alive hc
    rw [hk]
    exact hb.counted hc₀
  · obtain ⟨c, hc, hrest⟩ := hb.reported hu
    obtain ⟨m, hm, -⟩ := h.alive hc
    exact ⟨_, hm, hrest⟩

theorem settles {w : Watches} {trues seen : List Literal} (hs : s.Settles w trues seen) :
    s'.Settles w trues seen := by
  intro r c hc hl
  obtain ⟨c₀, hc₀, hk, hm⟩ := h.of_alive hc
  rw [hk]
  exact hs r c₀ hc₀ (hm.learned.symm.trans hl)

end Arena.Retagged

/-! ## What an analysis relies on -/

section

variable [CustomConstraint κ]

/-- Every value with a reason follows from the literals of the reason, which were false before. -/
structure Arena.Justifies (s : Arena κ) (a : Assignment) : Prop where
  consistent : a.Consistent
  reasons : ∀ {i l r}, a.trues[i]? = some l → a.reason? l.var = some r →
    ∃ c, s.get? r = some c ∧ (∀ m ∈ c.reason a (some l), -m ∈ a.trues.take i) ∧
      ∀ ν, c.kind.Holds ν → (∀ m ∈ c.reason a (some l), m.holds ν = false) → l.holds ν = true

/-- A valuation that satisfies the constraints and the root facts. -/
structure Arena.Model (s : Arena κ) (a : Assignment) (ν : Valuation) : Prop where
  holds : ∀ {r c}, s.get? r = some c → c.kind.Holds ν
  facts : ∀ l ∈ a.trues, a.levelOf l.var = 0 → l.holds ν = true

theorem Arena.OnBoard.justifies {s : Arena κ} {b : Board} {head : Nat} (h : s.OnBoard b head) :
    s.Justifies b.assignment := by
  refine ⟨h.consistent, fun hl hr => ?_⟩
  obtain ⟨c, hc, he⟩ := h.explained hl hr
  exact ⟨c, hc, Constraint.reason_of_explains h.consistent (h.wellFormed hc) hl he⟩

theorem SearchState.WellFormed.justifies {s : SearchState κ} (h : s.WellFormed) :
    s.arena.Justifies s.assignment := h.onBoard.justifies

theorem SearchState.Admits.model {s : SearchState κ} {ν : Valuation} (h : s.Admits ν)
    (hw : s.WellFormed) : s.arena.Model s.assignment ν :=
  ⟨h.holds, fun _ hl hlevel => h.root_holds hw
    (Assignment.mem_roots_of_levelOf hw.onBoard.consistent hw.layered hl hlevel)⟩

theorem Constraint.reason_congr {c d : Constraint κ} (h : c.kind = d.kind) (a : Assignment)
    (p : Option Literal) : c.reason a p = d.reason a p := by
  obtain ⟨k, m⟩ := c
  obtain ⟨k', m'⟩ := d
  subst h
  rfl

theorem Arena.Justifies.retagged {s s' : Arena κ} {a : Assignment} (h : s.Justifies a)
    (ht : s.Retagged s') : s'.Justifies a := by
  refine ⟨h.consistent, fun hl hr => ?_⟩
  obtain ⟨c, hc, hrest⟩ := h.reasons hl hr
  obtain ⟨m, hm, -⟩ := ht.alive hc
  exact ⟨_, hm, hrest⟩

omit [CustomConstraint κ] in
theorem Arena.Model.retagged {s s' : Arena κ} {a : Assignment} {ν : Valuation} (h : s.Model a ν)
    (ht : s.Retagged s') : s'.Model a ν :=
  ⟨fun hc => ht.agree.holds h.holds hc, h.facts⟩

omit [CustomConstraint κ] in
theorem Arena.Model.of_retagged {s s' : Arena κ} {a : Assignment} {ν : Valuation}
    (h : s'.Model a ν) (ht : s.Retagged s') : s.Model a ν := by
  refine ⟨fun {r c} hc => ?_, h.facts⟩
  obtain ⟨m, hm, -⟩ := ht.alive hc
  exact h.holds (c := ⟨c.kind, m⟩) hm

end

/-- Above the root, a value without a reason is the first of its level. -/
def Assignment.Driven (a : Assignment) : Prop :=
  ∀ {i l}, a.trues[i]? = some l → a.reason? l.var = none → a.levelAt i = 0 ∨
    i ∈ a.levelStarts.toList

/-- What comes before the start of a level is of a lower level. -/
theorem Assignment.levelAt_lt (a : Assignment) {i j : Nat} (hi : i ∈ a.levelStarts.toList)
    (hj : j < i) : a.levelAt j < a.levelAt i := by
  obtain ⟨front, back, hsplit⟩ := List.append_of_mem hi
  have hmono : ∀ ms : List Nat, ms.countP (fun m => decide (m ≤ j)) ≤
      ms.countP fun m => decide (m ≤ i) := by
    refine fun ms => List.countP_mono_left fun m _ hm => ?_
    rw [decide_eq_true_eq] at hm ⊢
    omega
  have hfront := hmono front
  have hback := hmono back
  have hji : ¬ i ≤ j := Nat.not_le.mpr hj
  simp only [levelAt, hsplit, List.countP_append, List.countP_cons, hji, decide_false,
    Bool.false_eq_true, if_false, Nat.le_refl, decide_true, if_true]
  omega

/-- One more element of a list is counted. -/
theorem countP_add_one {α : Type} [DecidableEq α] {xs : List α} (hxs : xs.Nodup) {x : α}
    (hx : x ∈ xs) {p q : α → Bool} (hp : p x = false) (hq : q x = true)
    (hrest : ∀ y ∈ xs, y ≠ x → q y = p y) : xs.countP q = xs.countP p + 1 := by
  have hperm := List.perm_cons_erase hx
  have heq : (xs.erase x).countP q = (xs.erase x).countP p := by
    apply List.countP_congr
    intro y hy
    obtain ⟨hne, hy⟩ := (List.Nodup.mem_erase_iff hxs).mp hy
    rw [hrest y hy hne]
  rw [hperm.countP_eq q, hperm.countP_eq p, List.countP_cons, List.countP_cons, heq, hp, hq]
  simp

/-! ## Marks -/

namespace Resolution

/-- What the marks stand for when the trail is walked down to position `i`. -/
structure Marks (a : Assignment) (i : Nat) (s : Resolution κ) : Prop where
  size : s.seen.size = a.cells.size
  marked : ∀ v, s.isSeen v = true ↔ v ∈ s.marked
  above : ∀ v, s.isSeen v = true → v ∈ a.trues.map Literal.var ∧ a.levelOf v ≠ 0
  lower : ∀ m, m ∈ s.lower.toList ↔
    -m ∈ a.trues ∧ s.isSeen m.var = true ∧ a.levelOf m.var ≠ a.decisionLevel
  nodup : (s.lower.toList.map Literal.var).Nodup
  numOpen : s.numOpen = (a.trues.take i).countP fun l =>
    s.isSeen l.var && decide (a.levelOf l.var = a.decisionLevel)

/-- The marked literals make a clause that the valuation satisfies. -/
def Refutes (ν : Valuation) (a : Assignment) (i : Nat) (s : Resolution κ) : Prop :=
  (∃ m ∈ s.lower.toList, m.holds ν = true) ∨
    ∃ l ∈ a.trues.take i, s.isSeen l.var = true ∧ a.levelOf l.var = a.decisionLevel ∧
      l.holds ν = false

/-- The marks grow, and nothing else changes but activities. -/
structure Grows (s s' : Resolution κ) : Prop where
  seen : ∀ v, s.isSeen v = true → s'.isSeen v = true
  arena : s.arena.Retagged s'.arena
  order : s.order.heap.Valid → s.order.SameKeys s'.order

namespace Grows

theorem refl (s : Resolution κ) : s.Grows s := ⟨fun _ h => h, .refl _, fun hv => .refl hv⟩

theorem trans {s₁ s₂ s₃ : Resolution κ} (h : s₁.Grows s₂) (h' : s₂.Grows s₃) : s₁.Grows s₃ :=
  ⟨fun v hv => h'.seen v (h.seen v hv), h.arena.trans h'.arena,
    fun hv => (h.order hv).trans (h'.order (h.order hv).valid)⟩

/-- A clause with more literals is satisfied as well. -/
theorem refutes {s s' : Resolution κ} (h : s.Grows s') {a : Assignment} {i : Nat} {ν : Valuation}
    (hm : s.Marks a i) (hm' : s'.Marks a i) (hr : s.Refutes ν a i) : s'.Refutes ν a i := by
  rcases hr with ⟨m, hl, hν⟩ | ⟨l, hl, hs, hlevel, hν⟩
  · obtain ⟨hf, hs, hlevel⟩ := (hm.lower m).mp hl
    exact Or.inl ⟨m, (hm'.lower m).mpr ⟨hf, h.seen _ hs, hlevel⟩, hν⟩
  · exact Or.inr ⟨l, hl, h.seen _ hs, hlevel, hν⟩

end Grows

variable {a : Assignment} {i : Nat} {s s' : Resolution κ}

/-- A literal that was not met before is noted. -/
structure Notes (a : Assignment) (l : Literal) (s s' : Resolution κ) : Prop where
  size : s'.seen.size = s.seen.size
  seen : ∀ v, s'.isSeen v = true ↔ v = l.var ∨ s.isSeen v = true
  marked : s'.marked = l.var :: s.marked
  lower : s'.lower.toList =
    s.lower.toList ++ if a.levelOf l.var = a.decisionLevel then [] else [l]
  numOpen : s'.numOpen = s.numOpen + if a.levelOf l.var = a.decisionLevel then 1 else 0
  order : s'.order = s.order.bump l.var
  arena : s'.arena = s.arena

theorem note_cases {l : Literal} (hlt : l.var < s.seen.size) :
    (s.isSeen l.var = true ∨ a.levelOf l.var = 0) ∧ s.note a l = s ∨
      s.isSeen l.var = false ∧ a.levelOf l.var ≠ 0 ∧ Notes a l s (s.note a l) := by
  obtain ⟨seen, marked, lower, numOpen, order, arena, needsRescale⟩ := s
  by_cases hskip : (seen[l.var]?.getD false || a.levelOf l.var == 0) = true
  · refine Or.inl ⟨?_, ?_⟩
    · rw [Bool.or_eq_true, beq_iff_eq] at hskip
      exact hskip
    · simp only [note, hskip, if_true]
  · have hnew : seen[l.var]?.getD false = false ∧ a.levelOf l.var ≠ 0 := by
      simpa using hskip
    have hseen : ∀ v, (seen.setIfInBounds l.var true)[v]?.getD false = true ↔
        v = l.var ∨ seen[v]?.getD false = true := by
      intro v
      by_cases hv : v = l.var
      · subst hv
        have hlt : l.var < seen.size := hlt
        simp [hlt]
      · simp [hv, Ne.symm hv]
    refine Or.inr ⟨hnew.1, hnew.2, ?_⟩
    unfold note
    dsimp only
    rw [if_neg hskip]
    by_cases hcur : a.levelOf l.var = a.decisionLevel
    · rw [if_pos hcur]
      exact ⟨Array.size_setIfInBounds, hseen, rfl, by rw [if_pos hcur, List.append_nil],
        by rw [if_pos hcur], by dsimp only, rfl⟩
    · rw [if_neg hcur]
      exact ⟨Array.size_setIfInBounds, hseen, rfl, by rw [if_neg hcur, Array.toList_push],
        by rw [if_neg hcur, Nat.add_zero], by dsimp only, rfl⟩

namespace Notes

variable {l : Literal}

theorem grows (h : Notes a l s s') : s.Grows s' where
  seen := fun v hv => (h.seen v).mpr (Or.inr hv)
  arena := h.arena ▸ .refl _
  order := fun hv => h.order ▸ DecisionOrder.sameKeys_bump hv l.var

/-- The marks still stand for what they stood for, once a false literal above the root is noted. -/
theorem marks (h : Notes a l s s') (hm : s.Marks a i) (ha : a.Consistent)
    (hl : -l ∈ a.trues.take i) (hunseen : s.isSeen l.var = false) (hlevel : a.levelOf l.var ≠ 0) :
    s'.Marks a i := by
  have hmem : -l ∈ a.trues := List.mem_of_mem_take hl
  refine ⟨h.size.trans hm.size, fun v => ?_, fun v hv => ?_, fun m => ?_, ?_, ?_⟩
  · rw [h.seen, h.marked, List.mem_cons, hm.marked]
  · rcases (h.seen v).mp hv with rfl | hv
    · exact ⟨List.mem_map.mpr ⟨-l, hmem, Literal.var_negate l⟩, hlevel⟩
    · exact hm.above v hv
  · rw [h.lower, List.mem_append, hm.lower, h.seen]
    by_cases hcur : a.levelOf l.var = a.decisionLevel
    · rw [if_pos hcur]
      constructor
      · rintro (⟨hf, hs, hne⟩ | hnil)
        · exact ⟨hf, Or.inr hs, hne⟩
        · exact absurd hnil List.not_mem_nil
      · rintro ⟨hf, hv | hs, hne⟩
        · exact absurd (hv ▸ hcur) hne
        · exact Or.inl ⟨hf, hs, hne⟩
    · rw [if_neg hcur, List.mem_singleton]
      constructor
      · rintro (⟨hf, hs, hne⟩ | rfl)
        · exact ⟨hf, Or.inr hs, hne⟩
        · exact ⟨hmem, Or.inl rfl, hcur⟩
      · rintro ⟨hf, hv | hs, hne⟩
        · have heq := ha.eq_of_var hf hmem (by simpa using hv)
          exact Or.inr (by rw [← Literal.negate_negate m, heq, Literal.negate_negate])
        · exact Or.inl ⟨hf, hs, hne⟩
  · rw [h.lower]
    split
    · rw [List.append_nil]
      exact hm.nodup
    · rw [List.map_append, List.map_singleton]
      refine List.nodup_append.mpr ⟨hm.nodup, List.pairwise_singleton _ _, ?_⟩
      rintro v hv w hw rfl
      obtain ⟨m, hml, rfl⟩ := List.mem_map.mp hv
      have hseen := ((hm.lower m).mp hml).2.1
      rw [List.mem_singleton.mp hw, hunseen] at hseen
      cases hseen
  · have hother : ∀ {v}, v ≠ l.var → s'.isSeen v = s.isSeen v := by
      intro v hv
      rw [Bool.eq_iff_iff, h.seen, or_iff_right hv]
    rw [h.numOpen, hm.numOpen]
    by_cases hcur : a.levelOf l.var = a.decisionLevel
    · rw [if_pos hcur, eq_comm]
      refine countP_add_one (ha.nodup_trues.sublist (List.take_sublist _ _)) hl ?_ ?_ ?_
      · rw [Literal.var_negate, hunseen, Bool.false_and]
      · rw [Literal.var_negate, (h.seen _).mpr (Or.inl rfl), hcur, decide_eq_true rfl]
        rfl
      · intro m hm hne
        rw [hother]
        intro hv
        exact hne (ha.eq_of_var (List.mem_of_mem_take hm) hmem (by simpa using hv))
    · rw [if_neg hcur, Nat.add_zero]
      apply List.countP_congr
      intro m _
      by_cases hv : m.var = l.var
      · rw [hv, decide_eq_false hcur, Bool.and_false, Bool.and_false]
      · rw [hother hv]

end Notes

/-- A false literal is noted once, and not at all if its negation is a root fact. -/
theorem note_spec (h : s.Marks a i) (ha : a.Consistent) {l : Literal}
    (hl : -l ∈ a.trues.take i) :
    (s.note a l).Marks a i ∧ s.Grows (s.note a l) ∧
      ((s.note a l).isSeen l.var = true ∨ a.levelOf l.var = 0) := by
  have hlt : l.var < s.seen.size := by
    rw [h.size, ← Literal.var_negate]
    exact ha.var_lt (List.mem_of_mem_take hl)
  rcases note_cases hlt with ⟨hmet, hsame⟩ | ⟨hunseen, hlevel, hnotes⟩
  · rw [hsame]
    exact ⟨h, .refl _, hmet⟩
  · exact ⟨hnotes.marks h ha hl hunseen hlevel, hnotes.grows,
      Or.inl ((hnotes.seen _).mpr (Or.inl rfl))⟩

theorem notes_spec (h : s.Marks a i) (ha : a.Consistent) {ls : List Literal}
    (hls : ∀ l ∈ ls, -l ∈ a.trues.take i) :
    (ls.foldl (fun s l => s.note a l) s).Marks a i ∧
      s.Grows (ls.foldl (fun s l => s.note a l) s) ∧
      ∀ l ∈ ls, (ls.foldl (fun s l => s.note a l) s).isSeen l.var = true ∨ a.levelOf l.var = 0 := by
  induction ls generalizing s with
  | nil => exact ⟨h, .refl _, fun l hl => by cases hl⟩
  | cons l ls ih =>
    obtain ⟨hm, hg, hseen⟩ := note_spec h ha (hls l List.mem_cons_self)
    obtain ⟨hm', hg', hrest⟩ := ih hm fun m hm => hls m (List.mem_cons_of_mem _ hm)
    refine ⟨hm', hg.trans hg', fun m hm => ?_⟩
    rcases List.mem_cons.mp hm with rfl | hm
    · exact hseen.imp (hg'.seen _) id
    · exact hrest m hm

/-! ## Steps -/

variable [CustomConstraint κ]

/-- Activities of the arena apart, a resolution notes the literals of a reason; it needs one of the
current level. -/
theorem resolve_eq {d : LearnedDatabase} {r : Reference} (p : Option Literal) {c : Constraint κ}
    (hc : s.arena.get? r = some c) :
    ∃ s₀ : Resolution κ, s.Grows s₀ ∧ (s.Marks a i → s₀.Marks a i) ∧ s₀.numOpen = s.numOpen ∧
      resolve d a r p s =
        if ((c.reason a p).foldl (fun s l => s.note a l) s₀).numOpen = 0 then
          .error .noOpenLiteral
        else .ok ((c.reason a p).foldl (fun s l => s.note a l) s₀) := by
  obtain ⟨seen, marked, lower, numOpen, order, arena, needsRescale⟩ := s
  have htag : ∃ m, (d.onAnalysis c).2 = ⟨c.kind, m⟩ ∧ c.metadata.Similar m := by
    unfold LearnedDatabase.onAnalysis
    split
    · exact ⟨_, rfl, rfl, rfl, rfl, rfl⟩
    · exact ⟨_, rfl, .refl _⟩
  obtain ⟨m, hm, hsim⟩ := htag
  have hreason : (d.onAnalysis c).2.reason a p = c.reason a p := by
    rw [hm]
    exact Constraint.reason_congr rfl a p
  refine ⟨⟨seen, marked, lower, numOpen, order, arena.set r ⟨c.kind, m⟩,
    needsRescale || (d.onAnalysis c).1⟩, ⟨fun _ hv => hv, .set hc hsim, fun hv => .refl hv⟩,
    fun h => ⟨h.size, h.marked, h.above, h.lower, h.nodup, h.numOpen⟩, rfl, ?_⟩
  simp only [resolve, Arena.get_eq_ok.mpr hc, bind, Except.bind]
  rw [hreason, hm]
  split
  · rfl
  · rfl

/-- Noting the literals of a reason gives a clause that follows if the reason is broken. -/
theorem resolve_spec (h : s.Marks a i) (ha : a.Consistent) {d : LearnedDatabase} {r : Reference}
    {p : Option Literal} {c : Constraint κ} (hc : s.arena.get? r = some c)
    (hbefore : ∀ m ∈ c.reason a p, -m ∈ a.trues.take i) (hrun : resolve d a r p s = .ok s') :
    s'.Marks a i ∧ s.Grows s' ∧ s'.numOpen ≠ 0 ∧
      ∀ ν, (∀ l ∈ a.trues, a.levelOf l.var = 0 → l.holds ν = true) →
        (∃ m ∈ c.reason a p, m.holds ν = true) → s'.Refutes ν a i := by
  obtain ⟨s₀, hg₀, hmarks₀, -, heq⟩ := resolve_eq (d := d) p hc
  obtain ⟨hmarks, hg, hseen⟩ := notes_spec (hmarks₀ h) ha hbefore
  rw [heq] at hrun
  split at hrun
  · cases hrun
  · rename_i hopen
    cases hrun
    refine ⟨hmarks, hg₀.trans hg, hopen, fun ν hroot => ?_⟩
    rintro ⟨n, hn, hν⟩
    have hfalse := hbefore n hn
    rcases hseen n hn with hs | hlevel
    · by_cases hcur : a.levelOf n.var = a.decisionLevel
      · refine Or.inr ⟨-n, hfalse, ?_, ?_, ?_⟩
        · rw [Literal.var_negate]
          exact hs
        · rw [Literal.var_negate, hcur]
        · rw [Literal.holds_negate, hν]
          rfl
      · exact Or.inl ⟨n, (hmarks.lower n).mpr ⟨List.mem_of_mem_take hfalse, hs, hcur⟩, hν⟩
    · have := hroot (-n) (List.mem_of_mem_take hfalse) (by rw [Literal.var_negate, hlevel])
      rw [Literal.holds_negate, hν] at this
      cases this

/-- A resolution succeeds if a literal of the current level is open or comes with the reason. -/
theorem resolve_total (h : s.Marks a i) (ha : a.Consistent) {d : LearnedDatabase} {r : Reference}
    {p : Option Literal} {c : Constraint κ} (hc : s.arena.get? r = some c)
    (hbefore : ∀ m ∈ c.reason a p, -m ∈ a.trues.take i)
    (hopen : s.numOpen ≠ 0 ∨ a.decisionLevel ≠ 0 ∧
      ∃ m ∈ c.reason a p, a.levelOf m.var = a.decisionLevel) :
    ∃ s', resolve d a r p s = .ok s' := by
  obtain ⟨s₀, -, hmarks₀, hsame, heq⟩ := resolve_eq (d := d) p hc
  obtain ⟨hmarks, hg, hseen⟩ := notes_spec (hmarks₀ h) ha hbefore
  rw [heq, if_neg]
  · exact ⟨_, rfl⟩
  · rw [hmarks.numOpen]
    apply Nat.pos_iff_ne_zero.mp
    apply List.countP_pos_iff.mpr
    rcases hopen with hopen | ⟨habove, m, hm, hlevel⟩
    · rw [← hsame, (hmarks₀ h).numOpen] at hopen
      obtain ⟨x, hx, hp⟩ := List.countP_pos_iff.mp (Nat.pos_of_ne_zero hopen)
      rw [Bool.and_eq_true] at hp
      exact ⟨x, hx, by rw [hg.seen _ hp.1, hp.2]; rfl⟩
    · refine ⟨-m, hbefore m hm, ?_⟩
      rcases hseen m hm with hs | hzero
      · rw [Literal.var_negate, hs, hlevel, decide_eq_true rfl]
        rfl
      · exact absurd (hlevel.symm.trans hzero) habove

omit [CustomConstraint κ] in
/-- Below a position without an open literal the marks stand for the same. -/
theorem Marks.pass (h : s.Marks a (i + 1))
    (hi : ∀ l, a.trues[i]? = some l →
      (s.isSeen l.var && decide (a.levelOf l.var = a.decisionLevel)) = false) : s.Marks a i := by
  refine ⟨h.size, h.marked, h.above, h.lower, h.nodup, ?_⟩
  rw [h.numOpen, List.take_add_one, List.countP_append]
  cases hl : a.trues[i]? with
  | none => rfl
  | some l => simp [hi l hl]

omit [CustomConstraint κ] in
theorem Refutes.pass {ν : Valuation} (h : s.Refutes ν a (i + 1))
    (hi : ∀ l, a.trues[i]? = some l →
      (s.isSeen l.var && decide (a.levelOf l.var = a.decisionLevel)) = false) :
      s.Refutes ν a i := by
  rcases h with hr | ⟨m, hm, hs, hcur, hmν⟩
  · exact Or.inl hr
  · refine Or.inr ⟨m, ?_, hs, hcur, hmν⟩
    rw [List.take_add_one, List.mem_append] at hm
    rcases hm with hm | hm
    · exact hm
    · have hget : a.trues[i]? = some m := by simpa using hm
      have := hi m hget
      simp [hs, hcur] at this

omit [CustomConstraint κ] in
/-- The number of open literals counts marked literals of the current level. -/
theorem Marks.exists_open (h : s.Marks a i) (hopen : s.numOpen ≠ 0) :
    ∃ j x, j < i ∧ a.trues[j]? = some x ∧ s.isSeen x.var = true ∧
      a.levelOf x.var = a.decisionLevel := by
  rw [h.numOpen] at hopen
  obtain ⟨x, hx, hp⟩ := List.countP_pos_iff.mp (Nat.pos_of_ne_zero hopen)
  simp only [Bool.and_eq_true, decide_eq_true_eq] at hp
  obtain ⟨j, hj, hxj⟩ := mem_take_iff.mp hx
  exact ⟨j, x, hj, hxj, hp⟩

omit [CustomConstraint κ] in
/-- A single open literal is the only one. -/
theorem Marks.eq_of_numOpen_eq_one (h : s.Marks a i) (hone : s.numOpen = 1) {l m : Literal}
    (hl : l ∈ a.trues.take i) (hls : s.isSeen l.var = true)
    (hlc : a.levelOf l.var = a.decisionLevel)
    (hm : m ∈ a.trues.take i) (hms : s.isSeen m.var = true)
    (hmc : a.levelOf m.var = a.decisionLevel) : m = l := by
  by_contra hne
  have hp : ∀ x : Literal, s.isSeen x.var = true → a.levelOf x.var = a.decisionLevel →
      (s.isSeen x.var && decide (a.levelOf x.var = a.decisionLevel)) = true := by
    intro x hx hxl
    simp [hx, hxl]
  have hcount := h.numOpen
  rw [(List.perm_cons_erase hl).countP_eq, List.countP_cons, if_pos (hp l hls hlc)] at hcount
  have hpos : 0 < ((a.trues.take i).erase l).countP fun l =>
      s.isSeen l.var && decide (a.levelOf l.var = a.decisionLevel) :=
    List.countP_pos_iff.mpr ⟨m, (List.mem_erase_of_ne hne).mpr hm, hp m hms hmc⟩
  omega

omit [CustomConstraint κ] in
/-- Open literals are of the current level, which is the end of the trail. -/
theorem Marks.levelOf_eq (h : s.Marks a (i + 1)) (ha : a.Consistent) (hopen : s.numOpen ≠ 0)
    {l : Literal} (hl : a.trues[i]? = some l) : a.levelOf l.var = a.decisionLevel := by
  obtain ⟨j, x, hj, hxj, -, hx⟩ := h.exists_open hopen
  have hle : a.levelAt j ≤ a.levelAt i := a.levelAt_mono (by omega)
  have htop := a.levelAt_le i
  rw [ha.levelOf_eq hl]
  rw [ha.levelOf_eq hxj] at hx
  omega

omit [CustomConstraint κ] in
/-- An open literal that is resolved on is open no more. -/
theorem Marks.close {seen : Array Bool} {marked : List Nat} {lower : Array Literal} {numOpen : Nat}
    {order : DecisionOrder Generator} {arena : Arena κ} {needsRescale : Bool}
    (h : (⟨seen, marked, lower, numOpen, order, arena, needsRescale⟩ : Resolution κ).Marks a
      (i + 1))
    {l : Literal} (hl : a.trues[i]? = some l) (hseen : seen[l.var]?.getD false = true)
    (hlevel : a.levelOf l.var = a.decisionLevel) :
    (⟨seen, marked, lower, numOpen - 1, order, arena, needsRescale⟩ : Resolution κ).Marks a i := by
  refine ⟨h.size, h.marked, h.above, h.lower, h.nodup, ?_⟩
  have hcount := h.numOpen
  rw [List.take_add_one, hl, List.countP_append] at hcount
  have hone : (Option.toList (some l)).countP (fun m =>
      seen[m.var]?.getD false && decide (a.levelOf m.var = a.decisionLevel)) = 1 := by
    simp [hseen, hlevel]
  change numOpen = _ + (Option.toList (some l)).countP (fun m =>
    seen[m.var]?.getD false && decide (a.levelOf m.var = a.decisionLevel)) at hcount
  rw [hone] at hcount
  show numOpen - 1 = _
  rw [hcount, Nat.add_sub_cancel]
  rfl

/-- What the walk down from the first `n` literals leaves: a literal of the current level that the
clause below it makes false. -/
structure Descends (a : Assignment) (n : Nat) (s : Resolution κ) (last : Literal)
    (s' : Resolution κ) : Prop where
  mem : last ∈ a.trues
  level : a.levelOf last.var = a.decisionLevel
  marks : ∃ j, s'.Marks a j
  grows : s.Grows s'
  refutes : ∀ ν, s.arena.Model a ν → s.Refutes ν a n →
    ∃ m ∈ -last :: s'.lower.toList, m.holds ν = true

namespace Descends

variable {last l : Literal}

omit [CustomConstraint κ] in
/-- A literal that is not open is passed. -/
theorem pass (h : Descends a i s last s')
    (hi : ∀ l, a.trues[i]? = some l →
      (s.isSeen l.var && decide (a.levelOf l.var = a.decisionLevel)) = false) :
    Descends a (i + 1) s last s' :=
  { h with refutes := fun ν hν hr => h.refutes ν hν (hr.pass hi) }

omit [CustomConstraint κ] in
/-- The walk ends at the only literal that is open. -/
theorem stop (h : s.Marks a (i + 1)) (hone : s.numOpen = 1) (hl : a.trues[i]? = some l)
    (hseen : s.isSeen l.var = true) (hlevel : a.levelOf l.var = a.decisionLevel) :
    Descends a (i + 1) s l s := by
  refine ⟨List.mem_of_getElem? hl, hlevel, ⟨i + 1, h⟩, .refl _, fun ν _ hr => ?_⟩
  have hlast : l ∈ a.trues.take (i + 1) := mem_take_iff.mpr ⟨i, Nat.lt_succ_self i, hl⟩
  rcases hr with ⟨m, hm, hmν⟩ | ⟨m, hm, hs, hcur, hmν⟩
  · exact ⟨m, List.mem_cons_of_mem _ hm, hmν⟩
  · have hml : m = l := h.eq_of_numOpen_eq_one hone hlast hseen hlevel hm hs hcur
    exact ⟨-l, List.mem_cons_self, by rw [Literal.holds_negate, ← hml, hmν]; rfl⟩

/-- An open literal is replaced by the literals of its reason. If the valuation makes the literal
false, it makes one of them true, since it satisfies the reason. -/
theorem replace {c : Constraint κ} {s₁ : Resolution κ} (hl : a.trues[i]? = some l)
    (hc : s.arena.get? r = some c)
    (himplies : ∀ ν, c.kind.Holds ν → (∀ m ∈ c.reason a (some l), m.holds ν = false) →
      l.holds ν = true) (hg : s.Grows s₁) (hkept : ∀ ν, s.Refutes ν a i → s₁.Refutes ν a i)
    (href : ∀ ν, (∀ l ∈ a.trues, a.levelOf l.var = 0 → l.holds ν = true) →
      (∃ m ∈ c.reason a (some l), m.holds ν = true) → s₁.Refutes ν a i)
    (h : Descends a i s₁ last s') : Descends a (i + 1) s last s' := by
  refine ⟨h.mem, h.level, h.marks, hg.trans h.grows,
    fun ν hν hr => h.refutes ν (hν.retagged hg.arena) ?_⟩
  rcases hr with ⟨m, hm, hmν⟩ | ⟨m, hm, hs, hcur, hmν⟩
  · exact hkept ν (Or.inl ⟨m, hm, hmν⟩)
  · rw [List.take_add_one, List.mem_append] at hm
    rcases hm with hm | hm
    · exact hkept ν (Or.inr ⟨m, hm, hs, hcur, hmν⟩)
    · have hml : m = l := by
        rw [hl] at hm
        simpa using hm
      refine href ν hν.facts ?_
      by_contra hnone
      have := himplies ν (hν.holds hc) fun n hn => by
        by_contra hnν
        exact hnone ⟨n, hn, by simpa using hnν⟩
      rw [hml, this] at hmν
      cases hmν

end Descends

theorem descend_spec {d : LearnedDatabase} {last : Literal} (n : Nat) :
    ∀ {s s' : Resolution κ}, s.Marks a n → s.numOpen ≠ 0 → s.arena.Justifies a →
      descend d a n s = .ok (last, s') → Descends a n s last s' := by
  induction n with
  | zero =>
    intro s s' _ _ _ hrun
    cases hrun
  | succ i ih =>
    intro s s' h hopen hj hrun
    have ha := hj.consistent
    unfold descend at hrun
    rw [Assignment.getElem?_trail] at hrun
    split at hrun
    · rename_i hnone
      have hi : ∀ l, a.trues[i]? = some l →
          (s.isSeen l.var && decide (a.levelOf l.var = a.decisionLevel)) = false :=
        fun l hl => by rw [hnone] at hl; cases hl
      exact (ih (h.pass hi) hopen hj hrun).pass hi
    · rename_i l hl
      split at hrun
      · rename_i hseen
        have hlevel := h.levelOf_eq ha hopen hl
        split at hrun
        · rename_i hone
          cases hrun
          exact .stop h hone hl hseen hlevel
        · split at hrun
          · cases hrun
          · rename_i r hr
            obtain ⟨seen, marked, lower, numOpen, order, arena, needsRescale⟩ := s
            obtain ⟨s₁, hresolve, hrun⟩ := ok_of_bind hrun
            obtain ⟨c, hc, hbefore, himplies⟩ := hj.reasons hl hr
            have hmarks := h.close hl hseen hlevel
            obtain ⟨hmarks₁, hg, hne, href⟩ := resolve_spec hmarks ha hc hbefore hresolve
            have hdescends := ih hmarks₁ hne (hj.retagged hg.arena) hrun
            exact hdescends.replace hl hc himplies ⟨hg.seen, hg.arena, hg.order⟩
              (fun ν => hg.refutes hmarks hmarks₁) href
      · rename_i hunseen
        have hi : ∀ m, a.trues[i]? = some m →
            (s.isSeen m.var && decide (a.levelOf m.var = a.decisionLevel)) = false := by
          intro m hm
          rw [hl] at hm
          cases hm
          simp [hunseen]
        exact (ih (h.pass hi) hopen hj hrun).pass hi

/-- The walk never passes a decision: while two literals of the current level are open, the newer
one has a reason. -/
theorem descend_total {d : LearnedDatabase} (hd : a.Driven) (n : Nat) :
    ∀ {s : Resolution κ}, s.Marks a n → s.numOpen ≠ 0 → s.arena.Justifies a →
      ∃ last s', descend d a n s = .ok (last, s') := by
  induction n with
  | zero =>
    intro s h hopen _
    exact absurd h.numOpen hopen
  | succ i ih =>
    intro s h hopen hj
    have ha := hj.consistent
    unfold descend
    rw [Assignment.getElem?_trail]
    split
    · rename_i hnone
      exact ih (h.pass fun l hl => by rw [hnone] at hl; cases hl) hopen hj
    · rename_i l hl
      split
      · rename_i hseen
        have hlevel := h.levelOf_eq ha hopen hl
        split
        · exact ⟨l, s, rfl⟩
        · rename_i hmore
          obtain ⟨seen, marked, lower, numOpen, order, arena, needsRescale⟩ := s
          have hmarks₀ := h.close hl hseen hlevel
          have hmore : numOpen ≠ 1 := hmore
          have hopen₀ : numOpen - 1 ≠ 0 := by
            have : numOpen ≠ 0 := hopen
            omega
          split
          · rename_i hdecision
            -- An older open literal is of the same level, so this one does not start it.
            exfalso
            obtain ⟨j, x, hj, hxj, -, hx⟩ := hmarks₀.exists_open hopen₀
            have habove := (h.above l.var hseen).2
            rw [ha.levelOf_eq hl] at hlevel habove
            rw [ha.levelOf_eq hxj] at hx
            have hlt := a.levelAt_lt ((hd hl hdecision).resolve_left habove) hj
            omega
          · rename_i r hr
            obtain ⟨c, hc, hbefore, -⟩ := hj.reasons hl hr
            obtain ⟨s₁, hresolve⟩ := resolve_total (d := d) hmarks₀ ha hc hbefore (Or.inl hopen₀)
            obtain ⟨hmarks, hg, hne, -⟩ := resolve_spec hmarks₀ ha hc hbefore hresolve
            simp only [hresolve, bind, Except.bind]
            exact ih hmarks hne (hj.retagged hg.arena)
      · rename_i hunseen
        refine ih (h.pass fun m hm => ?_) hopen hj
        rw [hl] at hm
        cases hm
        simp [hunseen]

end Resolution

end ClauseLearning
