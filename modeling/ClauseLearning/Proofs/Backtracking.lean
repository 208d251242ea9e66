import ClauseLearning.Proofs.Propagation

/-!
# Taking assignments back

Going back cuts the trail off and tells every constraint that counted a report of what is cut off.
Nothing else happens to the constraints: literals stay in their order and watches where they are
(`SearchState.Rewinds`).

* `undoNewest_spec`: the newest assignments are taken back.
* `backtrack_spec`: what is left of the trail is what was there when the level was opened.
* `backtrack_total`: there always is a result, because reports are taken back as often as counted.
* `Rewinds.settles`: what was settled on the rest stays settled.
-/

namespace ClauseLearning

variable {κ : Type}

namespace Kind

/-- The constraint with another number of counted reports. -/
def recounted (n : Nat) : Kind κ → Kind κ
  | .cardinality c => .cardinality { c with falsified := n }
  | k => k

theorem watched_recounted (n : Nat) (k : Kind κ) : (k.recounted n).watched = k.watched := by
  cases k <;> rfl

theorem reports_recounted (n : Nat) (l : Literal) (k : Kind κ) :
    (k.recounted n).reports l = k.reports l := by
  cases k <;> rfl

theorem blocks_recounted (n : Nat) (l : Literal) (k : Kind κ) :
    (k.recounted n).Blocks l ↔ k.Blocks l := by
  cases k <;> exact Iff.rfl

theorem explains_recounted (n : Nat) (before : List Literal) (l : Literal) (k : Kind κ) :
    (k.recounted n).Explains before l ↔ k.Explains before l := by
  cases k <;> exact Iff.rfl

theorem settled_recounted (n : Nat) (trues seen : List Literal) (told : Nat → Nat) (k : Kind κ) :
    (k.recounted n).Settled trues seen told ↔ k.Settled trues seen told := by
  cases k <;> exact Iff.rfl

theorem similar_recounted (n : Nat) (k : Kind κ) : k.Similar (k.recounted n) := by
  cases k with
  | clause c => exact .refl _
  | cardinality c => exact ⟨rfl, rfl⟩
  | parity c => exact .refl _
  | custom c => exact rfl

theorem recounted_recounted (n m : Nat) (k : Kind κ) :
    (k.recounted n).recounted m = k.recounted m := by
  cases k <;> rfl

/-- A report taken back is one report less. -/
theorem falsified_recounted {n : Nat} {k : Kind κ} (h : n + k.tally = k.falsified) :
    (k.recounted n).falsified + k.tally = k.falsified := by
  cases k with
  | cardinality c => exact h
  | clause c => rfl
  | parity c => rfl
  | custom c => rfl

/-- Constraints that a visit does not make count have counted nothing. -/
theorem tally_eq_one_or_falsified_eq_zero (k : Kind κ) : k.tally = 1 ∨ k.falsified = 0 := by
  cases k with
  | cardinality c => exact Or.inl rfl
  | clause c => exact Or.inr rfl
  | parity c => exact Or.inr rfl
  | custom c => exact Or.inr rfl

end Kind

namespace Arena

/-- Constraints have other numbers of counted reports; everything else is as it was. -/
structure Recounted (s s' : Arena κ) : Prop where
  alive : ∀ {r c}, s.get? r = some c → ∃ n, s'.get? r = some ⟨c.kind.recounted n, c.metadata⟩
  dead : ∀ {r}, s.get? r = none → s'.get? r = none
  recycled : s'.recycled = s.recycled
  size : s'.slots.size = s.slots.size

namespace Recounted

theorem refl (s : Arena κ) : s.Recounted s :=
  ⟨fun {r c} hc => ⟨c.kind.falsified, by rw [hc]; obtain ⟨k, m⟩ := c; cases k <;> rfl⟩,
    fun h => h, rfl, rfl⟩

theorem set {s : Arena κ} {r : Reference} {c : Constraint κ} (hc : s.get? r = some c) (n : Nat) :
    s.Recounted (s.set r ⟨c.kind.recounted n, c.metadata⟩) where
  alive := by
    intro q d hd
    obtain ⟨_, hd', m, rfl⟩ := exists_get?_set hc
      (P := fun d d' => ∃ m, d' = ⟨d.kind.recounted m, d.metadata⟩) ⟨n, rfl⟩
      (fun d => ⟨d.kind.falsified, by obtain ⟨k, m⟩ := d; cases k <;> rfl⟩) hd
    exact ⟨m, hd'⟩
  dead := get?_set_eq_none hc _
  recycled := rfl
  size := by simp [Arena.set]

theorem trans {s₁ s₂ s₃ : Arena κ} (h : s₁.Recounted s₂) (h' : s₂.Recounted s₃) :
    s₁.Recounted s₃ := by
  refine ⟨fun hc => ?_, fun hd => h'.dead (h.dead hd), h'.recycled.trans h.recycled,
    h'.size.trans h.size⟩
  obtain ⟨n, hn⟩ := h.alive hc
  obtain ⟨m, hm⟩ := h'.alive hn
  exact ⟨m, by rw [hm, Kind.recounted_recounted]⟩

variable {s s' : Arena κ} (h : s.Recounted s')
include h

theorem agree : s.Agree s' := by
  refine ⟨fun {_ c} hc => ?_, h.dead, h.recycled, h.size⟩
  obtain ⟨n, hn⟩ := h.alive hc
  exact ⟨_, hn, c.kind.similar_recounted n, .refl _⟩

theorem of_alive {r : Reference} {c' : Constraint κ} (hc : s'.get? r = some c') :
    ∃ c n, s.get? r = some c ∧ c' = ⟨c.kind.recounted n, c.metadata⟩ := by
  obtain ⟨c, hc₀, -, -⟩ := h.agree.of_alive hc
  obtain ⟨n, hn⟩ := h.alive hc₀
  rw [hc] at hn
  exact ⟨c, n, hc₀, Option.some.inj hn⟩

theorem ne_custom (hk : ∀ {r c}, s.get? r = some c → ∀ k, c.kind ≠ .custom k) {r : Reference}
    {c : Constraint κ} (hc : s'.get? r = some c) (k : κ) : c.kind ≠ .custom k := by
  obtain ⟨c₀, n, hc₀, rfl⟩ := h.of_alive hc
  intro hck
  cases hkind : c₀.kind with
  | custom k₀ => exact hk hc₀ k₀ hkind
  | _ => simp [hkind, Kind.recounted] at hck

end Recounted

end Arena

/-! ## The trail -/

namespace Assignment

/-- All but the first `n` literals of the trail lost their values. -/
structure Cut (n : Nat) (a a' : Assignment) : Prop where
  trues : a'.trues = a.trues.take n
  cell : ∀ {v c}, a'.cell? v = some c → a.cell? v = some c
  size : a'.cells.size = a.cells.size

namespace Cut

theorem refl {n : Nat} {a : Assignment} (hn : a.trues.length ≤ n) : a.Cut n a :=
  ⟨(List.take_of_length_le hn).symm, fun hc => hc, rfl⟩

theorem trans {n m : Nat} {a₁ a₂ a₃ : Assignment} (h : a₁.Cut n a₂) (h' : a₂.Cut m a₃)
    (hm : m ≤ n) : a₁.Cut m a₃ where
  trues := by rw [h'.trues, h.trues, List.take_take, Nat.min_eq_left hm]
  cell := fun hc => h.cell (h'.cell hc)
  size := h'.size.trans h.size

variable {n : Nat} {a a' : Assignment} (h : a.Cut n a')
include h

theorem getElem? {i : Nat} {l : Literal} (hl : a'.trues[i]? = some l) : a.trues[i]? = some l := by
  rw [h.trues, List.getElem?_take] at hl
  split at hl
  · exact hl
  · cases hl

theorem take {i : Nat} (hi : i ≤ n) : a'.trues.take i = a.trues.take i := by
  rw [h.trues, List.take_take, Nat.min_eq_left hi]

theorem reason?_eq (ha' : a'.Consistent) {l : Literal} (hl : l ∈ a'.trues) :
    a'.reason? l.var = a.reason? l.var := by
  obtain ⟨c, hc, -⟩ := ha'.cell_of_mem hl
  simp only [reason?, hc, h.cell hc]

/-- Literals that keep their values keep their levels. -/
theorem levelAt_eq (ha : a.Consistent) (ha' : a'.Consistent) {i : Nat}
    (hi : i < a'.trues.length) : a'.levelAt i = a.levelAt i := by
  have hl' := List.getElem?_eq_getElem hi
  have hl := h.getElem? hl'
  obtain ⟨c, hc, -⟩ := ha'.cell_of_getElem? hl'
  have hlevel := ha'.levelOf_eq hl'
  rw [levelOf, level?, hc, Option.map_some, Option.getD_some] at hlevel
  rw [← hlevel, ← ha.levelOf_eq hl, levelOf, level?, h.cell hc]
  rfl

end Cut

theorem cut_unassign (a : Assignment) (l : Literal) :
    a.Cut (a.trues.length - 1) (a.unassign l) where
  trues := by rw [trues_unassign, List.dropLast_eq_take]
  cell := fun hc => (cell?_of_cell?_unassign hc).2
  size := by simp [unassign]

theorem Consistent.var_ne_of_mem_unassign {a : Assignment} (h : a.Consistent) {l x : Literal}
    (hl : a.newest? = some l) (hx : x ∈ (a.unassign l).trues) : l.var ≠ x.var := by
  obtain ⟨c, hc, -⟩ := (h.unassign hl).cell_of_mem hx
  exact (cell?_of_cell?_unassign hc).1

/-- Only the newest literal goes. -/
theorem mem_take_unassign {a : Assignment} {l x : Literal} {n : Nat} (hl : a.newest? = some l)
    (hx : x ∈ a.trues.take n) (hne : x ≠ l) : x ∈ (a.unassign l).trues.take n := by
  rw [trues_eq_concat hl, List.take_append] at hx
  rcases List.mem_append.mp hx with hx | hx
  · exact hx
  · exact absurd (List.mem_singleton.mp (List.mem_of_mem_take hx)) hne

end Assignment

namespace SearchState

variable [CustomConstraint κ]

/-! ## Telling the constraints -/

theorem undo_spec {c c' : Constraint κ} {l : Literal} (hk : ∀ k, c.kind ≠ .custom k)
    (h : c.undo l = .ok c') :
    ∃ n, c' = ⟨c.kind.recounted n, c.metadata⟩ ∧ n + c.kind.tally = c.kind.falsified := by
  obtain ⟨k, m⟩ := c
  cases k with
  | clause k =>
    cases h
    exact ⟨0, rfl, rfl⟩
  | cardinality k =>
    simp only [Constraint.undo, Cardinality.undo?] at h
    split at h
    · rename_i k' hk'
      split at hk'
      · cases hk'
      · rename_i hne
        cases hk'
        cases h
        refine ⟨k.falsified - 1, rfl, ?_⟩
        simp only [Kind.tally, Kind.falsified]
        omega
    · cases h
  | parity k =>
    cases h
    exact ⟨0, rfl, rfl⟩
  | custom k => exact absurd rfl (hk k)

theorem undoAll_spec {s s' : Arena κ} {l : Literal} {rs : List Reference}
    (hk : ∀ {r c}, s.get? r = some c → ∀ k, c.kind ≠ .custom k) (h : undoAll l rs s = .ok s') :
    s.Recounted s' ∧ ∀ {r c}, s.get? r = some c → ∃ c', s'.get? r = some c' ∧
      c'.kind.falsified + c.kind.tally * rs.count r = c.kind.falsified := by
  induction rs generalizing s with
  | nil =>
    cases h
    exact ⟨.refl _, fun {_ c} hc => ⟨c, hc, by simp⟩⟩
  | cons q rs ih =>
    unfold undoAll at h
    rw [List.foldlM_cons] at h
    obtain ⟨s₁, hs₁, h⟩ := ok_of_bind h
    obtain ⟨c, hc, hs₁⟩ := ok_of_bind hs₁
    rw [Arena.get_eq_ok] at hc
    obtain ⟨c₁, hc₁, hs₁⟩ := ok_of_bind hs₁
    cases hs₁
    obtain ⟨n, rfl, hn⟩ := undo_spec (hk hc) hc₁
    have hget := Arena.get?_set hc ⟨c.kind.recounted n, c.metadata⟩
    have hset : s.Recounted (s.set q ⟨c.kind.recounted n, c.metadata⟩) := .set hc n
    obtain ⟨hrec, hcount⟩ := ih (hset.ne_custom hk) h
    refine ⟨hset.trans hrec, fun {r d} hd => ?_⟩
    by_cases hr : r = q
    · subst hr
      rw [hc] at hd
      cases hd
      obtain ⟨c', hc', hfal⟩ := hcount (r := r) (c := ⟨c.kind.recounted n, c.metadata⟩)
        (by rw [hget, if_pos rfl])
      have hless : (c.kind.recounted n).falsified + c.kind.tally = c.kind.falsified :=
        Kind.falsified_recounted hn
      have hfal : c'.kind.falsified + (c.kind.recounted n).tally * rs.count r =
          (c.kind.recounted n).falsified := hfal
      rw [(c.kind.similar_recounted n).tally_eq] at hfal
      refine ⟨c', hc', ?_⟩
      rw [List.count_cons_self, Nat.mul_add, Nat.mul_one]
      omega
    · obtain ⟨c', hc', hfal⟩ := hcount (r := r) (c := d) (by rw [hget, if_neg hr]; exact hd)
      refine ⟨c', hc', ?_⟩
      rw [List.count_cons_of_ne fun h => hr h.symm]
      exact hfal

/-- A constraint that counted a report can take it back. -/
theorem undo_total {c : Constraint κ} (l : Literal) (hk : ∀ k, c.kind ≠ .custom k)
    (h : c.kind.tally ≤ c.kind.falsified) : ∃ c', c.undo l = .ok c' := by
  obtain ⟨k, m⟩ := c
  cases k with
  | clause k => exact ⟨_, rfl⟩
  | cardinality k =>
    have hpos : ¬ k.falsified = 0 := by
      have h : 1 ≤ k.falsified := h
      omega
    exact ⟨⟨.cardinality { k with falsified := k.falsified - 1 }, m⟩, by
      simp only [Constraint.undo, Cardinality.undo?, if_neg hpos]⟩
  | parity k => exact ⟨_, rfl⟩
  | custom k => exact absurd rfl (hk k)

theorem undoAll_cons {s : Arena κ} {l : Literal} {r : Reference} {c c' : Constraint κ}
    (hc : s.get? r = some c) (hundo : c.undo l = .ok c') (rs : List Reference) :
    undoAll l (r :: rs) s = undoAll l rs (s.set r c') := by
  unfold undoAll
  rw [List.foldlM_cons, Arena.get_eq_ok.mpr hc]
  simp only [bind, Except.bind, hundo, pure, Except.pure]

/-- Constraints that counted all the reports in a list can take them back. -/
theorem undoAll_total {s : Arena κ} (l : Literal) {rs : List Reference}
    (hk : ∀ {r c}, s.get? r = some c → ∀ k, c.kind ≠ .custom k)
    (h : ∀ r ∈ rs, ∃ c, s.get? r = some c ∧ c.kind.tally * rs.count r ≤ c.kind.falsified) :
    ∃ s', undoAll l rs s = .ok s' := by
  induction rs generalizing s with
  | nil => exact ⟨s, rfl⟩
  | cons q rs ih =>
    obtain ⟨c, hc, hle⟩ := h q List.mem_cons_self
    rw [List.count_cons_self, Nat.mul_add, Nat.mul_one] at hle
    obtain ⟨c', hundo⟩ := undo_total l (hk hc) (Nat.le_trans (Nat.le_add_left _ _) hle)
    obtain ⟨hrec, hcount⟩ := undoAll_spec hk (undoAll_cons hc hundo [])
    have hrest : ∀ r ∈ rs, ∃ d, (s.set q c').get? r = some d ∧
        d.kind.tally * rs.count r ≤ d.kind.falsified := by
      intro r hr
      obtain ⟨d₀, hd₀, hle₀⟩ := h r (List.mem_cons_of_mem _ hr)
      obtain ⟨d, hd, hfal⟩ := hcount hd₀
      obtain ⟨n, hn⟩ := hrec.alive hd₀
      have hdn : d = ⟨d₀.kind.recounted n, d₀.metadata⟩ := Option.some.inj (hd.symm.trans hn)
      have htally : d.kind.tally = d₀.kind.tally := by
        rw [hdn]
        exact (d₀.kind.similar_recounted n).tally_eq
      refine ⟨d, hd, ?_⟩
      rw [htally]
      rw [List.count_cons, Nat.mul_add] at hle₀
      rw [List.count_cons, List.count_nil, Nat.zero_add] at hfal
      omega
    rw [undoAll_cons hc hundo]
    exact ih (hrec.ne_custom hk) hrest

end SearchState

namespace Arena.OnBoard

theorem ne_custom {s : Arena κ} {b : Board} {head : Nat} (h : s.OnBoard b head) {r : Reference}
    {c : Constraint κ} (hc : s.get? r = some c) (k : κ) : c.kind ≠ .custom k := by
  intro hk
  have hw := h.wellFormed hc
  rw [hk] at hw
  exact hw.elim

/-- Everyone who was told of an assignment can be told that it is taken back. -/
theorem undoAll_total [CustomConstraint κ] {s : Arena κ} {a : Assignment} {w : Watches} {head : Nat}
    (h : s.OnBoard ⟨a, w⟩ head) (l : Literal) :
    ∃ s', SearchState.undoAll l (w.undosOf l.var) s = .ok s' := by
  refine SearchState.undoAll_total l h.ne_custom fun r hr => ?_
  have hcount : 0 < (w.undosOf l.var).count r := List.count_pos_iff.mpr hr
  have hnum : w.numUndos l.var r ≠ 0 := Nat.pos_iff_ne_zero.mp hcount
  obtain ⟨c, hc, -⟩ := h.reported hnum
  have hcounted : (w.notified r).length = c.kind.falsified := h.counted hc
  have hle : (w.undosOf l.var).count r ≤ c.kind.falsified := by
    rw [← hcounted, ← show (w.notified r).count l.var = (w.undosOf l.var).count r from
      Watches.count_notified w r l.var]
    exact List.count_le_length
  refine ⟨c, hc, Nat.le_trans ?_ hle⟩
  exact Nat.le_trans (Nat.mul_le_mul_right _ c.kind.tally_le_one) (Nat.le_of_eq (Nat.one_mul _))

/-- One assignment is taken back and those who counted it are told. -/
theorem unassign [CustomConstraint κ] {s s' : Arena κ} {a : Assignment} {w : Watches} {head : Nat}
    {l : Literal} (h : s.OnBoard ⟨a, w⟩ head) (hl : a.newest? = some l)
    (hrun : SearchState.undoAll l (w.undosOf l.var) s = .ok s') :
    s.Recounted s' ∧ s'.OnBoard ⟨a.unassign l, (w.takeUndos l.var).2⟩ head := by
  have hcon : a.Consistent := h.consistent
  have hcut : a.Cut (a.trues.length - 1) (a.unassign l) := a.cut_unassign l
  obtain ⟨hrec, hcount⟩ := SearchState.undoAll_spec h.ne_custom hrun
  refine ⟨hrec, hcon.unassign hl, ?_, ?_, ?_, ?_, ?_, ?_, ?_⟩
  · show (w.takeUndos l.var).2.Sized (a.unassign l).cells.size
    rw [hcut.size]
    exact h.sized.takeUndos _
  · intro r c hc
    obtain ⟨c₀, n, hc₀, rfl⟩ := hrec.of_alive hc
    show (c₀.kind.recounted n).WellFormed (a.unassign l).cells.size
    rw [hcut.size]
    exact (c₀.kind.similar_recounted n).wellFormed (h.wellFormed hc₀)
  · intro i m r hm hr
    have hm : (a.unassign l).trues[i]? = some m := hm
    have hi : i < (a.unassign l).trues.length := (List.getElem?_eq_some_iff.mp hm).1
    rw [hcut.trues, List.length_take] at hi
    have hr : (a.unassign l).reason? m.var = some r := hr
    rw [hcut.reason?_eq (hcon.unassign hl) (List.mem_of_getElem? hm)] at hr
    obtain ⟨c, hc, he⟩ := h.explained (hcut.getElem? hm) hr
    obtain ⟨n, hn⟩ := hrec.alive hc
    refine ⟨_, hn, ?_⟩
    show (c.kind.recounted n).Explains ((a.unassign l).trues.take i) m
    rw [Kind.explains_recounted, hcut.take (by omega)]
    exact he
  · intro r c hc m
    obtain ⟨c₀, n, hc₀, rfl⟩ := hrec.of_alive hc
    show w.numWatchers r m = (c₀.kind.recounted n).watched.count m
    rw [Kind.watched_recounted]
    exact h.watched hc₀ m
  · intro m e he
    obtain ⟨c, hc, hb⟩ := h.entries (l := m) (e := e) he
    obtain ⟨n, hn⟩ := hrec.alive hc
    exact ⟨_, hn, fun x hx => (Kind.blocks_recounted n x c.kind).mpr (hb x hx)⟩
  · intro r c hc
    show ((w.takeUndos l.var).2.notified r).length = c.kind.falsified
    obtain ⟨c₀, hc₀, -, -⟩ := hrec.agree.of_alive hc
    obtain ⟨c₁, hc₁, hfal⟩ := hcount hc₀
    rw [hc] at hc₁
    cases hc₁
    have hlen := Watches.length_notified_takeUndos w l.var r
    have hcounted : (w.notified r).length = c₀.kind.falsified := h.counted hc₀
    have hnum : w.numUndos l.var r = (w.undosOf l.var).count r := rfl
    rcases c₀.kind.tally_eq_one_or_falsified_eq_zero with hone | hzero
    · rw [hone, Nat.one_mul] at hfal
      omega
    · omega
  · intro v r hu
    change (w.takeUndos l.var).2.numUndos v r ≠ 0 at hu
    show ∃ c, s'.get? r = some c ∧ ∃ x ∈ (a.unassign l).trues.take head,
      x.var = v ∧ (w.takeUndos l.var).2.numUndos v r ≤ c.kind.reports (-x)
    rw [Watches.numUndos_takeUndos] at hu ⊢
    split at hu
    · exact absurd rfl hu
    · rename_i hv
      rw [if_neg hv]
      obtain ⟨c, hc, x, hx, hxv, hle⟩ := h.reported hu
      obtain ⟨n, hn⟩ := hrec.alive hc
      have hxl : x ≠ l := by
        rintro rfl
        exact hv hxv
      refine ⟨_, hn, x, Assignment.mem_take_unassign hl hx hxl, hxv, ?_⟩
      rw [Kind.reports_recounted]
      exact hle

/-- Forgetting levels that nothing is left of does not concern the constraints. -/
theorem closeLevels {s : Arena κ} {a : Assignment} {w : Watches} {head level : Nat}
    (h : s.OnBoard ⟨a, w⟩ head) (hcon : (a.closeLevels level).Consistent) :
    s.OnBoard ⟨a.closeLevels level, w⟩ head :=
  ⟨hcon, h.sized, h.wellFormed, h.explained, h.watched, h.entries, h.counted, h.reported⟩

end Arena.OnBoard

namespace SearchState

variable [CustomConstraint κ]

/-! ## Going back -/

/-- The parts of a state after all but the first `n` assignments were taken back. -/
structure Undone (n : Nat) (b : Board) (arena : Arena κ) (order : DecisionOrder Generator)
    (b' : Board) (arena' : Arena κ) (order' : DecisionOrder Generator) : Prop where
  cut : b.assignment.Cut n b'.assignment
  starts : b'.assignment.levelStarts = b.assignment.levelStarts
  recounted : arena.Recounted arena'
  lists : b'.watches.lists = b.watches.lists
  told : ∀ x ∈ b.assignment.trues.take n, ∀ r,
    b'.watches.numUndos x.var r = b.watches.numUndos x.var r
  ordered : order'.WellFormed b.assignment.cells.size
  offers : order.Offers b.assignment → order'.Offers b'.assignment
  allowed : order'.allowed = order.allowed

namespace Undone

omit [CustomConstraint κ] in
theorem refl {n : Nat} {b : Board} (arena : Arena κ) {order : DecisionOrder Generator}
    (ho : order.WellFormed b.assignment.cells.size) (hn : b.assignment.trues.length ≤ n) :
    Undone n b arena order b arena order :=
  ⟨.refl hn, rfl, .refl _, rfl, fun _ _ _ => rfl, ho, fun hoff => hoff, rfl⟩

omit [CustomConstraint κ] in
theorem trans {n m : Nat} {b₁ b₂ b₃ : Board} {arena₁ arena₂ arena₃ : Arena κ}
    {order₁ order₂ order₃ : DecisionOrder Generator}
    (h : Undone n b₁ arena₁ order₁ b₂ arena₂ order₂)
    (h' : Undone m b₂ arena₂ order₂ b₃ arena₃ order₃) (hm : m ≤ n) :
    Undone m b₁ arena₁ order₁ b₃ arena₃ order₃ where
  cut := h.cut.trans h'.cut hm
  starts := h'.starts.trans h.starts
  recounted := h.recounted.trans h'.recounted
  lists := h'.lists.trans h.lists
  told := fun x hx r =>
    (h'.told x ((h.cut.take hm).symm ▸ hx) r).trans
      (h.told x (List.take_subset_take_left _ hm hx) r)
  ordered := h.cut.size ▸ h'.ordered
  offers := fun hoff => h'.offers (h.offers hoff)
  allowed := h'.allowed.trans h.allowed

end Undone

omit [CustomConstraint κ] in
theorem undone_unassign {a : Assignment} {w : Watches} {arena arena' : Arena κ}
    {order : DecisionOrder Generator} {l : Literal} (hcon : a.Consistent) (hl : a.newest? = some l)
    (hrec : arena.Recounted arena') (ho : order.WellFormed a.cells.size) :
    Undone (a.trues.length - 1) ⟨a, w⟩ arena order ⟨a.unassign l, (w.takeUndos l.var).2⟩ arena'
      (order.onUnassign l) where
  cut := a.cut_unassign l
  starts := rfl
  recounted := hrec
  lists := rfl
  told := by
    intro x hx r
    have hx : x ∈ (a.unassign l).trues := (a.cut_unassign l).trues ▸ hx
    show (w.takeUndos l.var).2.numUndos x.var r = w.numUndos x.var r
    rw [Watches.numUndos_takeUndos, if_neg (hcon.var_ne_of_mem_unassign hl hx)]
  ordered := (ho.onUnassign l).1
  offers := fun hoff => hoff.onUnassign ho fun v hv ha => by
    have hcell := Assignment.cell?_unassign_of_ne a (Ne.symm hv)
    simpa only [Assignment.isAssigned, hcell] using ha
  allowed := (ho.onUnassign l).2.1

theorem undoNewest_spec {n : Nat} {b b' : Board} {arena arena' : Arena κ}
    {order order' : DecisionOrder Generator} {head : Nat} (h : arena.OnBoard b head)
    (ho : order.WellFormed b.assignment.cells.size)
    (hrun : undoNewest n b arena order = .ok (b', arena', order')) :
    arena'.OnBoard b' head ∧
      Undone (b.assignment.trues.length - n) b arena order b' arena' order' := by
  induction n generalizing b arena order with
  | zero =>
    cases hrun
    exact ⟨h, .refl _ ho (Nat.le_refl _)⟩
  | succ n ih =>
    obtain ⟨a, w⟩ := b
    unfold undoNewest at hrun
    split at hrun
    · rename_i hnone
      cases hrun
      have hnil : a.trues = [] := by
        rwa [Assignment.newest?_eq, List.getLast?_eq_none_iff] at hnone
      refine ⟨h, .refl _ ho ?_⟩
      show a.trues.length ≤ _
      rw [hnil]
      exact Nat.zero_le _
    · rename_i l hl
      obtain ⟨arena₁, harena₁, hrun⟩ := ok_of_bind hrun
      obtain ⟨hrec, hb₁⟩ := h.unassign hl harena₁
      have hu₁ := undone_unassign (w := w) h.consistent hl hrec ho
      have ho₁ : (order.onUnassign l).WellFormed (a.unassign l).cells.size :=
        hu₁.cut.size.symm ▸ hu₁.ordered
      obtain ⟨hb, hu⟩ := ih hb₁ ho₁ hrun
      have hlen : (a.unassign l).trues.length - n = a.trues.length - (n + 1) := by
        rw [Assignment.trues_unassign, List.length_dropLast]
        omega
      refine ⟨hb, hu₁.trans (hlen ▸ hu) ?_⟩
      show a.trues.length - (n + 1) ≤ a.trues.length - 1
      omega

theorem undoNewest_total (n : Nat) {b : Board} {arena : Arena κ} (order : DecisionOrder Generator)
    {head : Nat} (h : arena.OnBoard b head) :
    ∃ b' arena' order', undoNewest n b arena order = .ok (b', arena', order') := by
  induction n generalizing b arena order with
  | zero => exact ⟨b, arena, order, rfl⟩
  | succ n ih =>
    obtain ⟨a, w⟩ := b
    unfold undoNewest
    split
    · exact ⟨_, _, _, rfl⟩
    · rename_i l hl
      obtain ⟨arena₁, harena₁⟩ := h.undoAll_total l
      obtain ⟨-, hb₁⟩ := h.unassign hl harena₁
      simp only [Watches.takeUndos, harena₁, bind, Except.bind]
      exact ih (order.onUnassign l) hb₁

/-- All but the first `n` assignments were taken back. -/
structure Rewinds (n : Nat) (s s' : SearchState κ) : Prop where
  cut : s.assignment.Cut n s'.assignment
  recounted : s.arena.Recounted s'.arena
  lists : s'.board.watches.lists = s.board.watches.lists
  told : ∀ x ∈ s.assignment.trues.take n, ∀ r,
    s'.board.watches.numUndos x.var r = s.board.watches.numUndos x.var r
  learned : s'.learned = s.learned
  allowed : s'.order.allowed = s.order.allowed

omit [CustomConstraint κ] in
/-- What was settled on a part of the trail that is left stays settled on it. -/
theorem Rewinds.settles {n m : Nat} {s s' : SearchState κ} (h : s.Rewinds n s') (hm : m ≤ n)
    (hs : s.arena.Settles s.board.watches (s.assignment.trues.take m)
      (s.assignment.trues.take m)) :
    s'.arena.Settles s'.board.watches (s.assignment.trues.take m) (s.assignment.trues.take m) := by
  intro r c hc hl
  obtain ⟨c₀, k, hc₀, rfl⟩ := h.recounted.of_alive hc
  show (c₀.kind.recounted k).Settled _ _ _
  rw [Kind.settled_recounted]
  refine (hs r c₀ hc₀ hl).congr_told fun x hx => ?_
  exact h.told x (List.take_subset_take_left _ hm hx) r

omit [CustomConstraint κ] in
theorem rewinds_of_undone {n : Nat} {a a' : Assignment} {w w' : Watches} {arena arena' : Arena κ}
    {learned : LearnedDatabase} {order order' : DecisionOrder Generator} {head head' : Nat}
    (h : Undone n ⟨a, w⟩ arena order ⟨a', w'⟩ arena' order') {a'' : Assignment}
    (htrues : a''.trues = a'.trues) (hcells : a''.cells = a'.cells) :
    (⟨⟨a, w⟩, arena, learned, order, head⟩ : SearchState κ).Rewinds n
      ⟨⟨a'', w'⟩, arena', learned, order', head'⟩ := by
  refine ⟨⟨htrues.trans h.cut.trues, fun {v c} hc => h.cut.cell ?_,
    (congrArg Array.size hcells).trans h.cut.size⟩, h.recounted, h.lists, h.told, rfl, h.allowed⟩
  have hc' : a''.cell? v = some c := hc
  rw [← hc']
  simp only [Assignment.cell?, hcells]

/-- As many assignments are taken back as there are beyond the first `n`. -/
theorem undoNewest_beyond {n : Nat} {a : Assignment} {w : Watches} {b' : Board}
    {arena arena' : Arena κ} {order order' : DecisionOrder Generator} {head : Nat}
    (h : arena.OnBoard ⟨a, w⟩ head) (ho : order.WellFormed a.cells.size) (hn : n ≤ a.trues.length)
    (hrun : undoNewest (a.trail.size - n) ⟨a, w⟩ arena order = .ok (b', arena', order')) :
    arena'.OnBoard b' head ∧ Undone n ⟨a, w⟩ arena order b' arena' order' ∧
      b'.assignment.trues.length = n := by
  obtain ⟨hb', hu⟩ := undoNewest_spec h ho hrun
  have hlen : a.trues.length - (a.trail.size - n) = n := by
    rw [Assignment.size_trail]
    omega
  have hu : Undone n ⟨a, w⟩ arena order b' arena' order' := hlen ▸ hu
  refine ⟨hb', hu, ?_⟩
  rw [hu.cut.trues, List.length_take]
  exact Nat.min_eq_left hn

/-- Going back leaves what was there when the level above was opened. -/
theorem backtrack_spec {level : Nat} {s s' : SearchState κ} (h : s.WellFormed)
    (hrun : s.backtrack level = .ok s') :
    (s.decisionLevel ≤ level ∧ s' = s) ∨
      (level < s.decisionLevel ∧ s.Rewinds (s.assignment.startOfLevel (level + 1)) s' ∧
        s'.WellFormed ∧ s'.head = s'.assignment.trues.length ∧
        s'.assignment.levelStarts.toList = s.assignment.levelStarts.toList.take level) := by
  obtain ⟨⟨a, w⟩, arena, learned, order, head⟩ := s
  simp only [SearchState.backtrack] at hrun
  split at hrun
  · rename_i hle
    cases hrun
    exact Or.inl ⟨hle, rfl⟩
  · rename_i hlt
    have hlt : level < a.decisionLevel := Nat.lt_of_not_le hlt
    refine Or.inr ⟨hlt, ?_⟩
    obtain ⟨⟨⟨a', w'⟩, arena', order'⟩, hundo, hrun⟩ := ok_of_bind hrun
    cases hrun
    have hsorted : a.levelStarts.toList.Pairwise (· ≤ ·) := h.layered.sorted
    have hstart : a.startOfLevel (level + 1) ≤ a.trues.length :=
      h.layered.le_length _ (Assignment.startOfLevel_mem hlt)
    have hb : arena.OnBoard ⟨a, w⟩ head := h.onBoard
    obtain ⟨hb', hu, hlen⟩ := undoNewest_beyond hb h.order hstart hundo
    have hlen : a'.trues.length = a.startOfLevel (level + 1) := hlen
    have hstarts : a'.levelStarts = a.levelStarts := hu.starts
    have hcon : (a'.closeLevels level).Consistent := by
      refine hb'.consistent.closeLevels fun m hm => ?_
      rw [hstarts] at hm
      rw [hlen]
      exact Assignment.startOfLevel_le_of_mem_drop hsorted hlt hm
    have hlevels : (a'.closeLevels level).levelStarts.toList = a.levelStarts.toList.take level := by
      rw [Assignment.levelStarts_closeLevels, hstarts]
    have hle : ∀ m ∈ (a'.closeLevels level).levelStarts.toList, m ≤ a'.trues.length := by
      intro m hm
      rw [hlevels] at hm
      rw [hlen]
      exact Assignment.le_startOfLevel_of_mem_take hsorted hlt hm
    have hhead : (a'.closeLevels level).trail.size = a'.trues.length := Assignment.size_trail _
    refine ⟨rewinds_of_undone hu rfl rfl, ⟨(hhead ▸ hb'.full).closeLevels hcon, ⟨?_, hle⟩,
      Nat.le_of_eq hhead, ?_, hu.recounted.agree.tidy h.tidy,
      h.lists.agree rfl hu.recounted.agree, hu.cut.size ▸ hu.ordered, hu.offers h.offers⟩, hhead,
      hlevels⟩
    · show (a'.closeLevels level).levelStarts.toList.Pairwise (· ≤ ·)
      rw [hlevels]
      exact List.Pairwise.sublist (List.take_sublist level _) hsorted
    · intro m hm
      rw [hhead]
      exact hle m hm

/-- Going back is always possible. -/
theorem backtrack_total {s : SearchState κ} (h : s.WellFormed) (level : Nat) :
    ∃ s', s.backtrack level = .ok s' := by
  obtain ⟨⟨a, w⟩, arena, learned, order, head⟩ := s
  have hb : arena.OnBoard ⟨a, w⟩ head := h.onBoard
  simp only [SearchState.backtrack]
  split
  · exact ⟨_, rfl⟩
  · obtain ⟨⟨a', w'⟩, arena', order', hundo⟩ :=
      undoNewest_total (a.trail.size - a.startOfLevel (level + 1)) order hb
    rw [hundo]
    exact ⟨_, rfl⟩

/-- Root facts beyond a point are taken back. -/
theorem backtrackRoot_spec {n : Nat} {s s' : SearchState κ} (h : s.WellFormed)
    (hn : n ≤ s.assignment.trues.length) (hrun : s.backtrackRoot n = .ok s') :
    s.decisionLevel = 0 ∧ s.Rewinds n s' ∧ s'.WellFormed ∧
      s'.head = s'.assignment.trues.length ∧ s'.decisionLevel = 0 := by
  obtain ⟨⟨a, w⟩, arena, learned, order, head⟩ := s
  simp only [SearchState.backtrackRoot] at hrun
  split at hrun
  · cases hrun
  · rename_i hroot
    have hroot : a.decisionLevel = 0 := by simpa using hroot
    obtain ⟨⟨⟨a', w'⟩, arena', order'⟩, hundo, hrun⟩ := ok_of_bind hrun
    cases hrun
    have hb : arena.OnBoard ⟨a, w⟩ head := h.onBoard
    obtain ⟨hb', hu, -⟩ := undoNewest_beyond hb h.order hn hundo
    have hstarts : a'.levelStarts = a.levelStarts := hu.starts
    have hnone : a'.levelStarts.toList = [] := by
      rw [hstarts]
      simpa [Assignment.decisionLevel] using hroot
    have hhead : a'.trail.size = a'.trues.length := Assignment.size_trail _
    have hnever : ∀ {m : Nat}, m ∉ a'.levelStarts.toList := by
      rw [hnone]
      exact List.not_mem_nil
    refine ⟨hroot, rewinds_of_undone hu rfl rfl,
      ⟨hhead ▸ hb'.full, ⟨?_, ?_⟩, Nat.le_of_eq hhead, ?_,
      hu.recounted.agree.tidy h.tidy, h.lists.agree rfl hu.recounted.agree,
      hu.cut.size ▸ hu.ordered, hu.offers h.offers⟩, hhead, ?_⟩
    · show a'.levelStarts.toList.Pairwise _
      rw [hnone]
      exact List.Pairwise.nil
    · exact fun m hm => absurd hm hnever
    · exact fun m hm => absurd hm hnever
    · show a'.levelStarts.size = 0
      rw [hstarts]
      exact hroot

end SearchState

end ClauseLearning
