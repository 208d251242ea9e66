import ClauseLearning.Valuation
import Mathlib.Data.List.Perm.Subperm

/-!
# The trail and the cells

The trail alone says which literals are true: under `Assignment.Consistent` the cells repeat it,
with the place on the trail and the level that this place belongs to. Statements about the search
are made about the list `Assignment.trues`, of which going back keeps a first part and assigning
keeps everything.

* `Consistent.isSatisfied_iff`, `Consistent.isFalsified_iff`: reading a cell is looking at the
  trail.
* `Consistent.assign`, `Consistent.unassign`: the two changes of a single variable.
* `Extension`: an assignment that made more literals true on the current level.
-/

namespace ClauseLearning

theorem mem_take_iff {α : Type} {xs : List α} {n : Nat} {x : α} :
    x ∈ xs.take n ↔ ∃ i, i < n ∧ xs[i]? = some x := by
  rw [List.mem_iff_getElem?]
  constructor
  · rintro ⟨i, hi⟩
    rw [List.getElem?_take] at hi
    split at hi
    · exact ⟨i, by assumption, hi⟩
    · cases hi
  · rintro ⟨i, hlt, hi⟩
    exact ⟨i, by rw [List.getElem?_take_of_lt hlt, hi]⟩

theorem false_of_getElem? {α : Type} {xs : List α} {i : Nat} {x : α} (hi : xs.length ≤ i)
    (hx : xs[i]? = some x) : False := by
  rw [List.getElem?_eq_none hi] at hx
  cases hx

/-- An array that is extended by the default value reads as before. -/
theorem getD_append_replicate {α : Type} (xs : Array α) (n : Nat) (x : α) (k : Nat) :
    (xs ++ Array.replicate n x)[k]?.getD x = xs[k]?.getD x := by
  rw [Array.getElem?_append]
  split
  · rfl
  · rename_i hk
    rw [Array.getElem?_replicate, Array.getElem?_eq_none (Nat.le_of_not_lt hk)]
    split <;> rfl

/-- Of a variable that occurs in a list, one of the two literals is in it. -/
theorem Literal.mem_or_negate_mem {ls : List Literal} {l : Literal}
    (h : l.var ∈ ls.map Literal.var) : l ∈ ls ∨ -l ∈ ls := by
  obtain ⟨m, hm, hv⟩ := List.mem_map.mp h
  by_cases hp : m.isPositive = l.isPositive
  · exact Or.inl (Literal.ext_var hv hp ▸ hm)
  · refine Or.inr (Literal.ext_var (l := m) (m := -l) (by simpa using hv) ?_ ▸ hm)
    rw [Literal.isPositive_negate]
    cases hm' : m.isPositive <;> cases hl' : l.isPositive <;> simp_all

namespace Assignment

/-- The true literals, oldest first. -/
def trues (a : Assignment) : List Literal := a.trail.toList

/-- How many levels were opened before the trail grew beyond position `i`. -/
def levelAt (a : Assignment) (i : Nat) : Nat := a.levelStarts.toList.countP fun m => decide (m ≤ i)

/-- The cells say of the trail what is true of it. -/
structure Consistent (a : Assignment) : Prop where
  cell_of_getElem? : ∀ {i l}, a.trues[i]? = some l →
    ∃ c, a.cell? l.var = some c ∧ c.value = l.isPositive ∧ c.position = i
  getElem?_of_cell : ∀ {v c}, a.cell? v = some c → a.trues[c.position]? = some (.make v c.value)
  level_of_cell : ∀ {v c}, a.cell? v = some c → c.level = a.levelAt c.position
  cell_zero : a.cell? 0 = none

/-- Levels were opened in order, each at the end of the trail of its time. -/
structure Layered (a : Assignment) : Prop where
  sorted : a.levelStarts.toList.Pairwise (· ≤ ·)
  le_length : ∀ m ∈ a.levelStarts.toList, m ≤ a.trues.length

theorem size_trail (a : Assignment) : a.trail.size = a.trues.length := by
  simp [trues]

theorem getElem?_trail (a : Assignment) (i : Nat) : a.trail[i]? = a.trues[i]? := by
  simp [trues]

theorem lt_size_of_cell {a : Assignment} {v : Nat} {c : Cell} (h : a.cell? v = some c) :
    v < a.cells.size := by
  by_contra hv
  simp [cell?, Array.getElem?_eq_none (Nat.le_of_not_lt hv)] at h

namespace Consistent

variable {a : Assignment} (h : a.Consistent)
include h

theorem cell_of_mem {l : Literal} (hl : l ∈ a.trues) :
    ∃ c, a.cell? l.var = some c ∧ c.value = l.isPositive ∧ a.trues[c.position]? = some l := by
  obtain ⟨i, hi⟩ := List.mem_iff_getElem?.mp hl
  obtain ⟨c, hc, hv, hp⟩ := h.cell_of_getElem? hi
  exact ⟨c, hc, hv, hp ▸ hi⟩

theorem mem_of_cell {v : Nat} {c : Cell} (hc : a.cell? v = some c) :
    Literal.make v c.value ∈ a.trues :=
  List.mem_of_getElem? (h.getElem?_of_cell hc)

theorem position_lt {v : Nat} {c : Cell} (hc : a.cell? v = some c) :
    c.position < a.trues.length :=
  (List.getElem?_eq_some_iff.mp (h.getElem?_of_cell hc)).1

theorem isSatisfied_iff (l : Literal) : a.isSatisfied l = true ↔ l ∈ a.trues := by
  constructor
  · intro hl
    unfold isSatisfied at hl
    split at hl
    · rename_i c hc
      have hmem := h.mem_of_cell hc
      rwa [beq_iff_eq.mp hl, Literal.make_var_isPositive] at hmem
    · cases hl
  · intro hl
    obtain ⟨c, hc, hv, -⟩ := h.cell_of_mem hl
    simp [isSatisfied, hc, hv]

theorem isFalsified_iff (l : Literal) : a.isFalsified l = true ↔ -l ∈ a.trues := by
  rw [Assignment.isFalsified_iff, h.isSatisfied_iff]

theorem isAssigned_iff (v : Nat) : a.isAssigned v = true ↔ v ∈ a.trues.map Literal.var := by
  rw [List.mem_map]
  constructor
  · intro hv
    obtain ⟨c, hc⟩ := Option.isSome_iff_exists.mp hv
    exact ⟨_, h.mem_of_cell hc, Literal.var_make v c.value⟩
  · rintro ⟨l, hl, rfl⟩
    obtain ⟨c, hc, -⟩ := h.cell_of_mem hl
    simp [isAssigned, hc]

theorem isUnassigned_iff (l : Literal) :
    a.isUnassigned l = true ↔ l.var ∉ a.trues.map Literal.var := by
  rw [← h.isAssigned_iff]
  simp [isUnassigned, isAssigned]

/-- No variable is on the trail twice. -/
theorem getElem?_inj {i j : Nat} {l m : Literal} (hi : a.trues[i]? = some l)
    (hj : a.trues[j]? = some m) (hv : l.var = m.var) : i = j := by
  obtain ⟨c, hc, -, hci⟩ := h.cell_of_getElem? hi
  obtain ⟨d, hd, -, hdj⟩ := h.cell_of_getElem? hj
  rw [hv, hd] at hc
  cases hc
  omega

theorem nodup_var : (a.trues.map Literal.var).Nodup := by
  rw [List.Nodup, List.pairwise_map, List.pairwise_iff_getElem]
  intro i j hi hj hij heq
  have := h.getElem?_inj (List.getElem?_eq_getElem hi) (List.getElem?_eq_getElem hj) heq
  omega

theorem nodup_trues : a.trues.Nodup :=
  (List.pairwise_map.mp h.nodup_var).imp fun hne heq => hne (congrArg Literal.var heq)

theorem eq_of_var {l m : Literal} (hl : l ∈ a.trues) (hm : m ∈ a.trues) (hv : l.var = m.var) :
    l = m := by
  obtain ⟨i, hi⟩ := List.mem_iff_getElem?.mp hl
  obtain ⟨j, hj⟩ := List.mem_iff_getElem?.mp hm
  have := h.getElem?_inj hi hj hv
  subst this
  exact Option.some.inj (hi.symm.trans hj)

theorem var_ne_of_mem_take {i : Nat} {l m : Literal} (hi : a.trues[i]? = some l)
    (hm : m ∈ a.trues.take i) : m.var ≠ l.var := by
  intro hv
  obtain ⟨j, hlt, hj⟩ := mem_take_iff.mp hm
  have := h.getElem?_inj hj hi hv
  omega

theorem not_mem_of_negate_mem {l : Literal} (hl : -l ∈ a.trues) : l ∉ a.trues := fun hm =>
  Literal.negate_ne l (h.eq_of_var hl hm (Literal.var_negate l))

theorem var_ne_zero {l : Literal} (hl : l ∈ a.trues) : l.var ≠ 0 := by
  intro hv
  obtain ⟨c, hc, -⟩ := h.cell_of_mem hl
  rw [hv, h.cell_zero] at hc
  cases hc

theorem var_lt {l : Literal} (hl : l ∈ a.trues) : l.var < a.cells.size := by
  obtain ⟨c, hc, -⟩ := h.cell_of_mem hl
  exact lt_size_of_cell hc

theorem position?_eq {i : Nat} {l : Literal} (hi : a.trues[i]? = some l) :
    a.position? l.var = some i := by
  obtain ⟨c, hc, -, hp⟩ := h.cell_of_getElem? hi
  simp [position?, hc, hp]

theorem level?_eq {i : Nat} {l : Literal} (hi : a.trues[i]? = some l) :
    a.level? l.var = some (a.levelAt i) := by
  obtain ⟨c, hc, -, hp⟩ := h.cell_of_getElem? hi
  simp [level?, hc, h.level_of_cell hc, hp]

theorem levelOf_eq {i : Nat} {l : Literal} (hi : a.trues[i]? = some l) :
    a.levelOf l.var = a.levelAt i := by
  simp [levelOf, h.level?_eq hi]

theorem satisfiedLiteral?_eq {v : Nat} {l : Literal} :
    a.satisfiedLiteral? v = some l ↔ l ∈ a.trues ∧ l.var = v := by
  unfold satisfiedLiteral?
  rw [Option.map_eq_some_iff]
  constructor
  · rintro ⟨c, hc, rfl⟩
    exact ⟨h.mem_of_cell hc, Literal.var_make v c.value⟩
  · rintro ⟨hl, rfl⟩
    obtain ⟨c, hc, hv, -⟩ := h.cell_of_mem hl
    exact ⟨c, hc, by rw [hv, Literal.make_var_isPositive]⟩

end Consistent

/-! ## Levels -/

theorem levelAt_le (a : Assignment) (i : Nat) : a.levelAt i ≤ a.decisionLevel := by
  simpa [levelAt, decisionLevel] using
    List.countP_le_length (p := fun m => decide (m ≤ i)) (l := a.levelStarts.toList)

theorem levelAt_mono (a : Assignment) {i j : Nat} (hij : i ≤ j) : a.levelAt i ≤ a.levelAt j := by
  apply List.countP_mono_left
  intro m _ hm
  simp only [decide_eq_true_eq] at hm ⊢
  omega

theorem levelAt_eq_decisionLevel {a : Assignment} {i : Nat}
    (hi : ∀ m ∈ a.levelStarts.toList, m ≤ i) : a.levelAt i = a.decisionLevel := by
  have : a.levelStarts.toList.countP (fun m => decide (m ≤ i)) = a.levelStarts.toList.length :=
    List.countP_eq_length.mpr fun m hm => by simpa using hi m hm
  simpa [levelAt, decisionLevel] using this

theorem countP_take_add (p : Nat → Bool) (xs : List Nat) (k : Nat) :
    xs.countP p = (xs.take k).countP p + (xs.drop k).countP p := by
  rw [← List.countP_append, List.take_append_drop]

/-- The starts from level `level + 1` on begin with that of level `level + 1`. -/
theorem drop_levelStarts {a : Assignment} {level : Nat} (hl : level < a.decisionLevel) :
    a.levelStarts.toList.drop level =
      a.startOfLevel (level + 1) :: a.levelStarts.toList.drop (level + 1) := by
  have hsize : level < a.levelStarts.size := hl
  rw [List.drop_eq_getElem_cons (Array.length_toList ▸ hsize), Array.getElem_toList, startOfLevel,
    Array.getElem?_eq_getElem hsize, Option.getD_some]

/-- The levels up to `level` start before level `level + 1` does. -/
theorem le_startOfLevel_of_mem_take {a : Assignment} (hs : a.levelStarts.toList.Pairwise (· ≤ ·))
    {level m : Nat} (hl : level < a.decisionLevel) (hm : m ∈ a.levelStarts.toList.take level) :
    m ≤ a.startOfLevel (level + 1) := by
  rw [← List.take_append_drop level a.levelStarts.toList] at hs
  refine (List.pairwise_append.mp hs).2.2 m hm _ ?_
  rw [drop_levelStarts hl]
  exact List.mem_cons_self

/-- The levels from `level + 1` on do not start before level `level + 1` does. -/
theorem startOfLevel_le_of_mem_drop {a : Assignment} (hs : a.levelStarts.toList.Pairwise (· ≤ ·))
    {level m : Nat} (hl : level < a.decisionLevel) (hm : m ∈ a.levelStarts.toList.drop level) :
    a.startOfLevel (level + 1) ≤ m := by
  have hdrop := List.Pairwise.sublist (List.drop_sublist level _) hs
  rw [drop_levelStarts hl] at hdrop hm
  rcases List.mem_cons.mp hm with rfl | hm
  · exact Nat.le_refl _
  · exact (List.pairwise_cons.mp hdrop).1 m hm

/-- Level `level + 1` starts behind everything of the levels up to `level`. -/
theorem lt_startOfLevel_iff {a : Assignment} (hs : a.levelStarts.toList.Pairwise (· ≤ ·))
    {level i : Nat} (hi : i < a.trail.size) :
    i < a.startOfLevel (level + 1) ↔ a.levelAt i ≤ level := by
  rw [levelAt, countP_take_add _ a.levelStarts.toList level]
  have htake : (a.levelStarts.toList.take level).countP (fun k => decide (k ≤ i)) ≤ level :=
    Nat.le_trans List.countP_le_length (by rw [List.length_take]; omega)
  by_cases hl : level < a.decisionLevel
  · constructor
    · intro hlt
      have hzero : (a.levelStarts.toList.drop level).countP (fun k => decide (k ≤ i)) = 0 :=
        List.countP_eq_zero.mpr fun k hk => by
          have := startOfLevel_le_of_mem_drop hs hl hk
          simp only [decide_eq_true_eq]
          omega
      omega
    · intro hle
      by_contra hlt
      -- Otherwise the levels up to `level` and the next one start before `i` does.
      have hall : (a.levelStarts.toList.take level).countP (fun k => decide (k ≤ i)) = level := by
        rw [List.countP_eq_length.mpr fun k hk => ?_, List.length_take]
        · have : a.levelStarts.toList.length = a.decisionLevel := rfl
          omega
        · have := le_startOfLevel_of_mem_take hs hl hk
          simp only [decide_eq_true_eq]
          omega
      have hnext : a.startOfLevel (level + 1) ≤ i := Nat.le_of_not_lt hlt
      have hpos : 0 < (a.levelStarts.toList.drop level).countP (fun k => decide (k ≤ i)) :=
        List.countP_pos_iff.mpr ⟨_, by rw [drop_levelStarts hl]; exact List.mem_cons_self,
          decide_eq_true hnext⟩
      omega
  · have hnone : a.levelStarts[level]? = none := Array.getElem?_eq_none (Nat.le_of_not_lt hl)
    have hdrop : a.levelStarts.toList.drop level = [] :=
      List.drop_eq_nil_of_le (Nat.le_of_not_lt hl)
    rw [startOfLevel, hnone, Option.getD_none, hdrop, List.countP_nil]
    exact iff_of_true hi htake

/-- A position that starts one of the levels up to `level` is among their starts. -/
theorem mem_take_levelStarts {a : Assignment} (hs : a.levelStarts.toList.Pairwise (· ≤ ·))
    {level i : Nat} (hmem : i ∈ a.levelStarts.toList) (hi : a.levelAt i ≤ level) :
    i ∈ a.levelStarts.toList.take level := by
  rw [levelAt, countP_take_add _ a.levelStarts.toList level] at hi
  rw [← List.take_append_drop level a.levelStarts.toList] at hs hmem
  rcases List.mem_append.mp hmem with hmem | hmem
  · exact hmem
  · -- All levels up to `level` start before `i`, which is one more start then.
    have hfront : (a.levelStarts.toList.take level).countP (fun m => decide (m ≤ i)) = level := by
      have hbefore := (List.pairwise_append.mp hs).2.2
      rw [List.countP_eq_length.mpr fun m hm => decide_eq_true (hbefore m hm i hmem),
        List.length_take]
      have hlen := List.length_pos_of_mem hmem
      rw [List.length_drop] at hlen
      omega
    have hback : 0 < (a.levelStarts.toList.drop level).countP (fun m => decide (m ≤ i)) :=
      List.countP_pos_iff.mpr ⟨i, hmem, decide_eq_true (Nat.le_refl i)⟩
    omega

theorem startOfLevel_mem {a : Assignment} {level : Nat} (hl : level < a.decisionLevel) :
    a.startOfLevel (level + 1) ∈ a.levelStarts.toList := by
  have hget : a.levelStarts[level]? = some a.levelStarts[level] := Array.getElem?_eq_getElem hl
  simp only [startOfLevel, hget, Option.getD_some]
  exact Array.mem_toList_iff.mpr (Array.getElem_mem hl)

/-! ## Single changes -/

theorem trues_assign (a : Assignment) (l : Literal) (r : Option Reference) :
    (a.assign l r).trues = a.trues ++ [l] := by
  simp [assign, trues]

theorem size_cells_assign (a : Assignment) (l : Literal) (r : Option Reference) :
    (a.assign l r).cells.size = a.cells.size := by
  simp [assign]

theorem Consistent.assign {a : Assignment} (h : a.Consistent)
    (hs : ∀ m ∈ a.levelStarts.toList, m ≤ a.trues.length) {l : Literal} (r : Option Reference)
    (hl : a.cell? l.var = none) (hlt : l.var < a.cells.size) (hz : l.var ≠ 0) :
    (a.assign l r).Consistent := by
  have hself := cell?_assign_self (a := a) r hlt
  have hother : ∀ v, l.var ≠ v → (a.assign l r).cell? v = a.cell? v := fun v hv =>
    cell?_assign_of_ne a r hv
  refine ⟨?_, ?_, ?_, ?_⟩
  · intro i m hm
    rw [trues_assign] at hm
    by_cases hi : i < a.trues.length
    · rw [List.getElem?_append_left hi] at hm
      obtain ⟨c, hc, hrest⟩ := h.cell_of_getElem? hm
      refine ⟨c, ?_, hrest⟩
      rw [hother, hc]
      intro hv
      rw [hv, hc] at hl
      cases hl
    · rw [List.getElem?_append_right (by omega), List.getElem?_singleton] at hm
      split at hm
      · cases hm
        exact ⟨_, hself, rfl, by simp only [size_trail]; omega⟩
      · cases hm
  · intro v c hc
    by_cases hv : l.var = v
    · subst hv
      rw [hself] at hc
      cases hc
      rw [trues_assign, Literal.make_var_isPositive]
      simp [size_trail]
    · rw [hother v hv] at hc
      rw [trues_assign, List.getElem?_append_left (h.position_lt hc)]
      exact h.getElem?_of_cell hc
  · intro v c hc
    show c.level = a.levelAt c.position
    by_cases hv : l.var = v
    · subst hv
      rw [hself] at hc
      cases hc
      exact (levelAt_eq_decisionLevel (by simpa [size_trail] using hs)).symm
    · rw [hother v hv] at hc
      exact h.level_of_cell hc
  · rw [hother 0 hz]
    exact h.cell_zero

theorem cell?_unassign_self (a : Assignment) (l : Literal) : (a.unassign l).cell? l.var = none := by
  simp only [unassign, cell?, Array.getElem?_setIfInBounds_self]
  split <;> rfl

theorem cell?_unassign_of_ne (a : Assignment) {l : Literal} {v : Nat} (hv : l.var ≠ v) :
    (a.unassign l).cell? v = a.cell? v := by
  simp [unassign, cell?, hv]

theorem trues_unassign (a : Assignment) (l : Literal) :
    (a.unassign l).trues = a.trues.dropLast := by
  simp [unassign, trues]

theorem newest?_eq (a : Assignment) : a.newest? = a.trues.getLast? := by
  simp [newest?, trues, Array.getLast?_toList]

/-- The newest literal stands behind what is left without it. -/
theorem trues_eq_concat {a : Assignment} {l : Literal} (hl : a.newest? = some l) :
    a.trues = (a.unassign l).trues ++ [l] := by
  rw [newest?_eq] at hl
  obtain ⟨front, hfront⟩ := List.getLast?_eq_some_iff.mp hl
  rw [trues_unassign, hfront, List.dropLast_concat]

/-- A variable that keeps its value is not that of the literal taken back. -/
theorem cell?_of_cell?_unassign {a : Assignment} {l : Literal} {v : Nat} {c : Cell}
    (h : (a.unassign l).cell? v = some c) : l.var ≠ v ∧ a.cell? v = some c := by
  have hv : l.var ≠ v := by
    rintro rfl
    rw [cell?_unassign_self] at h
    cases h
  exact ⟨hv, cell?_unassign_of_ne a hv ▸ h⟩

theorem Consistent.unassign {a : Assignment} (h : a.Consistent) {l : Literal}
    (hl : a.newest? = some l) : (a.unassign l).Consistent := by
  have htrues := trues_eq_concat hl
  have hlast : a.trues[(a.unassign l).trues.length]? = some l := by
    rw [htrues, List.getElem?_concat_length]
  refine ⟨?_, ?_, ?_, ?_⟩
  · intro i m hm
    have hi : i < (a.unassign l).trues.length := (List.getElem?_eq_some_iff.mp hm).1
    have hm' : a.trues[i]? = some m := by rw [htrues, List.getElem?_append_left hi, hm]
    obtain ⟨c, hc, hrest⟩ := h.cell_of_getElem? hm'
    refine ⟨c, ?_, hrest⟩
    rw [cell?_unassign_of_ne, hc]
    intro hv
    have := h.getElem?_inj hlast hm' hv
    omega
  · intro v c hc
    obtain ⟨hv, hc⟩ := cell?_of_cell?_unassign hc
    have hget := h.getElem?_of_cell hc
    by_cases hi : c.position < (a.unassign l).trues.length
    · rwa [htrues, List.getElem?_append_left hi] at hget
    · exfalso
      have hlt := h.position_lt hc
      rw [htrues, List.length_append, List.length_singleton] at hlt
      have hpos : c.position = (a.unassign l).trues.length := by omega
      rw [hpos, hlast] at hget
      apply hv
      rw [Option.some.inj hget, Literal.var_make]
  · intro v c hc
    exact h.level_of_cell (cell?_of_cell?_unassign hc).2
  · by_cases hv : l.var = 0
    · rw [← hv]
      exact cell?_unassign_self a l
    · rw [cell?_unassign_of_ne a hv]
      exact h.cell_zero

theorem levelStarts_openLevel (a : Assignment) :
    a.openLevel.levelStarts.toList = a.levelStarts.toList ++ [a.trues.length] := by
  simp [openLevel, trues]

theorem Consistent.openLevel {a : Assignment} (h : a.Consistent) : a.openLevel.Consistent := by
  refine ⟨h.cell_of_getElem?, h.getElem?_of_cell, ?_, h.cell_zero⟩
  intro v c hc
  have hlt := h.position_lt hc
  have hnot : ¬ a.trues.length ≤ c.position := by omega
  rw [h.level_of_cell hc, levelAt, levelAt, levelStarts_openLevel, List.countP_append]
  simp [hnot]

theorem Layered.openLevel {a : Assignment} (h : a.Layered) : a.openLevel.Layered := by
  refine ⟨?_, ?_⟩
  · rw [levelStarts_openLevel, List.pairwise_append]
    refine ⟨h.sorted, List.pairwise_singleton _ _, ?_⟩
    intro m hm n hn
    rw [List.mem_singleton.mp hn]
    exact h.le_length m hm
  · intro m hm
    rw [levelStarts_openLevel] at hm
    rcases List.mem_append.mp hm with hm | hm
    · exact h.le_length m hm
    · rw [List.mem_singleton.mp hm]
      exact Nat.le_refl _

theorem levelStarts_closeLevels (a : Assignment) (level : Nat) :
    (a.closeLevels level).levelStarts.toList = a.levelStarts.toList.take level := by
  simp [closeLevels]

/-- Levels that nothing is left of can be forgotten. -/
theorem Consistent.closeLevels {a : Assignment} (h : a.Consistent) {level : Nat}
    (hbeyond : ∀ m ∈ a.levelStarts.toList.drop level, a.trues.length ≤ m) :
    (a.closeLevels level).Consistent := by
  refine ⟨h.cell_of_getElem?, h.getElem?_of_cell, ?_, h.cell_zero⟩
  intro v c hc
  have hlt := h.position_lt hc
  rw [h.level_of_cell hc, levelAt, levelAt, levelStarts_closeLevels, countP_take_add _ _ level]
  have hzero : (a.levelStarts.toList.drop level).countP (fun m => decide (m ≤ c.position)) = 0 :=
    List.countP_eq_zero.mpr fun m hm => by
      have := hbeyond m hm
      simp only [decide_eq_true_eq]
      omega
  omega

theorem size_cells_clearReason (a : Assignment) (v : Nat) :
    (a.clearReason v).cells.size = a.cells.size := by
  simp [clearReason]

theorem cell?_clearReason (a : Assignment) (v w : Nat) :
    (a.clearReason v).cell? w =
      if v = w then (a.cell? w).map fun c => { c with reason := none } else a.cell? w := by
  by_cases hv : v = w
  · subst hv
    simp only [clearReason, cell?, Array.getElem?_modify, if_true]
    cases a.cells[v]? with
    | none => rfl
    | some o => cases o <;> rfl
  · simp [clearReason, cell?, Array.getElem?_modify, hv]

theorem Consistent.clearReason {a : Assignment} (h : a.Consistent) (v : Nat) :
    (a.clearReason v).Consistent := by
  refine ⟨?_, ?_, ?_, ?_⟩
  · intro i l hl
    obtain ⟨c, hc, hv, hp⟩ := h.cell_of_getElem? hl
    rw [cell?_clearReason, hc]
    split
    · exact ⟨_, rfl, hv, hp⟩
    · exact ⟨_, rfl, hv, hp⟩
  · intro w c hc
    rw [cell?_clearReason] at hc
    split at hc
    · obtain ⟨d, hd, rfl⟩ := Option.map_eq_some_iff.mp hc
      have hget := h.getElem?_of_cell hd
      exact hget
    · exact h.getElem?_of_cell hc
  · intro w c hc
    rw [cell?_clearReason] at hc
    split at hc
    · obtain ⟨d, hd, rfl⟩ := Option.map_eq_some_iff.mp hc
      have hlevel := h.level_of_cell hd
      exact hlevel
    · exact h.level_of_cell hc
  · rw [cell?_clearReason, h.cell_zero]
    split <;> rfl

theorem trues_grow (a : Assignment) (n : Nat) : (a.grow n).trues = a.trues := rfl

theorem size_cells_grow (a : Assignment) (n : Nat) :
    (a.grow n).cells.size = max a.cells.size (n + 1) := by
  simp [grow]
  omega

theorem cell?_grow (a : Assignment) (n v : Nat) : (a.grow n).cell? v = a.cell? v := by
  by_cases hv : v < a.cells.size
  · simp [grow, cell?, Array.getElem?_append_left hv]
  · have hnone : a.cells[v]? = none := Array.getElem?_eq_none (Nat.le_of_not_lt hv)
    simp only [grow, cell?, Array.getElem?_append_right (Nat.le_of_not_lt hv), hnone,
      Array.getElem?_replicate]
    split <;> rfl

theorem Consistent.grow {a : Assignment} (h : a.Consistent) (n : Nat) : (a.grow n).Consistent := by
  refine ⟨?_, ?_, ?_, ?_⟩
  · intro i l hl
    rw [cell?_grow]
    exact h.cell_of_getElem? hl
  · intro v c hc
    rw [cell?_grow] at hc
    exact h.getElem?_of_cell hc
  · intro v c hc
    rw [cell?_grow] at hc
    exact h.level_of_cell hc
  · rw [cell?_grow]
    exact h.cell_zero

theorem cell?_clear (a : Assignment) (v : Nat) : a.clear.cell? v = none := by
  simp only [clear, cell?, Array.getElem?_replicate]
  split <;> rfl

/-- Nothing has to be checked when nothing is assigned. -/
theorem consistent_of_cells_none {a : Assignment} (hc : ∀ v, a.cell? v = none)
    (ht : a.trues = []) : a.Consistent := by
  refine ⟨?_, ?_, ?_, hc 0⟩
  · intro i l hl
    simp [ht] at hl
  · intro v c h
    rw [hc v] at h
    cases h
  · intro v c h
    rw [hc v] at h
    cases h

/-! ## Making literals true -/

/-- More literals are true than before, all of them on the current level. -/
structure Extension (a b : Assignment) : Prop where
  trues : ∃ ls, b.trues = a.trues ++ ls
  cell : ∀ {v c}, a.cell? v = some c → b.cell? v = some c
  size : b.cells.size = a.cells.size
  starts : b.levelStarts = a.levelStarts

namespace Extension

theorem refl (a : Assignment) : a.Extension a := ⟨⟨[], by simp⟩, id, rfl, rfl⟩

theorem trans {a b c : Assignment} (hab : a.Extension b) (hbc : b.Extension c) : a.Extension c := by
  obtain ⟨ls, hls⟩ := hab.trues
  obtain ⟨ms, hms⟩ := hbc.trues
  exact ⟨⟨ls ++ ms, by rw [hms, hls, List.append_assoc]⟩, fun h => hbc.cell (hab.cell h),
    hbc.size.trans hab.size, hbc.starts.trans hab.starts⟩

theorem assign {a : Assignment} {l : Literal} (r : Option Reference) (hl : a.cell? l.var = none) :
    a.Extension (a.assign l r) := by
  refine ⟨⟨[l], trues_assign a l r⟩, ?_, size_cells_assign a l r, rfl⟩
  intro v c hc
  rw [cell?_assign_of_ne, hc]
  rintro rfl
  rw [hl] at hc
  cases hc

variable {a b : Assignment} (h : a.Extension b)
include h

theorem mem {l : Literal} (hl : l ∈ a.trues) : l ∈ b.trues := by
  obtain ⟨ls, hls⟩ := h.trues
  rw [hls]
  exact List.mem_append_left _ hl

theorem mem_map_var {v : Nat} (hv : v ∈ a.trues.map Literal.var) :
    v ∈ b.trues.map Literal.var := by
  obtain ⟨l, hl, rfl⟩ := List.mem_map.mp hv
  exact List.mem_map.mpr ⟨l, h.mem hl, rfl⟩

theorem length_le : a.trues.length ≤ b.trues.length := by
  obtain ⟨ls, hls⟩ := h.trues
  rw [hls, List.length_append]
  omega

theorem getElem? {i : Nat} (hi : i < a.trues.length) : b.trues[i]? = a.trues[i]? := by
  obtain ⟨ls, hls⟩ := h.trues
  rw [hls, List.getElem?_append_left hi]

theorem take {i : Nat} (hi : i ≤ a.trues.length) : b.trues.take i = a.trues.take i := by
  obtain ⟨ls, hls⟩ := h.trues
  rw [hls, List.take_append_of_le_length hi]

theorem reason?_eq (ha : a.Consistent) {l : Literal} (hl : l ∈ a.trues) :
    b.reason? l.var = a.reason? l.var := by
  obtain ⟨c, hc, -⟩ := ha.cell_of_mem hl
  simp only [reason?, hc, h.cell hc]

theorem layered (ha : a.Layered) : b.Layered := by
  refine ⟨?_, fun m hm => ?_⟩
  · rw [h.starts]
    exact ha.sorted
  · rw [h.starts] at hm
    exact Nat.le_trans (ha.le_length m hm) h.length_le

end Extension

/-- What `enqueue` does, by what is known of the literal. -/
theorem enqueue_cases {a : Assignment} (h : a.Consistent) {l : Literal} (hlt : l.var < a.cells.size)
    (r : Option Reference) :
    (l ∈ a.trues ∧ a.enqueue l r = (true, a)) ∨ (-l ∈ a.trues ∧ a.enqueue l r = (false, a)) ∨
      (a.cell? l.var = none ∧ a.enqueue l r = (true, a.assign l r)) := by
  have hget : a.cells[l.var]? = some a.cells[l.var] := Array.getElem?_eq_getElem hlt
  cases hcell : a.cells[l.var] with
  | none =>
    refine Or.inr (Or.inr ⟨?_, ?_⟩)
    · simp [cell?, hget, hcell]
    · simp [enqueue, hget, hcell]
  | some c =>
    have hc : a.cell? l.var = some c := by simp [cell?, hget, hcell]
    have hrun : a.enqueue l r = (c.value == l.isPositive, a) := by simp [enqueue, hget, hcell]
    by_cases hv : c.value = l.isPositive
    · refine Or.inl ⟨?_, by simp [hrun, hv]⟩
      rw [← h.isSatisfied_iff]
      simp [isSatisfied, hc, hv]
    · refine Or.inr (Or.inl ⟨?_, by simp [hrun, hv]⟩)
      rw [← h.isFalsified_iff]
      simp [isFalsified, hc, hv]

/-- What making a literal true leaves behind. -/
structure Enqueued (a : Assignment) (l : Literal) (r : Option Reference) (ok : Bool)
    (a' : Assignment) : Prop where
  extension : a.Extension a'
  consistent : a'.Consistent
  mem : ok = true → l ∈ a'.trues
  falsified : ok = false → -l ∈ a'.trues ∧ a' = a
  fresh : ∀ {i m}, a.trues.length ≤ i → a'.trues[i]? = some m →
    m = l ∧ a'.trues.take i = a.trues ∧ a'.reason? m.var = r

/-- A literal has a value once it was made true, whatever the answer was. -/
theorem Enqueued.mem_map_var {a a' : Assignment} {l : Literal} {r : Option Reference} {ok : Bool}
    (h : a.Enqueued l r ok a') : l.var ∈ a'.trues.map Literal.var := by
  cases ok with
  | true => exact List.mem_map.mpr ⟨l, h.mem rfl, rfl⟩
  | false => exact List.mem_map.mpr ⟨-l, (h.falsified rfl).1, Literal.var_negate l⟩

/-- What is true afterwards is that literal or was true before. -/
theorem Enqueued.mem_cases {a a' : Assignment} {l m : Literal} {r : Option Reference} {ok : Bool}
    (h : a.Enqueued l r ok a') (hm : m ∈ a'.trues) : m = l ∨ m ∈ a.trues := by
  obtain ⟨i, hi⟩ := List.mem_iff_getElem?.mp hm
  by_cases hlt : i < a.trues.length
  · rw [h.extension.getElem? hlt] at hi
    exact Or.inr (List.mem_of_getElem? hi)
  · exact Or.inl (h.fresh (Nat.le_of_not_lt hlt) hi).1

/-- Nothing happens to a literal that is true already. -/
theorem Enqueued.of_mem {a : Assignment} {l : Literal} {r : Option Reference} (h : a.Consistent)
    (hl : l ∈ a.trues) : a.Enqueued l r true a where
  extension := .refl a
  consistent := h
  mem := fun _ => hl
  falsified := nofun
  fresh := fun hi hm => absurd (List.getElem?_eq_some_iff.mp hm).1 (Nat.not_lt_of_le hi)

theorem Enqueued.of_negate_mem {a : Assignment} {l : Literal} {r : Option Reference}
    (h : a.Consistent) (hl : -l ∈ a.trues) : a.Enqueued l r false a where
  extension := .refl a
  consistent := h
  mem := nofun
  falsified := fun _ => ⟨hl, rfl⟩
  fresh := fun hi hm => absurd (List.getElem?_eq_some_iff.mp hm).1 (Nat.not_lt_of_le hi)

theorem enqueued {a : Assignment} (h : a.Consistent)
    (hs : ∀ m ∈ a.levelStarts.toList, m ≤ a.trues.length) {l : Literal} (hz : l.var ≠ 0)
    (hlt : l.var < a.cells.size) (r : Option Reference) :
    a.Enqueued l r (a.enqueue l r).1 (a.enqueue l r).2 := by
  rcases enqueue_cases h hlt r with ⟨hl, hrun⟩ | ⟨hl, hrun⟩ | ⟨hl, hrun⟩
  · rw [hrun]
    exact .of_mem h hl
  · rw [hrun]
    exact .of_negate_mem h hl
  · rw [hrun]
    have htrues := trues_assign a l r
    refine ⟨.assign r hl, h.assign hs r hl hlt hz, ?_, fun hok => (by cases hok), ?_⟩
    · intro _
      rw [htrues]
      exact List.mem_append_right _ List.mem_cons_self
    · intro i m hi hm
      rw [htrues] at hm ⊢
      rw [List.getElem?_append_right hi, List.getElem?_singleton] at hm
      split at hm
      · cases hm
        have hii : i = a.trues.length := by omega
        refine ⟨rfl, ?_, ?_⟩
        · rw [hii, List.take_left]
        · simp [reason?, cell?_assign_self r hlt]
      · cases hm

end Assignment

end ClauseLearning
