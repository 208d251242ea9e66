import ClauseLearning.Proofs.Deciding

/-!
# How wide levels are

The width of a level is the number of its literals (`Assignment.width`). What makes literals true
widens the current level only, going back keeps the widths of the levels that stay, and a new level
is empty until something is decided on it.

Ordered by their first difference, the weights of the levels only ever get larger in a search that
is never restarted (`Assignment.Rises`).

The levels of the assumptions may stay empty. Every level above them has a literal
(`Assignment.Peopled`), so there are not more levels than assumptions and variables together, and
the current decisions can be forbidden.

* `SearchState.width_backtrack`: levels that stay are as wide as before.
* `Peopled.decisionLevel_le`: how many levels there are.
* `Engine.blockingClause_succ`: the first literal of a level that has one is forbidden.
-/

namespace ClauseLearning

variable {κ : Type}

namespace Assignment

/-! ## Where levels start -/

/-- Where an open level starts depends on the starts of levels alone. -/
theorem startOfLevel_congr {a b : Assignment} {k : Nat} (hk : k ≤ a.decisionLevel)
    (h : ∀ i < k, b.levelStarts[i]? = a.levelStarts[i]?) : b.startOfLevel k = a.startOfLevel k := by
  cases k with
  | zero => rfl
  | succ k =>
    have hlt : k < a.levelStarts.size := hk
    simp only [startOfLevel, h k (Nat.lt_succ_self k), Array.getElem?_eq_getElem hlt,
      Option.getD_some]

/-- The level behind the last one starts at the end of the trail. -/
theorem startOfLevel_top (a : Assignment) :
    a.startOfLevel (a.decisionLevel + 1) = a.trues.length := by
  simp [startOfLevel, decisionLevel, size_trail]

theorem startOfLevel_openLevel (a : Assignment) {k : Nat} (hk : k ≤ a.decisionLevel + 1) :
    a.openLevel.startOfLevel k = a.startOfLevel k := by
  obtain ⟨cells, trail, starts⟩ := a
  cases k with
  | zero => rfl
  | succ k =>
    have hle : k ≤ starts.size := Nat.le_of_succ_le_succ hk
    simp only [startOfLevel, openLevel, Array.getElem?_push]
    split
    · rename_i heq
      rw [heq, Array.getElem?_eq_none (Nat.le_refl _)]
      rfl
    · rfl

/-! ## Widths -/

/-- How many literals a level has. -/
def width (a : Assignment) (k : Nat) : Nat := a.startOfLevel (k + 1) - a.startOfLevel k

theorem width_congr {a b : Assignment} (ht : b.trues = a.trues)
    (hs : b.levelStarts = a.levelStarts) (k : Nat) : b.width k = a.width k := by
  have hstart : ∀ k, b.startOfLevel k = a.startOfLevel k := by
    intro k
    cases k with
    | zero => rfl
    | succ k => simp only [startOfLevel, hs, size_trail, ht]
  rw [width, width, hstart, hstart]

theorem width_le (a : Assignment) (ha : a.Layered) (k : Nat) : a.width k ≤ a.trues.length :=
  Nat.le_trans (Nat.sub_le _ _) (ha.startOfLevel_le k)

theorem width_openLevel (a : Assignment) {k : Nat} (hk : k ≤ a.decisionLevel) :
    a.openLevel.width k = a.width k := by
  rw [width, width, startOfLevel_openLevel a (Nat.succ_le_succ hk),
    startOfLevel_openLevel a (Nat.le_succ_of_le hk)]

theorem decisionLevel_openLevel (a : Assignment) :
    a.openLevel.decisionLevel = a.decisionLevel + 1 := Array.size_push ..

namespace Extension

variable {a b : Assignment} (h : a.Extension b)
include h

theorem decisionLevel_eq : b.decisionLevel = a.decisionLevel := congrArg Array.size h.starts

theorem startOfLevel_eq {k : Nat} (hk : k ≤ a.decisionLevel) :
    b.startOfLevel k = a.startOfLevel k :=
  startOfLevel_congr hk fun i _ => by rw [h.starts]

theorem width_eq {k : Nat} (hk : k < a.decisionLevel) : b.width k = a.width k := by
  rw [width, width, h.startOfLevel_eq hk, h.startOfLevel_eq (Nat.le_of_lt hk)]

/-- All that becomes true widens the current level. -/
theorem width_top (ha : a.Layered) :
    b.width a.decisionLevel = a.width a.decisionLevel + (b.trues.length - a.trues.length) := by
  have htop := startOfLevel_top b
  rw [h.decisionLevel_eq] at htop
  have hle : a.startOfLevel a.decisionLevel ≤ a.trues.length := by
    cases hlevel : a.decisionLevel with
    | zero => exact Nat.zero_le _
    | succ k => exact ha.startOfLevel_le k
  have hlen := h.length_le
  rw [width, width, htop, startOfLevel_top, h.startOfLevel_eq (Nat.le_refl _)]
  omega

end Extension

/-! ## Levels with literals -/

/-- Every level above the first `n` has a literal. -/
def Peopled (n : Nat) (a : Assignment) : Prop :=
  ∀ k, n < k → k ≤ a.decisionLevel → 0 < a.width k

namespace Peopled

variable {n : Nat} {a b : Assignment}

theorem of_le (h : a.decisionLevel ≤ n) : a.Peopled n := fun k hk hle => by omega

theorem congr (h : a.Peopled n) (ht : b.trues = a.trues) (hs : b.levelStarts = a.levelStarts) :
    b.Peopled n := by
  intro k hk hle
  rw [width_congr ht hs]
  exact h k hk (by rwa [decisionLevel, hs] at hle)

theorem extend (h : a.Peopled n) (ha : a.Layered) (he : a.Extension b) : b.Peopled n := by
  intro k hk hle
  rw [he.decisionLevel_eq] at hle
  rcases Nat.lt_or_eq_of_le hle with hlt | rfl
  · rw [he.width_eq hlt]
    exact h k hk hle
  · rw [he.width_top ha]
    exact Nat.lt_of_lt_of_le (h _ hk hle) (Nat.le_add_right _ _)

/-- A level on which something becomes true has a literal. -/
theorem decide (h : a.Peopled n) (ha : a.Layered) (he : a.openLevel.Extension b)
    (hlen : a.trues.length < b.trues.length) : b.Peopled n := by
  intro k hk hle
  have hlevel := a.decisionLevel_openLevel
  rw [he.decisionLevel_eq, hlevel] at hle
  rcases Nat.lt_or_eq_of_le hle with hlt | rfl
  · rw [he.width_eq (by omega), width_openLevel a (Nat.le_of_lt_succ hlt)]
    exact h k hk (Nat.le_of_lt_succ hlt)
  · have htop := he.width_top ha.openLevel
    rw [hlevel, show a.openLevel.trues = a.trues from rfl] at htop
    omega

/-- Every level above the first ones takes up a part of the trail. -/
theorem decisionLevel_le (h : a.Peopled n) : a.decisionLevel ≤ n + a.trues.length := by
  have hstart : ∀ j, n + j ≤ a.decisionLevel → j ≤ a.startOfLevel (n + j + 1) := by
    intro j
    induction j with
    | zero => exact fun _ => Nat.zero_le _
    | succ j ih =>
      intro hle
      have hj := ih (by omega)
      have hw := h (n + (j + 1)) (by omega) hle
      rw [width, ← Nat.add_assoc] at hw
      rw [← Nat.add_assoc]
      omega
  by_cases hle : a.decisionLevel ≤ n
  · omega
  · have hj := hstart (a.decisionLevel - n) (by omega)
    rw [Nat.add_sub_of_le (by omega), startOfLevel_top] at hj
    omega

end Peopled

/-- A level with a literal starts with a literal of its own. -/
theorem getElem?_startOfLevel {a : Assignment} (ha : a.Layered) {k : Nat}
    (hk : 0 < a.width (k + 1)) :
    ∃ l, a.trues[a.startOfLevel (k + 1)]? = some l ∧
      a.levelAt (a.startOfLevel (k + 1)) = k + 1 := by
  have hlt : a.startOfLevel (k + 1) < a.startOfLevel (k + 1 + 1) := by
    rw [width] at hk
    omega
  have hsize : a.startOfLevel (k + 1) < a.trues.length :=
    Nat.lt_of_lt_of_le hlt (ha.startOfLevel_le (k + 1))
  have hsize' : a.startOfLevel (k + 1) < a.trail.size := by rwa [size_trail]
  have hle := (lt_startOfLevel_iff ha.sorted hsize').mp hlt
  have hgt : a.startOfLevel (k + 1) < a.startOfLevel (k + 1) ↔
      a.levelAt (a.startOfLevel (k + 1)) ≤ k := lt_startOfLevel_iff ha.sorted hsize'
  exact ⟨_, List.getElem?_eq_getElem hsize, by omega⟩

/-! ## Weights -/

/-- How heavy a level is: an open one weighs one more than it has literals. -/
def weight (a : Assignment) (k : Nat) : Nat := if k ≤ a.decisionLevel then a.width k + 1 else 0

theorem weight_congr {a b : Assignment} (ht : b.trues = a.trues)
    (hs : b.levelStarts = a.levelStarts) (k : Nat) : b.weight k = a.weight k := by
  rw [weight, weight, width_congr ht hs, decisionLevel, decisionLevel, hs]

/-- Some level got heavier, and no level below it is any different. -/
def Rises (a b : Assignment) : Prop :=
  ∃ j, (∀ k < j, b.weight k = a.weight k) ∧ a.weight j < b.weight j

namespace Rises

variable {a b c : Assignment}

theorem trans (h : a.Rises b) (h' : b.Rises c) : a.Rises c := by
  obtain ⟨i, hbelow, hlt⟩ := h
  obtain ⟨j, hbelow', hlt'⟩ := h'
  rcases Nat.lt_trichotomy i j with hij | rfl | hij
  · refine ⟨i, fun k hk => (hbelow' k (Nat.lt_trans hk hij)).trans (hbelow k hk), ?_⟩
    rw [hbelow' i hij]
    exact hlt
  · exact ⟨i, fun k hk => (hbelow' k hk).trans (hbelow k hk), Nat.lt_trans hlt hlt'⟩
  · refine ⟨j, fun k hk => (hbelow' k hk).trans (hbelow k (Nat.lt_trans hk hij)), ?_⟩
    rw [← hbelow j hij]
    exact hlt'

theorem of_eq (h : ∀ k, b.weight k = a.weight k) (h' : b.Rises c) : a.Rises c := by
  obtain ⟨j, hbelow, hlt⟩ := h'
  exact ⟨j, fun k hk => (hbelow k hk).trans (h k), by rw [← h]; exact hlt⟩

/-- Levels are given up, and something becomes true on the highest one that is left. -/
theorem of_rewound {level : Nat} (hle : level ≤ a.decisionLevel) (hlevel : b.decisionLevel = level)
    (hwidth : ∀ k ≤ level, b.width k = a.width k) (hb : b.Layered) (he : b.Extension c)
    (hlen : b.trues.length < c.trues.length) : a.Rises c := by
  have hlevel' := he.decisionLevel_eq.trans hlevel
  refine ⟨level, fun k hk => ?_, ?_⟩
  · rw [weight, weight, if_pos (by omega), if_pos (by omega), he.width_eq (by omega),
      hwidth k (Nat.le_of_lt hk)]
  · have htop := he.width_top hb
    rw [hlevel] at htop
    rw [weight, weight, if_pos hle, if_pos (Nat.le_of_eq hlevel'.symm), htop,
      hwidth level (Nat.le_refl _)]
    omega

end Rises

theorem rises_openLevel (a : Assignment) : a.Rises a.openLevel := by
  refine ⟨a.decisionLevel + 1, fun k hk => ?_, ?_⟩
  · rw [weight, weight, decisionLevel_openLevel, if_pos (by omega), if_pos (by omega),
      width_openLevel a (by omega)]
  · rw [weight, weight, decisionLevel_openLevel, if_neg (by omega), if_pos (Nat.le_refl _)]
    exact Nat.succ_pos _

/-- What becomes true makes the current level heavier. -/
theorem Extension.rises_or_eq {a b : Assignment} (h : a.Extension b) (ha : a.Layered) :
    a.Rises b ∨ ∀ k, b.weight k = a.weight k := by
  rcases Nat.lt_or_eq_of_le h.length_le with hlt | heq
  · exact Or.inl (.of_rewound (Nat.le_refl _) rfl (fun _ _ => rfl) ha h hlt)
  · obtain ⟨ls, hls⟩ := h.trues
    have hnil : ls = [] := by
      rw [hls, List.length_append] at heq
      exact List.eq_nil_of_length_eq_zero (by omega)
    rw [hnil, List.append_nil] at hls
    exact Or.inr (weight_congr hls h.starts)

end Assignment

namespace SearchState

variable [CustomConstraint κ] {level : Nat} {s s' : SearchState κ}

theorem startOfLevel_backtrack (hw : s.WellFormed) (hrun : s.backtrack level = .ok s') {k : Nat}
    (hk : k ≤ level + 1) : s'.assignment.startOfLevel k = s.assignment.startOfLevel k := by
  rcases backtrack_spec hw hrun with ⟨-, rfl⟩ | ⟨hlt, hr, -, -, hstarts⟩
  · rfl
  · have hlevel : s'.assignment.decisionLevel = level := by
      have hlen := congrArg List.length hstarts
      have hlt' : level < s.assignment.levelStarts.size := hlt
      rw [List.length_take, Array.length_toList, Array.length_toList,
        Nat.min_eq_left (Nat.le_of_lt hlt')] at hlen
      exact hlen
    rcases Nat.lt_or_eq_of_le hk with hlt' | rfl
    · refine Assignment.startOfLevel_congr (Nat.le_of_lt ?_) fun i hi => ?_
      · exact Nat.lt_of_lt_of_le hlt' hlt
      · rw [← Array.getElem?_toList, hstarts, List.getElem?_take_of_lt (by omega),
          Array.getElem?_toList]
    · have htop := Assignment.startOfLevel_top s'.assignment
      rw [hlevel, hr.cut.trues, List.length_take,
        Nat.min_eq_left (hw.layered.startOfLevel_le level)] at htop
      exact htop

/-- Levels that stay are as wide as before. -/
theorem width_backtrack (hw : s.WellFormed) (hrun : s.backtrack level = .ok s') {k : Nat}
    (hk : k ≤ level) : s'.assignment.width k = s.assignment.width k := by
  rw [Assignment.width, Assignment.width, startOfLevel_backtrack hw hrun (Nat.succ_le_succ hk),
    startOfLevel_backtrack hw hrun (Nat.le_succ_of_le hk)]

theorem peopled_backtrack {n : Nat} (hw : s.WellFormed) (hrun : s.backtrack level = .ok s')
    (h : s.assignment.Peopled n) : s'.assignment.Peopled n := by
  intro k hk hle
  have hlevel : s'.assignment.decisionLevel = min level s.assignment.decisionLevel :=
    decisionLevel_backtrack hw hrun
  rw [hlevel] at hle
  rw [width_backtrack hw hrun (by omega)]
  exact h k hk (by omega)

end SearchState

namespace Engine

/-- The first literal of a level that has one is forbidden. -/
theorem blockingClause_succ {a : Assignment} (ha : a.Layered) {k : Nat} (hk : 0 < a.width (k + 1)) :
    ∃ l, a.trues[a.startOfLevel (k + 1)]? = some l ∧ a.levelAt (a.startOfLevel (k + 1)) = k + 1 ∧
      blockingClause a (k + 1) = -l :: blockingClause a k := by
  obtain ⟨l, hl, hlevel⟩ := Assignment.getElem?_startOfLevel ha hk
  have hhead : (a.literalsOfLevel (k + 1)).head? = some l := by
    rw [Assignment.literalsOfLevel, List.head?_eq_getElem?, Array.getElem?_toList,
      Array.getElem?_extract, if_pos, Nat.add_zero, Assignment.getElem?_trail, hl]
    have hsize := (List.getElem?_eq_some_iff.mp hl).1
    rw [Assignment.width] at hk
    rw [Assignment.size_trail]
    have hle := ha.startOfLevel_le (k + 1)
    omega
  refine ⟨l, hl, hlevel, ?_⟩
  rw [blockingClause, hhead]

end Engine

end ClauseLearning
