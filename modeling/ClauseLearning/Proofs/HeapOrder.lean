import Mathlib.Order.Nat
import ClauseLearning.Proofs.Priorities

/-!
# The order of the heap

A heap serves its maximum as long as every position dominates the two below it. Adding a key,
putting one back, increasing and dividing keep this order, and so does taking out the first key.
Taking out another key puts the last one in its place and only sifts it down. It stays above its
parent if it was larger, which is possible when it came from another branch.

* `UpReady.siftUp`, `DownReady.siftDown`: what sifting needs of the order around a position.
* `Ordered.delete_iff`: a deletion keeps the order unless it lifts the last key above its parent.
* `serves_maximum_iff`: runs of calls in which no deletion does that are those that keep the order,
  and they serve the maximum all along.
-/

namespace ClauseLearning.PriorityHeap

variable {P : Type} [Preorder P] [DecidableLE P]

/-! ## Positions that dominate others -/

theorem dominates_iff {h : PriorityHeap P} {i j : Nat} : h.dominates i j = true ↔
    ∀ p q, h.priorities[i]? = some p → h.priorities[j]? = some q → q ≤ p := by
  unfold dominates
  split
  · rename_i p q hp hq
    simp [hp, hq]
  · rename_i hnot
    simpa using fun p q hp hq => (hnot p q hp hq).elim

theorem dominates_swap {h : PriorityHeap P} {i j : Nat} (hi : i < h.numKeys) (hj : j < h.numKeys)
    (x y : Nat) :
    (h.swap i j).dominates x y = h.dominates (exchanged i j x) (exchanged i j y) := by
  have hpriorities : ∀ x, (h.swap i j).priorities[x]? = h.priorities[exchanged i j x]? :=
    getElem?_swapIfInBounds hi hj
  simp only [dominates, hpriorities]

theorem Valid.dominates_cut {h : PriorityHeap P} (hv : h.Valid) {i : Nat} (hi : i < h.size)
    (x y : Nat) : (h.cut i).dominates x y =
      h.dominates (exchanged i (h.size - 1) x) (exchanged i (h.size - 1) y) := by
  have hsize := hv.size_le
  exact dominates_swap (by omega) (by omega) x y

theorem dominates_refl {h : PriorityHeap P} (i : Nat) : h.dominates i i = true := by
  rw [dominates_iff]
  intro p q hp hq
  rw [hp] at hq
  exact le_of_eq (Option.some.inj hq).symm

theorem dominates_trans {h : PriorityHeap P} {i j k : Nat} (hj : j < h.numKeys)
    (hij : h.dominates i j = true) (hjk : h.dominates j k = true) : h.dominates i k = true := by
  rw [dominates_iff] at *
  intro p r hp hr
  have hq : h.priorities[j]? = some h.priorities[j] := Array.getElem?_eq_getElem hj
  exact le_trans (hjk _ r hq hr) (hij p _ hp hq)

/-! ## Order -/

/-- Every position of the heap is dominated by its parent. -/
def Ordered (h : PriorityHeap P) : Prop :=
  ∀ x, 0 < x → x < h.size → h.dominates ((x - 1) / 2) x = true

/-- Only the key at `i` may be too low: all others are dominated by their parents, and those below
`i` by the parent of `i` as well. -/
structure UpReady (h : PriorityHeap P) (i : Nat) : Prop where
  except : ∀ x, 0 < x → x < h.size → x ≠ i → h.dominates ((x - 1) / 2) x = true
  grand : 0 < i → ∀ x, 0 < x → x < h.size → (x - 1) / 2 = i → h.dominates ((i - 1) / 2) x = true

/-- Only the key at `i` may be too high: the others dominate those below them, and the parent of `i`
dominates those below `i` as well. -/
structure DownReady (h : PriorityHeap P) (i : Nat) : Prop where
  except : ∀ x, 0 < x → x < h.size → (x - 1) / 2 ≠ i → h.dominates ((x - 1) / 2) x = true
  grand : 0 < i → ∀ x, 0 < x → x < h.size → (x - 1) / 2 = i → h.dominates ((i - 1) / 2) x = true

/-- The last key of the heap takes the place of the key and has more priority than the parent
there. -/
def lifts (h : PriorityHeap P) (key : Nat) : Bool :=
  match h.position? key with
  | none => false
  | some i => decide (0 < i ∧ i + 1 < h.size) && !h.dominates ((i - 1) / 2) (h.size - 1)

/-- The answer is a key that is in, with a priority that no other key exceeds, or none if there is
no key. -/
def Serves (h : PriorityHeap P) : Option Nat → Prop
  | some key => h.contains key = true ∧ ∃ p, h.value? key = some p ∧
      ∀ k, h.contains k = true → ∃ q, h.value? k = some q ∧ q ≤ p
  | none => ∀ k, h.contains k = false

/-- The first key has no parent. -/
theorem Valid.lifts_of_peek? {h : PriorityHeap P} (hv : h.Valid) {key : Nat}
    (hpeek : h.peek? = some key) : h.lifts key = false := by
  unfold peek? at hpeek
  split at hpeek
  · simp [lifts, position?, (hv.inverse 0 key).mp hpeek]
  · cases hpeek

theorem ordered_empty : (empty : PriorityHeap P).Ordered := fun _ _ hx =>
    (Nat.not_lt_zero _ hx).elim

namespace Ordered

variable {h : PriorityHeap P} (ho : h.Ordered)
include ho

theorem divideAll [Div P] {divisor : P} (hdivisor : ∀ p q : P, p ≤ q → p / divisor ≤ q / divisor) :
    (h.divideAll divisor).Ordered := by
  intro x hx hxsize
  have hdom := ho x hx hxsize
  rw [dominates_iff] at hdom ⊢
  intro p q hp hq
  rw [PriorityHeap.divideAll, Array.getElem?_map, Option.map_eq_some_iff] at hp hq
  obtain ⟨p, hp, rfl⟩ := hp
  obtain ⟨q, hq, rfl⟩ := hq
  exact hdivisor q p (hdom p q hp hq)

/-- A key that joins may be too low. -/
theorem upReady_join {i : Nat} (hi : h.size ≤ i) (hinum : i < h.numKeys) :
    (h.join i).UpReady h.size := by
  have hat : ∀ x y, (h.join i).dominates x y =
      h.dominates (exchanged i h.size x) (exchanged i h.size y) := dominates_swap hinum (by omega)
  have hsize : (h.join i).size = h.size + 1 := rfl
  refine ⟨fun x hx hxsize hne => ?_, fun hpos x hx hxsize hparent => by omega⟩
  rw [hat, exchanged_of_ne (by omega) (by omega), exchanged_of_ne (by omega) hne]
  exact ho x hx (by omega)

variable (hv : h.Valid)
include hv

theorem append (p : P) : (h.append p).Ordered := by
  intro x hx hxsize
  have hsize := hv.size_le
  have hxsize' : x < h.size := hxsize
  have hold : ∀ y < h.size, (h.append p).priorities[y]? = h.priorities[y]? := by
    intro y hy
    exact Array.getElem?_push.trans (if_neg (Nat.ne_of_lt (Nat.lt_of_lt_of_le hy hsize)))
  have hdom := ho x hx hxsize'
  rw [dominates_iff] at hdom ⊢
  rwa [hold _ (by omega), hold _ hxsize']

/-- The top dominates every position. -/
theorem dominates_zero {x : Nat} (hx : x < h.size) : h.dominates 0 x = true := by
  induction x using Nat.strongRecOn with
  | ind x ih =>
    rcases Nat.eq_zero_or_pos x with rfl | hpos
    · exact dominates_refl 0
    · have hsize := hv.size_le
      exact dominates_trans (by omega) (ih ((x - 1) / 2) (by omega) (by omega)) (ho x hpos hx)

/-- The parent of a position dominates those below it. -/
theorem grand {i x : Nat} (hi : 0 < i) (hisize : i < h.size) (hx : 0 < x) (hxsize : x < h.size)
    (hparent : (x - 1) / 2 = i) : h.dominates ((i - 1) / 2) x = true := by
  have hsize := hv.size_le
  exact dominates_trans (by omega) (ho i hi hisize) (hparent ▸ ho x hx hxsize)

/-- A key that gets more priority may be too low, and the others stay where they belong. -/
theorem upReady_raise [Add P] (i : Nat) {amount : P} (hamount : ∀ p : P, p ≤ p + amount) :
    (h.raise i amount).UpReady i := by
  have hat : ∀ x y, y ≠ i → h.dominates x y = true → (h.raise i amount).dominates x y = true := by
    intro x y hy hdom
    rw [dominates_iff] at hdom ⊢
    intro p q hp hq
    rw [PriorityHeap.raise, Array.getElem?_modify] at hp hq
    rw [if_neg (Ne.symm hy)] at hq
    split at hp
    · obtain ⟨r, hr, rfl⟩ := Option.map_eq_some_iff.mp hp
      exact le_trans (hdom r q hr hq) (hamount r)
    · exact hdom p q hp hq
  refine ⟨fun x hx hxsize hne => hat _ _ hne (ho x hx hxsize), fun hpos x hx hxsize hparent => ?_⟩
  have hxsize' : x < h.size := hxsize
  exact hat _ _ (by omega) (ho.grand hv hpos (by omega) hx hxsize' hparent)

/-- The key that takes the place of another may be too high if it is not too low. -/
theorem downReady_cut {i : Nat} (hi : i < h.size)
    (hlast : 0 < i → i + 1 < h.size → h.dominates ((i - 1) / 2) (h.size - 1) = true) :
    (h.cut i).DownReady i := by
  have hcut : (h.cut i).size = h.size - 1 := rfl
  refine ⟨fun x hx hxsize hne => ?_, fun hpos x hx hxsize hparent => ?_⟩
  · rw [hcut] at hxsize
    rw [hv.dominates_cut hi, exchanged_of_ne (x := (x - 1) / 2) hne (by omega)]
    by_cases hxi : x = i
    · subst hxi
      rw [exchanged_left]
      exact hlast hx (by omega)
    · rw [exchanged_of_ne hxi (by omega)]
      exact ho x hx (by omega)
  · rw [hcut] at hxsize
    rw [hv.dominates_cut hi, exchanged_of_ne (by omega) (by omega),
      exchanged_of_ne (by omega) (by omega)]
    exact ho.grand hv hpos hi hx (by omega) hparent

/-- Nothing is lifted in a heap of at most five keys. -/
theorem lifts_of_size_le (hsmall : h.size ≤ 5) (key : Nat) : h.lifts key = false := by
  unfold lifts
  split
  · rfl
  · rename_i i hpos
    by_cases hi : 0 < i ∧ i + 1 < h.size
    · have hdom : h.dominates ((i - 1) / 2) (h.size - 1) = true := by
        rcases Nat.lt_or_ge i 3 with hlt | hge
        · rw [show (i - 1) / 2 = 0 by omega]
          exact ho.dominates_zero hv (by omega)
        · rw [show (i - 1) / 2 = (h.size - 1 - 1) / 2 by omega]
          exact ho _ (by omega) (by omega)
      rw [hdom, Bool.not_true, Bool.and_false]
    · rw [decide_eq_false hi, Bool.false_and]

/-- What is first in an ordered heap is a maximum. -/
theorem serves : h.Serves h.peek? := by
  cases hpeek : h.peek? with
  | none => exact contains_of_size_eq_zero (hv.size_of_peek? hpeek)
  | some key =>
    have hat : ∀ {k x : Nat}, h.positions[k]? = some x → (hx : x < h.numKeys) →
        h.value? k = some h.priorities[x] := by
      intro k x hk hx
      rw [value?, position?, hk, Option.bind_some, Array.getElem?_eq_getElem hx]
    have hle := hv.size_le
    have hpos : 0 < h.size ∧ h.keys[0]? = some key := by simpa [peek?] using hpeek
    have hkey := (hv.inverse 0 key).mp hpos.2
    refine ⟨hv.contains_of_peek? hpeek, _, hat hkey (by omega), fun k hk => ?_⟩
    obtain ⟨x, hx, hxsize⟩ := (contains_iff h k).mp hk
    refine ⟨_, hat hx (by omega), ?_⟩
    exact dominates_iff.mp (ho.dominates_zero hv hxsize) _ _ (Array.getElem?_eq_getElem _)
      (Array.getElem?_eq_getElem _)

end Ordered

/-! ## Keys that go up -/

variable [Std.Total (α := P) (· ≤ ·)]

theorem dominates_of_not {h : PriorityHeap P} {i j : Nat} (hnot : h.dominates i j = false) :
    h.dominates j i = true := by
  rw [dominates_iff]
  intro p q hp hq
  rw [dominates, hp, hq] at hnot
  exact (Std.Total.total q p).resolve_right (of_decide_eq_false hnot)

/-- The key at `i` goes up past its parent. -/
theorem UpReady.swap {h : PriorityHeap P} (hv : h.Valid) {i : Nat} (hready : h.UpReady i)
    (hi : i < h.size) (hpos : 0 < i) (hnot : h.dominates ((i - 1) / 2) i = false) :
    (h.swap ((i - 1) / 2) i).UpReady ((i - 1) / 2) := by
  obtain ⟨parent, hparent⟩ : ∃ parent, (i - 1) / 2 = parent := ⟨_, rfl⟩
  have hgrand := hready.grand hpos
  rw [hparent] at hnot hgrand ⊢
  have hsize := hv.size_le
  have hat := dominates_swap (h := h) (i := parent) (j := i) (by omega) (by omega)
  have hup : h.dominates i parent = true := dominates_of_not hnot
  have htrans : ∀ {a b}, h.dominates a parent = true → h.dominates parent b = true →
      h.dominates a b = true := dominates_trans (by omega)
  refine ⟨fun x hx hxsize hne => ?_, fun hpos' x hx hxsize hxparent => ?_⟩
  · rw [hat]
    by_cases hxi : x = i
    · rw [hxi, hparent, exchanged_left, exchanged_right]
      exact hup
    · rw [exchanged_of_ne hne hxi]
      by_cases hbelow : (x - 1) / 2 = i
      · rw [hbelow, exchanged_right]
        exact hgrand x hx hxsize hbelow
      · by_cases hbeside : (x - 1) / 2 = parent
        · rw [hbeside, exchanged_left]
          exact htrans hup (hbeside ▸ hready.except x hx hxsize hxi)
        · rw [exchanged_of_ne hbeside hbelow]
          exact hready.except x hx hxsize hxi
  · have habove := hready.except parent hpos' (by omega) (by omega)
    rw [hat, exchanged_of_ne (by omega) (by omega)]
    by_cases hxi : x = i
    · rw [hxi, exchanged_right]
      exact habove
    · rw [exchanged_of_ne (by omega) hxi]
      exact htrans habove (hxparent ▸ hready.except x hx hxsize hxi)

theorem UpReady.siftUp {h : PriorityHeap P} (hv : h.Valid) {i : Nat} (hi : i < h.size)
    (hready : h.UpReady i) : (h.siftUp i).Ordered := by
  fun_induction PriorityHeap.siftUp i h with
  | case1 i h hpos parent hdom =>
    intro x hx hxsize
    by_cases hxi : x = i
    · rw [hxi]
      exact hdom
    · exact hready.except x hx hxsize hxi
  | case2 i h hpos parent hdom ih =>
    have hparent : parent < h.size := by omega
    exact ih (hv.rearranges_swap hparent hi).valid hparent
      (hready.swap hv hi hpos (Bool.eq_false_iff.mpr hdom))
  | case3 i h hpos =>
    intro x hx hxsize
    exact hready.except x hx hxsize (by omega)

namespace Ordered

variable {h : PriorityHeap P} (ho : h.Ordered) (hv : h.Valid)
include ho hv

theorem join {i : Nat} (hi : h.size ≤ i) (hinum : i < h.numKeys) :
    (siftUp h.size (h.join i)).Ordered := by
  obtain ⟨key, hkey⟩ : ∃ key, h.keys[i]? = some key :=
    ⟨_, Array.getElem?_eq_getElem (hv.size_keys.symm ▸ hinum)⟩
  exact (ho.upReady_join hi hinum).siftUp (hv.join hkey hi).1 (Nat.lt_succ_self h.size)

theorem restore (key : Nat) : (h.restore key).Ordered := by
  by_cases hout : ∃ i : Nat, h.positions[key]? = some i ∧ h.size ≤ i
  · obtain ⟨i, hpos, hi⟩ := hout
    rw [restore_eq hpos hi]
    exact ho.join hv hi (hv.lt_of_key ((hv.inverse i key).mpr hpos))
  · rw [restore_of_lt fun i hpos => Nat.lt_of_not_le fun hi => hout ⟨i, hpos, hi⟩]
    exact ho

theorem push (p : P) : (h.push p).Ordered := by
  rw [hv.push_eq]
  exact (ho.append hv p).join (hv.append p) hv.size_le (by rw [numKeys_append]; omega)

theorem increase [Add P] (key : Nat) {amount : P} (hamount : ∀ p : P, p ≤ p + amount) :
    (h.increase key amount).Ordered := by
  cases hpos : h.positions[key]? with
  | none =>
    rw [increase_of_none amount hpos]
    exact ho
  | some i =>
    have hready := ho.upReady_raise hv i hamount
    rcases Nat.lt_or_ge i h.size with hi | hi
    · rw [increase_of_lt amount hpos hi]
      exact hready.siftUp (hv.raise i amount) hi
    · rw [increase_of_le amount hpos hi]
      exact fun x hx hxsize => hready.except x hx hxsize (by have : x < h.size := hxsize; omega)

end Ordered

/-! ## Keys that go down -/

variable [DecidableLT P]

omit [DecidableLE P] in
theorem le_of_isBelow_eq_false {h : PriorityHeap P} {i j : Nat} {p q : P}
    (hp : h.priorities[i]? = some p) (hq : h.priorities[j]? = some q)
    (hnot : h.isBelow i j = false) : q ≤ p := by
  rw [isBelow, hp, hq] at hnot
  have hlt := of_decide_eq_false hnot
  rw [lt_iff_le_not_ge, not_and_not_right] at hlt
  exact (Std.Total.total q p).elim id hlt

omit [Std.Total (α := P) (· ≤ ·)] [DecidableLE P] in
theorem parent_largerChild (h : PriorityHeap P) (i : Nat) :
    0 < h.largerChild i ∧ (h.largerChild i - 1) / 2 = i := by
  unfold largerChild
  split <;> omega

/-- The larger child dominates both. -/
theorem dominates_largerChild {h : PriorityHeap P} {i x : Nat} (hx : 0 < x) (hsize : x < h.size)
    (hparent : (x - 1) / 2 = i) : h.dominates (h.largerChild i) x = true := by
  obtain rfl | rfl : x = 2 * i + 1 ∨ x = 2 * i + 2 := by omega
  · unfold largerChild
    split
    · rename_i hright
      refine dominates_iff.mpr fun p q hp hq => ?_
      have hbelow := hright.2
      rw [isBelow, hp, hq] at hbelow
      exact le_of_lt (of_decide_eq_true hbelow)
    · exact dominates_refl _
  · unfold largerChild
    split
    · exact dominates_refl _
    · rename_i hleft
      have hnot : h.isBelow (2 * i + 1) (2 * i + 2) = false := by simpa [hsize] using hleft
      exact dominates_iff.mpr fun p q hp hq => le_of_isBelow_eq_false hp hq hnot

/-- The key at `i` goes down past its larger child. -/
theorem DownReady.swap {h : PriorityHeap P} (hv : h.Valid) {i : Nat} (hready : h.DownReady i)
    (hi : 2 * i + 1 < h.size) (hnot : h.dominates i (h.largerChild i) = false) :
    (h.swap i (h.largerChild i)).DownReady (h.largerChild i) := by
  have hsize := hv.size_le
  have hchildlt := largerChild_lt hi
  have hparent := parent_largerChild h i
  have hlarger : ∀ x, 0 < x → x < h.size → (x - 1) / 2 = i →
      h.dominates (h.largerChild i) x = true :=
    fun _ => dominates_largerChild
  generalize h.largerChild i = child at *
  have hat := dominates_swap (h := h) (i := i) (j := child) (by omega) (by omega)
  refine ⟨fun x hx hxsize hne => ?_, fun _ x hx hxsize hxparent => ?_⟩
  · rw [hat]
    by_cases hxi : x = i
    · rw [hxi, exchanged_left, exchanged_of_ne (by omega) (by omega)]
      exact hready.grand (by omega) child (by omega) hchildlt hparent.2
    · by_cases hxchild : x = child
      · rw [hxchild, hparent.2, exchanged_left, exchanged_right]
        exact dominates_of_not hnot
      · rw [exchanged_of_ne hxi hxchild]
        by_cases hbelow : (x - 1) / 2 = i
        · rw [hbelow, exchanged_left]
          exact hlarger x hx hxsize hbelow
        · rw [exchanged_of_ne hbelow hne]
          exact hready.except x hx hxsize hbelow
  · rw [hat, hparent.2, exchanged_left, exchanged_of_ne (by omega) (by omega)]
    exact hxparent ▸ hready.except x hx hxsize (by omega)

theorem DownReady.siftDown {h : PriorityHeap P} (hv : h.Valid) {i : Nat} (hready : h.DownReady i) :
    (h.siftDown i).Ordered := by
  fun_induction PriorityHeap.siftDown i h with
  | case1 i h hi child hdom =>
    have hsize := hv.size_le
    have hchild := largerChild_lt hi
    intro x hx hxsize
    by_cases hbelow : (x - 1) / 2 = i
    · rw [hbelow]
      exact dominates_trans (by omega) hdom (dominates_largerChild hx hxsize hbelow)
    · exact hready.except x hx hxsize hbelow
  | case2 i h hi child hdom ih =>
    exact ih (hv.rearranges_swap (by omega) (largerChild_lt hi)).valid
      (hready.swap hv hi (Bool.eq_false_iff.mpr hdom))
  | case3 i h hi =>
    intro x hx hxsize
    exact hready.except x hx hxsize (by omega)

omit [Std.Total (α := P) (· ≤ ·)] in
theorem siftDown_of_dominates {h : PriorityHeap P} {i : Nat}
    (hdom : ∀ x, 0 < x → x < h.size → (x - 1) / 2 = i → h.dominates i x = true) :
    h.siftDown i = h := by
  unfold siftDown
  split
  · rename_i hi
    obtain ⟨hpos, hparent⟩ := parent_largerChild h i
    rw [if_pos (hdom _ hpos (largerChild_lt hi) hparent)]
  · rfl

namespace Ordered

variable {h : PriorityHeap P} (ho : h.Ordered) (hv : h.Valid)
include ho hv

/-- The key that was put above its place is not sifted down. -/
theorem siftDown_cut {i : Nat} (hpos : 0 < i) (hi : i + 1 < h.size)
    (hlast : h.dominates ((i - 1) / 2) (h.size - 1) = false) : (h.cut i).siftDown i = h.cut i := by
  have hsize := hv.size_le
  refine siftDown_of_dominates fun x hx hxsize hparent => ?_
  have hcut : (h.cut i).size = h.size - 1 := rfl
  rw [hcut] at hxsize
  rw [hv.dominates_cut (by omega), exchanged_left, exchanged_of_ne (by omega) (by omega)]
  exact dominates_trans (by omega) (dominates_of_not hlast)
    (ho.grand hv hpos (by omega) hx (by omega) hparent)

/-- A deletion keeps the order unless it lifts the last key above its parent. -/
theorem delete_iff (key : Nat) : (h.delete key).Ordered ↔ h.lifts key = false := by
  cases hpos : h.positions[key]? with
  | none =>
    rw [delete_of_le (by simp [hpos])]
    exact iff_of_true ho (by simp only [lifts, position?, hpos])
  | some i =>
    have hlifts : h.lifts key =
        (decide (0 < i ∧ i + 1 < h.size) && !h.dominates ((i - 1) / 2) (h.size - 1)) := by
      simp only [lifts, position?, hpos]
    rcases Nat.lt_or_ge i h.size with hi | hi
    · have hcut := (hv.cut ((hv.inverse i key).mpr hpos) hi).1
      rw [delete_eq hpos hi, hlifts]
      by_cases hlast : 0 < i ∧ i + 1 < h.size ∧ h.dominates ((i - 1) / 2) (h.size - 1) = false
      · obtain ⟨hipos, hilast, hlast⟩ := hlast
        have hat := hv.dominates_cut hi ((i - 1) / 2) i
        rw [exchanged_left, exchanged_of_ne (by omega) (by omega), hlast] at hat
        rw [ho.siftDown_cut hv hipos hilast hlast]
        refine iff_of_false (fun hord => ?_) (by simp [hipos, hilast, hlast])
        exact Bool.false_ne_true (hat.symm.trans (hord i hipos (Nat.lt_sub_of_add_lt hilast)))
      · refine iff_of_true ((ho.downReady_cut hv hi fun hipos hilast => ?_).siftDown hcut)
          (by grind)
        by_contra hnot
        exact hlast ⟨hipos, hilast, Bool.eq_false_iff.mpr hnot⟩
    · rw [delete_of_le (by simpa [hpos] using hi), hlifts]
      exact iff_of_true ho (by simp [show ¬ i + 1 < h.size by omega])

end Ordered

/-! ## Runs -/

/-- An increase increases every priority, and a division keeps their order. -/
def Call.Fair [Add P] [Div P] : Call P → Prop
  | .increase _ amount => ∀ p : P, p ≤ p + amount
  | .divideAll divisor => ∀ p q : P, p ≤ q → p / divisor ≤ q / divisor
  | _ => True

def Call.lifts : Call P → PriorityHeap P → Bool
  | .delete key, h => h.lifts key
  | _, _ => false

/-- No deletion among the calls lifts a key. -/
def neverLifts [Add P] [Div P] : List (Call P) → PriorityHeap P → Bool
  | [], _ => true
  | c :: cs, h => !c.lifts h && neverLifts cs (c.run h).2

theorem Ordered.call_iff [Add P] [Div P] {h : PriorityHeap P} (ho : h.Ordered) (hv : h.Valid)
    {c : Call P} (hfair : c.Fair) : (c.run h).2.Ordered ↔ c.lifts h = false := by
  cases c with
  | push p => exact iff_of_true (ho.push hv p) rfl
  | increase key amount => exact iff_of_true (ho.increase hv key hfair) rfl
  | delete key => exact ho.delete_iff hv key
  | restore key => exact iff_of_true (ho.restore hv key) rfl
  | divideAll divisor => exact iff_of_true (ho.divideAll hfair) rfl
  | pop =>
    refine iff_of_true ?_ rfl
    simp only [Call.run, pop]
    split
    · exact ho
    · rename_i hpeek
      exact (ho.delete_iff hv _).mpr (hv.lifts_of_peek? hpeek)

theorem Ordered.run_iff [Add P] [Div P] {h : PriorityHeap P} {t : Table P} (ho : h.Ordered)
    (hr : h.Represents t) {calls : List (Call P)} (hfair : ∀ c ∈ calls, c.Fair) :
    neverLifts calls h = true ↔ ∀ before, before <+: calls → (run before h).2.Ordered := by
  induction calls generalizing h t with
  | nil =>
    refine iff_of_true rfl fun before hbefore => ?_
    rw [List.prefix_nil.mp hbefore]
    exact ho
  | cons c cs ih =>
    have hcall := ho.call_iff hr.valid (hfair c (List.mem_cons_self ..))
    have hrest := fun hord => ih hord (hr.call c) fun c hc => hfair c (List.mem_cons_of_mem _ hc)
    rw [neverLifts, Bool.and_eq_true, Bool.not_eq_true']
    constructor
    · rintro ⟨hlifts, hnever⟩ before hbefore
      rcases List.prefix_cons_iff.mp hbefore with rfl | ⟨rest, rfl, hrestprefix⟩
      · exact ho
      · exact (hrest (hcall.mpr hlifts)).mp hnever rest hrestprefix
    · intro hord
      have hone : (c.run h).2.Ordered := hord [c] (List.prefix_append [c] cs)
      refine ⟨hcall.mp hone, (hrest hone).mpr fun before hbefore => ?_⟩
      exact hord (c :: before) ((List.prefix_cons_inj c).mpr hbefore)

/-- Whatever is pushed, put back, divided by a divisor that keeps the order, increased by an amount
that is not negative, taken out and popped, the heap is ordered all along if and only if no deletion
lifts the last key above its new parent. Then every pop and every look at the top answers with a key
that no other one exceeds, or with none if there is no key. -/
theorem serves_maximum_iff [Add P] [Div P] {calls : List (Call P)} (hfair : ∀ c ∈ calls, c.Fair) :
    (neverLifts calls empty = true ↔ ∀ before, before <+: calls → (run before empty).2.Ordered) ∧
      (neverLifts calls empty = true → ∀ before, before <+: calls →
        (run before empty).2.Serves (run before empty).2.peek? ∧
          (run before empty).2.Serves (run before empty).2.pop.1) := by
  have hiff := ordered_empty.run_iff (.nil : (empty : PriorityHeap P).Represents []) hfair
  refine ⟨hiff, fun hnever before hbefore => ?_⟩
  have hr := (Represents.nil : (empty : PriorityHeap P).Represents []).run before
  have hserves := (hiff.mp hnever before hbefore).serves hr.valid
  refine ⟨hserves, ?_⟩
  rw [pop_fst]
  exact hserves

/-- Seven keys, the last of them in another branch than the small ones below key 1. -/
def sevenKeys : List (Call Nat) := [.push 3, .push 0, .push 3, .push 0, .push 0, .push 0, .push 3]

/-- Taking key 5 out keeps the order. Taking key 3 out moves key 6 below key 1, which it exceeds, so
that after two pops the heap serves key 4, while key 6 is in. -/
theorem serves_maximum_iff_of_seven :
    (run (sevenKeys ++ [.delete 5, .pop]) empty).2.Serves (some 6) ∧
      (run (sevenKeys ++ [.delete 3, .pop, .pop]) empty).2.peek? = some 4 ∧
      ¬ (run (sevenKeys ++ [.delete 3, .pop, .pop]) empty).2.Serves (some 4) ∧
      ¬ ∀ before, before <+: sevenKeys ++ [.delete 3, .pop, .pop] →
      (run before empty).2.Ordered := by
  have hfair : ∀ key, ∀ c ∈ sevenKeys ++ [.delete key, .pop, .pop], c.Fair := by
    intro key c hc
    simp only [sevenKeys, List.cons_append, List.nil_append, List.mem_cons, List.not_mem_nil,
      or_false] at hc
    rcases hc with rfl | rfl | rfl | rfl | rfl | rfl | rfl | rfl | rfl | rfl <;> trivial
  have hkept := (serves_maximum_iff (hfair 5)).2 (by decide +kernel)
      (sevenKeys ++ [.delete 5, .pop])
    (by decide)
  have hpeek : (run (sevenKeys ++ [.delete 5, .pop]) empty).2.peek? = some 6 := by decide +kernel
  have hpeek' : (run (sevenKeys ++ [.delete 3, .pop, .pop]) empty).2.peek? = some 4 := by
    decide +kernel
  have hbroken : neverLifts (sevenKeys ++ [.delete 3, .pop, .pop]) empty = false := by
    decide +kernel
  refine ⟨hpeek ▸ hkept.1, hpeek', ?_, fun hall => ?_⟩
  · rintro ⟨-, p, hp, hmax⟩
    have hfour : (run (sevenKeys ++ [.delete 3, .pop, .pop]) empty).2.value? 4 = some 0 := by
      decide +kernel
    have hsix : (run (sevenKeys ++ [.delete 3, .pop, .pop]) empty).2.value? 6 = some 3 := by
      decide +kernel
    obtain ⟨q, hq, hle⟩ := hmax 6 (by decide +kernel)
    rw [hfour, Option.some_inj] at hp
    rw [hsix, Option.some_inj] at hq
    omega
  · rw [(serves_maximum_iff (hfair 3)).1.mpr hall] at hbroken
    cases hbroken

end ClauseLearning.PriorityHeap
