import ClauseLearning.PriorityHeap
import Mathlib.Data.List.Perm.Subperm

/-!
# The keys of the heap

What the operations of the heap do to the set of keys that are in it, which is all that the order of
decisions relies on. It rests on one invariant: the tables of keys and of positions are inverse to
each other (`PriorityHeap.Valid`).

A key leaves the heap in two steps: its position is cut off (`cut`), then the key that took its
place is sifted down. A key joins the heap the same way (`join`, then sifting up).

* `Valid.delete`, `Valid.restore`, `Valid.push`: the three operations that move a key.
* `Valid.contains_of_peek?`, `Valid.size_of_peek?`: what the top of the heap says.
-/

namespace ClauseLearning.PriorityHeap

variable {P : Type}

structure Valid (h : PriorityHeap P) : Prop where
  size_keys : h.keys.size = h.numKeys
  size_positions : h.positions.size = h.numKeys
  size_le : h.size ≤ h.numKeys
  inverse : ∀ i k : Nat, h.keys[i]? = some k ↔ h.positions[k]? = some i

theorem valid_empty : (empty : PriorityHeap P).Valid := ⟨rfl, rfl, Nat.le_refl _, by simp [empty]⟩

theorem contains_of_position {h : PriorityHeap P} {k i : Nat} (hk : h.positions[k]? = some i) :
    h.contains k = decide (i < h.size) := by
  simp [contains, position?, hk]

theorem contains_eq_false {h : PriorityHeap P} {k : Nat} (hk : h.positions[k]? = none) :
    h.contains k = false := by
  simp [contains, position?, hk]

theorem Valid.lt_of_contains {h : PriorityHeap P} (hv : h.Valid) {k : Nat}
    (hk : h.contains k = true) : k < h.numKeys := by
  obtain ⟨i, hi, -⟩ := (contains_iff h k).mp hk
  rw [← hv.size_positions]
  exact (Array.getElem?_eq_some_iff.mp hi).1

/-! ## Exchanging two positions -/

/-- Where the content of a position is after `i` and `j` were exchanged. -/
def exchanged (i j x : Nat) : Nat := if x = i then j else if x = j then i else x

theorem exchanged_exchanged (i j x : Nat) : exchanged i j (exchanged i j x) = x := by
  unfold exchanged
  split
  · split
    · omega
    · rw [if_pos rfl]
      omega
  · split
    · rw [if_pos rfl]
      omega
    · rfl

theorem exchanged_comm (i j x : Nat) : exchanged i j x = exchanged j i x := by
  unfold exchanged
  split
  · split
    · omega
    · rfl
  · rfl

theorem exchanged_left (i j : Nat) : exchanged i j i = j := if_pos rfl

theorem exchanged_right (i j : Nat) : exchanged i j j = i := by
  rw [exchanged_comm, exchanged_left]

theorem exchanged_of_ne {i j x : Nat} (hi : x ≠ i) (hj : x ≠ j) : exchanged i j x = x := by
  rw [exchanged, if_neg hi, if_neg hj]

theorem exchanged_lt_iff {i j n x : Nat} (h : i < n ↔ j < n) : exchanged i j x < n ↔ x < n := by
  unfold exchanged
  split
  · subst_vars
    exact h.symm
  · split
    · subst_vars
      exact h
    · exact Iff.rfl

theorem numKeys_swap (h : PriorityHeap P) (i j : Nat) : (h.swap i j).numKeys = h.numKeys := by
  simp [swap, numKeys]

theorem getElem?_swapIfInBounds {α : Type} {xs : Array α} {i j : Nat} (hi : i < xs.size)
    (hj : j < xs.size) (x : Nat) : (xs.swapIfInBounds i j)[x]? = xs[exchanged i j x]? := by
  simp only [Array.swapIfInBounds_def, hi, hj, dif_pos, Array.getElem?_swap, exchanged]
  by_cases hxi : x = i
  · subst hxi
    by_cases hjx : j = x
    · subst hjx
      simp [hi]
    · simp [hjx, hj]
  · by_cases hxj : x = j
    · subst hxj
      simp [hxi, hi]
    · have hjx : ¬ j = x := fun h => hxj h.symm
      have hix : ¬ i = x := fun h => hxi h.symm
      simp [hxi, hxj, hjx, hix]

namespace Valid

variable {h : PriorityHeap P} (hv : h.Valid)
include hv

theorem keys_swap {i j : Nat} (hi : i < h.numKeys) (hj : j < h.numKeys) (x : Nat) :
    (h.swap i j).keys[x]? = h.keys[exchanged i j x]? :=
  getElem?_swapIfInBounds (hv.size_keys.symm ▸ hi) (hv.size_keys.symm ▸ hj) x

theorem positions_swap {i j : Nat} (hi : i < h.numKeys) (hj : j < h.numKeys) (k : Nat) :
    (h.swap i j).positions[k]? = h.positions[k]?.map (exchanged i j) := by
  rw [← hv.size_keys] at hi hj
  have hki := (hv.inverse i h.keys[i]).mp (Array.getElem?_eq_getElem hi)
  have hkj := (hv.inverse j h.keys[j]).mp (Array.getElem?_eq_getElem hj)
  have hilt := (Array.getElem?_eq_some_iff.mp hki).1
  have hjlt := (Array.getElem?_eq_some_iff.mp hkj).1
  simp only [swap, Array.getElem?_eq_getElem hi, Array.getElem?_eq_getElem hj, Option.getD_some,
    Array.getElem?_setIfInBounds, Array.size_setIfInBounds, hilt, hjlt, if_true]
  by_cases hmk : h.keys[j] = k
  · rw [if_pos hmk, ← hmk, hkj, Option.map_some, exchanged]
    by_cases hji : j = i
    · rw [if_pos hji, hji]
    · rw [if_neg hji, if_pos rfl]
  · rw [if_neg hmk]
    by_cases hkk : h.keys[i] = k
    · rw [if_pos hkk, ← hkk, hki, Option.map_some, exchanged, if_pos rfl]
    · rw [if_neg hkk]
      cases hk : h.positions[k]? with
      | none => rfl
      | some x =>
        have hx := (hv.inverse x k).mpr hk
        have hxi : x ≠ i := by
          rintro rfl
          rw [Array.getElem?_eq_getElem hi] at hx
          exact hkk (Option.some.inj hx)
        have hxj : x ≠ j := by
          rintro rfl
          rw [Array.getElem?_eq_getElem hj] at hx
          exact hmk (Option.some.inj hx)
        rw [Option.map_some, exchanged, if_neg hxi, if_neg hxj]

theorem swap {i j : Nat} (hi : i < h.numKeys) (hj : j < h.numKeys) : (h.swap i j).Valid := by
  refine ⟨?_, ?_, ?_, ?_⟩
  · rw [numKeys_swap, ← hv.size_keys]
    simp [PriorityHeap.swap]
  · rw [numKeys_swap, ← hv.size_positions]
    simp [PriorityHeap.swap]
  · rw [numKeys_swap, size_swap]
    exact hv.size_le
  · intro x k
    rw [hv.keys_swap hi hj, hv.inverse, hv.positions_swap hi hj, Option.map_eq_some_iff]
    constructor
    · intro hx
      exact ⟨_, hx, exchanged_exchanged i j x⟩
    · rintro ⟨y, hy, rfl⟩
      rw [exchanged_exchanged]
      exact hy

/-- Exchanging positions on the same side of the border changes no key's side. -/
theorem contains_swap {i j : Nat} (hi : i < h.numKeys) (hj : j < h.numKeys)
    (hside : i < h.size ↔ j < h.size) (k : Nat) : (h.swap i j).contains k = h.contains k := by
  have hpos := hv.positions_swap hi hj k
  cases hk : h.positions[k]? with
  | none =>
    rw [hk] at hpos
    rw [contains_eq_false hk, contains_eq_false hpos]
  | some x =>
    rw [hk] at hpos
    rw [contains_of_position hk, contains_of_position hpos, size_swap]
    simp only [exchanged_lt_iff hside]

theorem value?_swap {i j : Nat} (hi : i < h.numKeys) (hj : j < h.numKeys) (k : Nat) :
    (h.swap i j).value? k = h.value? k := by
  have hpriorities : ∀ x, (h.swap i j).priorities[x]? = h.priorities[exchanged i j x]? :=
    getElem?_swapIfInBounds hi hj
  simp only [value?, position?, hv.positions_swap hi hj, Option.bind_map, Function.comp_def,
    hpriorities, exchanged_exchanged]

/-- A key is at one position only, so it does not matter which of the two is named first. -/
theorem swap_comm {i j : Nat} (hi : i < h.numKeys) (hj : j < h.numKeys) :
    h.swap i j = h.swap j i := by
  have harrays : ∀ {α : Type} {xs : Array α}, i < xs.size → j < xs.size →
      xs.swapIfInBounds i j = xs.swapIfInBounds j i := by
    intro α xs hi hj
    refine Array.ext_getElem? fun x => ?_
    rw [getElem?_swapIfInBounds hi hj, getElem?_swapIfInBounds hj hi, exchanged_comm]
  have hpositions : (h.swap i j).positions = (h.swap j i).positions := by
    refine Array.ext_getElem? fun k => ?_
    rw [hv.positions_swap hi hj, hv.positions_swap hj hi, funext (exchanged_comm i j)]
  have hpriorities : (h.swap i j).priorities = (h.swap j i).priorities := harrays hi hj
  have hkeys : (h.swap i j).keys = (h.swap j i).keys :=
    harrays (hv.size_keys.symm ▸ hi) (hv.size_keys.symm ▸ hj)
  calc h.swap i j = ⟨(h.swap i j).priorities, (h.swap i j).keys, (h.swap i j).positions,
      h.size⟩ := rfl
    _ = ⟨(h.swap j i).priorities, (h.swap j i).keys, (h.swap j i).positions, h.size⟩ := by
      rw [hpriorities, hkeys, hpositions]
    _ = h.swap j i := rfl

end Valid

/-! ## Other positions, the same keys -/

/-- The same keys with the same priorities, at other positions of the heap. -/
structure Rearranges (h h' : PriorityHeap P) : Prop where
  valid : h'.Valid
  size : h'.size = h.size
  numKeys : h'.numKeys = h.numKeys
  contains : ∀ k, h'.contains k = h.contains k
  value? : ∀ k, h'.value? k = h.value? k

namespace Rearranges

theorem refl {h : PriorityHeap P} (hv : h.Valid) : h.Rearranges h :=
  ⟨hv, rfl, rfl, fun _ => rfl, fun _ => rfl⟩

theorem trans {h₁ h₂ h₃ : PriorityHeap P} (h : h₁.Rearranges h₂) (h' : h₂.Rearranges h₃) :
    h₁.Rearranges h₃ :=
  ⟨h'.valid, h'.size.trans h.size, h'.numKeys.trans h.numKeys,
    fun k => (h'.contains k).trans (h.contains k), fun k => (h'.value? k).trans (h.value? k)⟩

end Rearranges

theorem Valid.rearranges_swap {h : PriorityHeap P} (hv : h.Valid) {i j : Nat} (hi : i < h.size)
    (hj : j < h.size) : h.Rearranges (h.swap i j) := by
  have hle := hv.size_le
  have hi' : i < h.numKeys := by omega
  have hj' : j < h.numKeys := by omega
  exact ⟨hv.swap hi' hj', rfl, numKeys_swap h i j,
    hv.contains_swap hi' hj' (by simp only [hi, hj]), hv.value?_swap hi' hj'⟩

/-! ## Keys in and out -/

/-- The heap without the key at a position, which is exchanged with the last one. -/
def cut (i : Nat) (h : PriorityHeap P) : PriorityHeap P :=
  ⟨(h.swap i (h.size - 1)).priorities, (h.swap i (h.size - 1)).keys,
    (h.swap i (h.size - 1)).positions, h.size - 1⟩

/-- The heap with the key at a position, which is exchanged with the first one that is out. -/
def join (i : Nat) (h : PriorityHeap P) : PriorityHeap P :=
  ⟨(h.swap i h.size).priorities, (h.swap i h.size).keys, (h.swap i h.size).positions, h.size + 1⟩

/-- One more key, which is out. -/
def append (p : P) (h : PriorityHeap P) : PriorityHeap P :=
  ⟨h.priorities.push p, h.keys.push h.positions.size, h.positions.push h.priorities.size, h.size⟩

theorem numKeys_append (h : PriorityHeap P) (p : P) : (h.append p).numKeys = h.numKeys + 1 := by
  simp [append, numKeys]

namespace Valid

variable {h : PriorityHeap P} (hv : h.Valid)
include hv

theorem lt_of_key {i key : Nat} (hkey : h.keys[i]? = some key) : i < h.numKeys :=
  hv.size_keys ▸ (Array.getElem?_eq_some_iff.mp hkey).1

/-- Each key is at its own position. -/
theorem position_eq_iff {i key k x : Nat} (hkey : h.keys[i]? = some key)
    (hk : h.positions[k]? = some x) : x = i ↔ k = key := by
  constructor
  · rintro rfl
    have hx := (hv.inverse x k).mpr hk
    rw [hkey] at hx
    exact (Option.some.inj hx).symm
  · rintro rfl
    rw [(hv.inverse i k).mp hkey] at hk
    exact (Option.some.inj hk).symm

theorem cut {i key : Nat} (hkey : h.keys[i]? = some key) (hi : i < h.size) :
    (h.cut i).Valid ∧ (h.cut i).numKeys = h.numKeys ∧
      ∀ k, (h.cut i).contains k = (h.contains k && k != key) := by
  have hle := hv.size_le
  have hinum : i < h.numKeys := by omega
  have hlast : h.size - 1 < h.numKeys := by omega
  have hswap := hv.swap hinum hlast
  refine ⟨⟨hswap.size_keys, hswap.size_positions, Nat.le_trans (Nat.sub_le _ _) hswap.size_le,
    hswap.inverse⟩, numKeys_swap h i _, fun k => ?_⟩
  have hpos : (h.cut i).positions[k]? = h.positions[k]?.map (exchanged i (h.size - 1)) :=
    hv.positions_swap hinum hlast k
  cases hk : h.positions[k]? with
  | none =>
    rw [hk] at hpos
    rw [contains_eq_false hpos, contains_eq_false hk, Bool.false_and]
  | some x =>
    rw [hk] at hpos
    rw [contains_of_position hpos, contains_of_position hk]
    show decide (exchanged i (h.size - 1) x < h.size - 1) = _
    have hxi := hv.position_eq_iff hkey hk
    unfold exchanged
    by_cases hkk : k = key
    · rw [if_pos (hxi.mpr hkk)]
      simp [hkk]
    · have hne : x ≠ i := fun h => hkk (hxi.mp h)
      have hbne : (k != key) = true := by simpa using hkk
      rw [if_neg hne, hbne, Bool.and_true, decide_eq_decide]
      split
      · omega
      · omega

theorem join {i key : Nat} (hkey : h.keys[i]? = some key) (hi : h.size ≤ i) :
    (h.join i).Valid ∧ (h.join i).numKeys = h.numKeys ∧
      ∀ k, (h.join i).contains k = (h.contains k || k == key) := by
  have hinum := hv.lt_of_key hkey
  have hsize : h.size < h.numKeys := by omega
  have hswap := hv.swap hinum hsize
  refine ⟨⟨hswap.size_keys, hswap.size_positions, ?_, hswap.inverse⟩, numKeys_swap h i _,
    fun k => ?_⟩
  · show h.size + 1 ≤ (h.swap i h.size).numKeys
    rw [numKeys_swap]
    omega
  have hpos : (h.join i).positions[k]? = h.positions[k]?.map (exchanged i h.size) :=
    hv.positions_swap hinum hsize k
  cases hk : h.positions[k]? with
  | none =>
    rw [hk] at hpos
    have hne : k ≠ key := by
      rintro rfl
      rw [(hv.inverse i k).mp hkey] at hk
      cases hk
    rw [contains_eq_false hpos, contains_eq_false hk]
    simpa using hne
  | some x =>
    rw [hk] at hpos
    rw [contains_of_position hpos, contains_of_position hk]
    show decide (exchanged i h.size x < h.size + 1) = _
    have hxi := hv.position_eq_iff hkey hk
    unfold exchanged
    by_cases hkk : k = key
    · rw [if_pos (hxi.mpr hkk)]
      simp [hkk]
    · have hne : x ≠ i := fun h => hkk (hxi.mp h)
      have hbeq : (k == key) = false := by simpa using hkk
      rw [if_neg hne, hbeq, Bool.or_false, decide_eq_decide]
      split
      · omega
      · omega

theorem keys_append (p : P) (i : Nat) :
    (h.append p).keys[i]? = if i = h.numKeys then some h.numKeys else h.keys[i]? := by
  simp only [PriorityHeap.append, Array.getElem?_push, hv.size_keys, hv.size_positions]

theorem positions_append (p : P) (k : Nat) :
    (h.append p).positions[k]? = if k = h.numKeys then some h.numKeys else h.positions[k]? := by
  simp only [PriorityHeap.append, Array.getElem?_push, hv.size_positions]
  rfl

theorem append (p : P) : (h.append p).Valid := by
  refine ⟨?_, ?_, ?_, fun i k => ?_⟩
  · rw [numKeys_append, ← hv.size_keys]
    exact Array.size_push _
  · rw [numKeys_append, ← hv.size_positions]
    exact Array.size_push _
  · rw [numKeys_append]
    exact Nat.le_succ_of_le hv.size_le
  · have hnokey : h.keys[h.numKeys]? = none := Array.getElem?_eq_none (Nat.le_of_eq hv.size_keys)
    have hnoposition : h.positions[h.numKeys]? = none :=
      Array.getElem?_eq_none (Nat.le_of_eq hv.size_positions)
    rw [hv.keys_append, hv.positions_append]
    by_cases hi : i = h.numKeys
    · by_cases hk : k = h.numKeys
      · simp [hi, hk]
      · have hnot : h.positions[k]? ≠ some h.numKeys := by
          rw [Ne, ← hv.inverse, hnokey]
          simp
        simp [hi, hk, Ne.symm hk, hnot]
    · by_cases hk : k = h.numKeys
      · have hnot : h.keys[i]? ≠ some h.numKeys := by
          rw [Ne, hv.inverse, hnoposition]
          simp
        simp [hi, hk, Ne.symm hi, hnot]
      · simp only [hi, hk, if_false]
        exact hv.inverse i k

theorem contains_append (p : P) (k : Nat) : (h.append p).contains k = h.contains k := by
  have hpos := hv.positions_append p k
  by_cases hk : k = h.numKeys
  · subst hk
    have hnone : h.positions[h.numKeys]? = none :=
      Array.getElem?_eq_none (Nat.le_of_eq hv.size_positions)
    rw [if_pos rfl] at hpos
    rw [contains_of_position hpos, contains_eq_false hnone, decide_eq_false_iff_not]
    exact Nat.not_lt.mpr hv.size_le
  · rw [if_neg hk] at hpos
    simp only [contains, position?, hpos]
    rfl

end Valid

/-! ## Priorities -/

/-- The heap with more priority for the key at a position. -/
def raise [Add P] (i : Nat) (amount : P) (h : PriorityHeap P) : PriorityHeap P :=
  ⟨h.priorities.modify i (· + amount), h.keys, h.positions, h.size⟩

theorem numKeys_raise [Add P] (h : PriorityHeap P) (i : Nat) (amount : P) :
    (h.raise i amount).numKeys = h.numKeys := by
  simp [raise, numKeys]

theorem Valid.raise [Add P] {h : PriorityHeap P} (hv : h.Valid) (i : Nat) (amount : P) :
    (h.raise i amount).Valid := by
  have hnum := numKeys_raise h i amount
  exact ⟨hv.size_keys.trans hnum.symm, hv.size_positions.trans hnum.symm, hnum ▸ hv.size_le,
    hv.inverse⟩

theorem Valid.divideAll [Div P] {h : PriorityHeap P} (hv : h.Valid) (divisor : P) :
    (h.divideAll divisor).Valid ∧ (h.divideAll divisor).numKeys = h.numKeys ∧
      ∀ k, (h.divideAll divisor).contains k = h.contains k := by
  have hnum : (h.divideAll divisor).numKeys = h.numKeys := by
    simp [PriorityHeap.divideAll, numKeys]
  exact ⟨⟨hv.size_keys.trans hnum.symm, hv.size_positions.trans hnum.symm,
    (by rw [hnum]; exact hv.size_le), hv.inverse⟩, hnum, fun _ => rfl⟩

/-! ## The top -/

theorem Valid.contains_of_peek? {h : PriorityHeap P} (hv : h.Valid) {k : Nat}
    (hk : h.peek? = some k) : h.contains k = true := by
  unfold peek? at hk
  split at hk
  · rename_i hpos
    rw [contains_of_position ((hv.inverse 0 k).mp hk)]
    simpa using hpos
  · cases hk

theorem Valid.size_of_peek? {h : PriorityHeap P} (hv : h.Valid) (hk : h.peek? = none) :
    h.size = 0 := by
  unfold peek? at hk
  split at hk
  · rename_i hpos
    have hlen := Array.getElem?_eq_none_iff.mp hk
    rw [hv.size_keys] at hlen
    have := hv.size_le
    omega
  · omega

theorem contains_of_size_eq_zero {h : PriorityHeap P} (hs : h.size = 0) (k : Nat) :
    h.contains k = false := by
  cases hk : h.positions[k]? with
  | none => exact contains_eq_false hk
  | some i => simp [contains_of_position hk, hs]

/-! ## Sifting up -/

variable [LE P] [DecidableLE P]

/-- Sifting up only moves keys within the heap. -/
theorem Valid.siftUp {h : PriorityHeap P} (hv : h.Valid) {i : Nat} (hi : i < h.size) :
    h.Rearranges (h.siftUp i) := by
  fun_induction PriorityHeap.siftUp i h with
  | case1 => exact .refl hv
  | case2 i h hpos parent hdom ih =>
    have hparent : parent < h.size := by omega
    have hswap := hv.rearranges_swap hparent hi
    exact hswap.trans (ih hswap.valid hparent)
  | case3 => exact .refl hv

theorem restore_eq {h : PriorityHeap P} {key i : Nat} (hpos : h.positions[key]? = some i)
    (hi : h.size ≤ i) : h.restore key = siftUp h.size (h.join i) := by
  simp only [restore, position?, hpos, if_neg (Nat.not_lt.mpr hi)]
  rfl

theorem restore_of_lt {h : PriorityHeap P} {key : Nat}
    (hin : ∀ i : Nat, h.positions[key]? = some i → i < h.size) : h.restore key = h := by
  unfold restore
  split
  · rfl
  · rename_i i hpos
    rw [if_pos (hin i hpos)]

theorem Valid.push_eq {h : PriorityHeap P} (hv : h.Valid) (p : P) :
    h.push p = PriorityHeap.siftUp h.size ((h.append p).join h.numKeys) := by
  have hle := hv.size_le
  have hnum := numKeys_append h p
  have hcomm := (hv.append p).swap_comm (i := h.numKeys) (j := h.size) (by omega) (by omega)
  have hsize : (h.append p).size = h.size := rfl
  unfold PriorityHeap.join
  rw [hsize, hcomm]
  rfl

theorem Valid.restore {h : PriorityHeap P} (hv : h.Valid) (key : Nat) :
    (h.restore key).Valid ∧ (h.restore key).numKeys = h.numKeys ∧
      ∀ k, (h.restore key).contains k = (h.contains k || (k == key && decide (k < h.numKeys))) := by
  by_cases hout : ∃ i : Nat, h.positions[key]? = some i ∧ h.size ≤ i
  · obtain ⟨i, hpos, hi⟩ := hout
    have hlt : key < h.numKeys := hv.size_positions ▸ (Array.getElem?_eq_some_iff.mp hpos).1
    obtain ⟨hjoin, hnum, hcon⟩ := hv.join ((hv.inverse i key).mpr hpos) hi
    have hsift := hjoin.siftUp (i := h.size) (Nat.lt_succ_self h.size)
    rw [restore_eq hpos hi]
    refine ⟨hsift.valid, hsift.numKeys.trans hnum, fun k => ?_⟩
    rw [hsift.contains, hcon]
    by_cases hk : k = key
    · simp [hk, hlt]
    · have hbeq : (k == key) = false := by simpa using hk
      rw [hbeq, Bool.false_and]
  · have hin : ∀ i : Nat, h.positions[key]? = some i → i < h.size := fun i hpos =>
      Nat.lt_of_not_le fun hi => hout ⟨i, hpos, hi⟩
    rw [restore_of_lt hin]
    refine ⟨hv, rfl, fun k => ?_⟩
    by_cases hk : k = key
    · subst hk
      cases hpos : h.positions[k]? with
      | none =>
        have hge : ¬ k < h.numKeys := by
          rw [← hv.size_positions]
          exact Nat.not_lt.mpr (Array.getElem?_eq_none_iff.mp hpos)
        simp [hge]
      | some i => simp [contains_of_position hpos, hin i hpos]
    · simp [hk]

theorem Valid.push {h : PriorityHeap P} (hv : h.Valid) (p : P) :
    (h.push p).Valid ∧ (h.push p).numKeys = h.numKeys + 1 ∧
      ∀ k, (h.push p).contains k = (h.contains k || k == h.numKeys) := by
  have hkey : (h.append p).keys[h.numKeys]? = some h.numKeys := by rw [hv.keys_append, if_pos rfl]
  obtain ⟨hjoin, hnum, hcon⟩ := (hv.append p).join hkey hv.size_le
  have hsift := hjoin.siftUp (i := h.size) (Nat.lt_succ_self h.size)
  rw [hv.push_eq]
  refine ⟨hsift.valid, (hsift.numKeys.trans hnum).trans (numKeys_append h p), fun k => ?_⟩
  rw [hsift.contains, hcon, hv.contains_append]

theorem increase_of_lt [Add P] {h : PriorityHeap P} {key i : Nat} (amount : P)
    (hpos : h.positions[key]? = some i) (hi : i < h.size) :
    h.increase key amount = (h.raise i amount).siftUp i := by
  simp only [increase, position?, hpos, if_pos hi]
  rfl

theorem increase_of_le [Add P] {h : PriorityHeap P} {key i : Nat} (amount : P)
    (hpos : h.positions[key]? = some i) (hi : h.size ≤ i) :
    h.increase key amount = h.raise i amount := by
  simp only [increase, position?, hpos, if_neg (Nat.not_lt.mpr hi)]
  rfl

theorem increase_of_none [Add P] {h : PriorityHeap P} {key : Nat} (amount : P)
    (hpos : h.positions[key]? = none) : h.increase key amount = h := by
  simp only [increase, position?, hpos]

/-- An increase rearranges the heap in which it is made. -/
theorem Valid.increase_spec [Add P] {h : PriorityHeap P} (hv : h.Valid) {key i : Nat} (amount : P)
    (hpos : h.positions[key]? = some i) :
    (h.raise i amount).Rearranges (h.increase key amount) := by
  rcases Nat.lt_or_ge i h.size with hi | hi
  · rw [increase_of_lt amount hpos hi]
    exact (hv.raise i amount).siftUp hi
  · rw [increase_of_le amount hpos hi]
    exact .refl (hv.raise i amount)

theorem Valid.increase [Add P] {h : PriorityHeap P} (hv : h.Valid) (key : Nat) (amount : P) :
    (h.increase key amount).Valid ∧ (h.increase key amount).numKeys = h.numKeys ∧
      ∀ k, (h.increase key amount).contains k = h.contains k := by
  cases hpos : h.positions[key]? with
  | none =>
    rw [increase_of_none amount hpos]
    exact ⟨hv, rfl, fun _ => rfl⟩
  | some i =>
    have hraised := hv.increase_spec amount hpos
    exact ⟨hraised.valid, hraised.numKeys.trans (numKeys_raise h i amount), hraised.contains⟩

/-! ## Sifting down -/

variable [LT P] [DecidableLT P]

omit [LE P] [DecidableLE P] in
theorem largerChild_lt {h : PriorityHeap P} {i : Nat} (hi : 2 * i + 1 < h.size) :
    h.largerChild i < h.size := by
  unfold largerChild
  split
  · omega
  · exact hi

/-- Sifting down only moves keys within the heap. -/
theorem Valid.siftDown {h : PriorityHeap P} (hv : h.Valid) (i : Nat) :
    h.Rearranges (h.siftDown i) := by
  fun_induction PriorityHeap.siftDown i h with
  | case1 => exact .refl hv
  | case2 i h hpos child hdom ih =>
    have hswap := hv.rearranges_swap (i := i) (by omega) (largerChild_lt hpos)
    exact hswap.trans (ih hswap.valid)
  | case3 => exact .refl hv

/-- Nothing is sifted from a position outside of the heap. -/
theorem siftDown_of_le {h : PriorityHeap P} {i : Nat} (hi : h.size ≤ i) : h.siftDown i = h := by
  unfold siftDown
  rw [dif_neg (by omega)]

theorem delete_eq {h : PriorityHeap P} {key i : Nat} (hpos : h.positions[key]? = some i)
    (hi : i < h.size) : h.delete key = (h.cut i).siftDown i := by
  have hrun : h.delete key = if i < (h.cut i).size then (h.cut i).siftDown i else h.cut i := by
    simp only [delete, position?, hpos, if_pos hi]
    rfl
  rw [hrun]
  split
  · rfl
  · rename_i hout
    exact (siftDown_of_le (Nat.le_of_not_lt hout)).symm

theorem delete_of_le {h : PriorityHeap P} {key : Nat}
    (hout : ∀ i : Nat, h.positions[key]? = some i → h.size ≤ i) : h.delete key = h := by
  unfold delete
  split
  · rfl
  · rename_i i hpos
    rw [if_neg (Nat.not_lt.mpr (hout i hpos))]

theorem Valid.delete {h : PriorityHeap P} (hv : h.Valid) (key : Nat) :
    (h.delete key).Valid ∧ (h.delete key).numKeys = h.numKeys ∧
      ∀ k, (h.delete key).contains k = (h.contains k && k != key) := by
  by_cases hin : h.contains key = true
  · obtain ⟨i, hpos, hi⟩ := (contains_iff h key).mp hin
    obtain ⟨hcut, hnum, hcon⟩ := hv.cut ((hv.inverse i key).mpr hpos) hi
    have hsift := hcut.siftDown i
    rw [delete_eq hpos hi]
    exact ⟨hsift.valid, hsift.numKeys.trans hnum, fun k => (hsift.contains k).trans (hcon k)⟩
  · have hout : ∀ i : Nat, h.positions[key]? = some i → h.size ≤ i := fun i hpos =>
      Nat.le_of_not_lt fun hi => hin ((contains_iff h key).mpr ⟨i, hpos, hi⟩)
    rw [delete_of_le hout]
    refine ⟨hv, rfl, fun k => ?_⟩
    by_cases hk : k = key
    · rw [hk, Bool.eq_false_iff.mpr hin, Bool.false_and]
    · simp [hk]

theorem Valid.size_delete_of_peek? {h : PriorityHeap P} (hv : h.Valid) {k : Nat}
    (hk : h.peek? = some k) : (h.delete k).size + 1 = h.size := by
  unfold peek? at hk
  split at hk
  · rename_i hpos
    have hzero := (hv.inverse 0 k).mp hk
    rw [delete_eq hzero hpos, size_siftDown]
    show h.size - 1 + 1 = h.size
    omega
  · cases hk

end ClauseLearning.PriorityHeap
