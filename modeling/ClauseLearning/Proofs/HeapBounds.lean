import Mathlib.Data.List.Nodup
import ClauseLearning.Proofs.Priorities
import ClauseLearning.Proofs.Propagation

/-!
# The heap within its bounds

The operations of a heap read and write positions that are there. To say so, each one is written a
second time with every access checked, and the two are shown to agree: calls that name keys which
were added find nothing out of bounds.

* `Checked`: the operations with checks.
* `Checked.run_eq`: with the invariant of the heap the checks make no difference.
* `run_is_table`: a heap after any calls is a table, two inverse permutations, and within bounds.
-/

namespace ClauseLearning.PriorityHeap

variable {P : Type}

/-! ## Checked accesses -/

namespace Checked

def read {α : Type} (xs : Array α) (i : Nat) : Except Fault α :=
  match xs[i]? with
  | some x => .ok x
  | none => .error (.outOfBounds xs.size i)

def write {α : Type} (xs : Array α) (i : Nat) (x : α) : Except Fault (Array α) :=
  if i < xs.size then .ok (xs.setIfInBounds i x) else .error (.outOfBounds xs.size i)

def exchange {α : Type} (xs : Array α) (i j : Nat) : Except Fault (Array α) := do
  let x ← read xs i
  let y ← read xs j
  let xs ← write xs i y
  write xs j x

theorem read_eq {α : Type} {xs : Array α} {i : Nat} {x : α} (h : xs[i]? = some x) :
    read xs i = .ok x := by
  rw [read, h]

theorem write_eq {α : Type} {xs : Array α} {i : Nat} (hi : i < xs.size) (x : α) :
    write xs i x = .ok (xs.setIfInBounds i x) := if_pos hi

theorem setIfInBounds_eq_modify {α : Type} {xs : Array α} {i : Nat} {x : α} (h : xs[i]? = some x)
    (f : α → α) : xs.setIfInBounds i (f x) = xs.modify i f := by
  have hi := (Array.getElem?_eq_some_iff.mp h).1
  refine Array.ext_getElem? fun j => ?_
  rw [Array.getElem?_setIfInBounds, Array.getElem?_modify]
  split
  · rename_i hj
    rw [← hj, h]
    rfl
  · rfl

theorem exchange_eq {α : Type} {xs : Array α} {i j : Nat} (hi : i < xs.size) (hj : j < xs.size) :
    exchange xs i j = .ok (xs.swapIfInBounds i j) := by
  have hj' : j < (xs.setIfInBounds i xs[j]).size := by rwa [Array.size_setIfInBounds]
  simp only [exchange, read_eq (Array.getElem?_eq_getElem hi),
    read_eq (Array.getElem?_eq_getElem hj), write_eq hi, write_eq hj', bind, Except.bind]
  congr 1
  refine Array.ext_getElem? fun x => ?_
  rw [getElem?_swapIfInBounds hi hj, Array.getElem?_setIfInBounds, Array.getElem?_setIfInBounds,
    Array.size_setIfInBounds, exchanged]
  grind

/-! ## Checked operations -/

def swap (i j : Nat) (h : PriorityHeap P) : Except Fault (PriorityHeap P) := do
  let k ← read h.keys i
  let m ← read h.keys j
  let priorities ← exchange h.priorities i j
  let keys ← exchange h.keys i j
  let positions ← write h.positions k j
  let positions ← write positions m i
  return ⟨priorities, keys, positions, h.size⟩

theorem size_of_swap {i j : Nat} {h h' : PriorityHeap P} (hrun : swap i j h = .ok h') :
    h'.size = h.size := by
  unfold swap at hrun
  obtain ⟨k, -, hrun⟩ := ok_of_bind hrun
  obtain ⟨m, -, hrun⟩ := ok_of_bind hrun
  obtain ⟨priorities, -, hrun⟩ := ok_of_bind hrun
  obtain ⟨keys, -, hrun⟩ := ok_of_bind hrun
  obtain ⟨positions, -, hrun⟩ := ok_of_bind hrun
  obtain ⟨positions, -, hrun⟩ := ok_of_bind hrun
  cases hrun
  rfl

def contains (h : PriorityHeap P) (key : Nat) : Except Fault Bool := do
  if key < h.positions.size then
    let i ← read h.positions key
    return decide (i < h.size)
  else return false

def value (h : PriorityHeap P) (key : Nat) : Except Fault P := do
  let i ← read h.positions key
  read h.priorities i

def peek? (h : PriorityHeap P) : Except Fault (Option Nat) := do
  if 0 < h.size then
    let key ← read h.keys 0
    return some key
  else return none

section

variable [LE P] [LT P] [DecidableLE P] [DecidableLT P]

def dominates (h : PriorityHeap P) (i j : Nat) : Except Fault Bool := do
  let p ← read h.priorities i
  let q ← read h.priorities j
  return decide (q ≤ p)

def isBelow (h : PriorityHeap P) (i j : Nat) : Except Fault Bool := do
  let p ← read h.priorities i
  let q ← read h.priorities j
  return decide (p < q)

def siftUp (i : Nat) (h : PriorityHeap P) : Except Fault (PriorityHeap P) := do
  if 0 < i then
    if ← dominates h ((i - 1) / 2) i then return h
    else siftUp ((i - 1) / 2) (← swap ((i - 1) / 2) i h)
  else return h
termination_by i
decreasing_by omega

def largerChild (h : PriorityHeap P) (i : Nat) : Except Fault Nat := do
  if 2 * i + 2 < h.size then
    return if ← isBelow h (2 * i + 1) (2 * i + 2) then 2 * i + 2 else 2 * i + 1
  else return 2 * i + 1

omit [LE P] [DecidableLE P] in
theorem lt_of_largerChild {h : PriorityHeap P} {i child : Nat}
    (hrun : largerChild h i = .ok child) : i < child := by
  unfold largerChild at hrun
  split at hrun
  · obtain ⟨below, -, hrun⟩ := ok_of_bind hrun
    cases hrun
    split <;> omega
  · cases hrun
    omega

def siftDown (i : Nat) (h : PriorityHeap P) : Except Fault (PriorityHeap P) :=
  if _hi : 2 * i + 1 < h.size then
    match _hchild : largerChild h i with
    | .error fault => .error fault
    | .ok child =>
      match dominates h i child with
      | .error fault => .error fault
      | .ok true => .ok h
      | .ok false =>
        match _hswap : swap i child h with
        | .error fault => .error fault
        | .ok h' => siftDown child h'
  else .ok h
termination_by h.size - i
decreasing_by
  have hlt := lt_of_largerChild _hchild
  rw [size_of_swap _hswap]
  omega

theorem siftDown_of_lt {i : Nat} {h : PriorityHeap P} (hi : 2 * i + 1 < h.size) :
    siftDown i h = (do
      let child ← largerChild h i
      if ← dominates h i child then return h
      else siftDown child (← swap i child h)) := by
  rw [siftDown, dif_pos hi]
  split
  · rename_i fault hchild
    rw [hchild]
    rfl
  · rename_i child hchild
    rw [hchild]
    show _ = dominates h i child >>= _
    split
    · rename_i fault hdom
      rw [hdom]
      rfl
    · rename_i hdom
      rw [hdom]
      rfl
    · rename_i hdom
      rw [hdom]
      show _ = swap i child h >>= _
      split
      · rename_i fault hswap
        rw [hswap]
        rfl
      · rename_i h' hswap
        rw [hswap]
        rfl

def delete (key : Nat) (h : PriorityHeap P) : Except Fault (PriorityHeap P) := do
  if ← contains h key then
    let i ← read h.positions key
    let h ← swap i (h.size - 1) h
    let h := { h with size := h.size - 1 }
    if i < h.size then siftDown i h else return h
  else return h

def restore (key : Nat) (h : PriorityHeap P) : Except Fault (PriorityHeap P) := do
  if ← contains h key then return h
  else
    let i ← read h.positions key
    let h ← swap i h.size h
    siftUp h.size { h with size := h.size + 1 }

def push (p : P) (h : PriorityHeap P) : Except Fault (PriorityHeap P) := do
  let h ← swap h.size h.priorities.size (h.append p)
  siftUp h.size { h with size := h.size + 1 }

def increase [Add P] (key : Nat) (amount : P) (h : PriorityHeap P) :
    Except Fault (PriorityHeap P) := do
  let i ← read h.positions key
  let p ← read h.priorities i
  let priorities ← write h.priorities i (p + amount)
  let h := { h with priorities }
  if i < h.size then siftUp i h else return h

def pop (h : PriorityHeap P) : Except Fault (Option Nat × PriorityHeap P) := do
  match ← peek? h with
  | none => return (none, h)
  | some key => return (some key, ← delete key h)

def call [Add P] [Div P] : Call P → PriorityHeap P → Except Fault (Option Nat × PriorityHeap P)
  | .push p, h => return (none, ← push p h)
  | .increase key amount, h => return (none, ← increase key amount h)
  | .delete key, h => return (none, ← delete key h)
  | .restore key, h => return (none, ← restore key h)
  | .divideAll divisor, h => return (none, h.divideAll divisor)
  | .pop, h => pop h

def run [Add P] [Div P] : List (Call P) → PriorityHeap P →
    Except Fault (List (Call P × Option Nat) × PriorityHeap P)
  | [], h => return ([], h)
  | c :: cs, h => do
    let (answer, h) ← call c h
    let (log, h) ← run cs h
    return ((c, answer) :: log, h)

end

/-! ## The checks make no difference -/

variable {h : PriorityHeap P}

theorem contains_eq (h : PriorityHeap P) (key : Nat) : contains h key = .ok (h.contains key) := by
  unfold contains
  split
  · rename_i hlt
    have hpos := Array.getElem?_eq_getElem hlt
    rw [read_eq hpos, contains_of_position hpos]
    rfl
  · rename_i hge
    rw [contains_eq_false (Array.getElem?_eq_none (Nat.le_of_not_lt hge))]
    rfl

theorem value_eq {key : Nat} {p : P} (hp : h.value? key = some p) : value h key = .ok p := by
  obtain ⟨i, hpos, hp⟩ := Option.bind_eq_some_iff.mp hp
  simp only [value, read_eq hpos, bind, Except.bind]
  exact read_eq hp

variable (hv : h.Valid)

section

include hv

theorem swap_eq {i j : Nat} (hi : i < h.numKeys) (hj : j < h.numKeys) :
    swap i j h = .ok (h.swap i j) := by
  have hik : i < h.keys.size := hv.size_keys.symm ▸ hi
  have hjk : j < h.keys.size := hv.size_keys.symm ▸ hj
  have hk : h.keys[i]? = some h.keys[i] := Array.getElem?_eq_getElem hik
  have hm : h.keys[j]? = some h.keys[j] := Array.getElem?_eq_getElem hjk
  have hkp := (Array.getElem?_eq_some_iff.mp ((hv.inverse i _).mp hk)).1
  have hmp : h.keys[j] < (h.positions.setIfInBounds h.keys[i] j).size := by
    rw [Array.size_setIfInBounds]
    exact (Array.getElem?_eq_some_iff.mp ((hv.inverse j _).mp hm)).1
  have hpriorities : exchange h.priorities i j = .ok (h.priorities.swapIfInBounds i j) :=
    exchange_eq hi hj
  simp only [swap, read_eq hk, read_eq hm, exchange_eq hik hjk, hpriorities, write_eq hkp,
    write_eq hmp, bind, Except.bind, pure, Except.pure]
  simp only [PriorityHeap.swap, hk, hm, Option.getD_some]

theorem peek?_eq : peek? h = .ok h.peek? := by
  unfold peek? PriorityHeap.peek?
  split
  · rename_i hpos
    have hlt : 0 < h.keys.size := hv.size_keys.symm ▸ Nat.lt_of_lt_of_le hpos hv.size_le
    have hkey := Array.getElem?_eq_getElem hlt
    rw [read_eq hkey, hkey]
    rfl
  · rfl

end

section

variable [LE P] [DecidableLE P]

theorem dominates_eq {i j : Nat} (hi : i < h.numKeys) (hj : j < h.numKeys) :
    dominates h i j = .ok (h.dominates i j) := by
  have hp : h.priorities[i]? = some h.priorities[i] := Array.getElem?_eq_getElem hi
  have hq : h.priorities[j]? = some h.priorities[j] := Array.getElem?_eq_getElem hj
  simp only [dominates, PriorityHeap.dominates, read_eq hp, read_eq hq, hp, hq, bind, Except.bind,
    pure, Except.pure]

include hv

theorem siftUp_eq {i : Nat} (hi : i < h.size) : siftUp i h = .ok (h.siftUp i) := by
  have hle := hv.size_le
  fun_induction PriorityHeap.siftUp i h with
  | case1 i h hpos parent hdom =>
    unfold siftUp
    rw [if_pos hpos, dominates_eq (by omega) (by omega), hdom]
    rfl
  | case2 i h hpos parent hdom ih =>
    have hparent : parent < h.size := by omega
    have hswap := hv.rearranges_swap hparent hi
    have hrest := ih hswap.valid hparent hswap.valid.size_le
    unfold siftUp
    rw [if_pos hpos, dominates_eq (by omega) (by omega), Bool.eq_false_iff.mpr hdom]
    show swap parent i h >>= _ = _
    rw [swap_eq hv (by omega) (by omega)]
    exact hrest
  | case3 i h hpos =>
    unfold siftUp
    rw [if_neg hpos]
    rfl

theorem restore_eq {key : Nat} (hkey : key < h.numKeys) : restore key h = .ok (h.restore key) := by
  unfold restore
  rw [contains_eq]
  obtain ⟨i, hpos⟩ : ∃ i : Nat, h.positions[key]? = some i :=
    ⟨_, Array.getElem?_eq_getElem (hv.size_positions.symm ▸ hkey)⟩
  rcases Nat.lt_or_ge i h.size with hi | hi
  · rw [contains_of_position hpos, decide_eq_true hi, restore_of_lt fun j hj => by
      rw [hpos] at hj
      cases hj
      exact hi]
    rfl
  · have hk := (hv.inverse i key).mpr hpos
    have hinum := hv.lt_of_key hk
    rw [contains_of_position hpos, decide_eq_false (Nat.not_lt.mpr hi),
      PriorityHeap.restore_eq hpos hi]
    show read h.positions key >>= _ = _
    rw [read_eq hpos]
    show swap i h.size h >>= _ = _
    rw [swap_eq hv hinum (by omega)]
    exact siftUp_eq (hv.join hk hi).1 (Nat.lt_succ_self h.size)

theorem push_eq (p : P) : push p h = .ok (h.push p) := by
  have hle := hv.size_le
  have hnum := numKeys_append h p
  have hkey : (h.append p).keys[h.numKeys]? = some h.numKeys := by rw [hv.keys_append, if_pos rfl]
  have hswap : swap h.size h.numKeys (h.append p) = .ok ((h.append p).swap h.numKeys h.size) := by
    rw [swap_eq (hv.append p) (by omega) (by omega), (hv.append p).swap_comm (by omega) (by omega)]
  unfold push
  show swap h.size h.numKeys (h.append p) >>= _ = _
  rw [hswap, hv.push_eq]
  exact siftUp_eq ((hv.append p).join hkey hle).1 (Nat.lt_succ_self h.size)

theorem increase_eq [Add P] {key : Nat} (hkey : key < h.numKeys) (amount : P) :
    increase key amount h = .ok (h.increase key amount) := by
  obtain ⟨i, hpos⟩ : ∃ i : Nat, h.positions[key]? = some i :=
    ⟨_, Array.getElem?_eq_getElem (hv.size_positions.symm ▸ hkey)⟩
  have hinum : i < h.priorities.size := hv.lt_of_key ((hv.inverse i key).mpr hpos)
  have hp := Array.getElem?_eq_getElem hinum
  unfold increase
  rw [read_eq hpos]
  show read h.priorities i >>= _ = _
  rw [read_eq hp]
  show write h.priorities i _ >>= _ = _
  rw [write_eq hinum, setIfInBounds_eq_modify hp (· + amount)]
  show (if i < h.size then siftUp i (h.raise i amount) else .ok (h.raise i amount)) = _
  split
  · rename_i hi
    rw [increase_of_lt amount hpos hi]
    exact siftUp_eq (hv.raise i amount) hi
  · rename_i hi
    rw [increase_of_le amount hpos (Nat.le_of_not_lt hi)]

variable [LT P] [DecidableLT P]

omit [LE P] [DecidableLE P] hv in
theorem isBelow_eq {i j : Nat} (hi : i < h.numKeys) (hj : j < h.numKeys) :
    isBelow h i j = .ok (h.isBelow i j) := by
  have hp : h.priorities[i]? = some h.priorities[i] := Array.getElem?_eq_getElem hi
  have hq : h.priorities[j]? = some h.priorities[j] := Array.getElem?_eq_getElem hj
  simp only [isBelow, PriorityHeap.isBelow, read_eq hp, read_eq hq, hp, hq, bind, Except.bind,
    pure, Except.pure]

omit [LE P] [DecidableLE P] in
theorem largerChild_eq (i : Nat) :
    largerChild h i = .ok (h.largerChild i) := by
  have hle := hv.size_le
  unfold largerChild PriorityHeap.largerChild
  split
  · rename_i hright
    rw [isBelow_eq (by omega) (by omega)]
    simp only [hright, true_and]
    rfl
  · rename_i hright
    simp only [hright, false_and, if_false]
    rfl

theorem siftDown_eq (i : Nat) : siftDown i h = .ok (h.siftDown i) := by
  have hle := hv.size_le
  fun_induction PriorityHeap.siftDown i h with
  | case1 i h hpos child hdom =>
    have hchild : child < h.size := largerChild_lt hpos
    rw [siftDown_of_lt hpos, largerChild_eq hv]
    show dominates h i child >>= _ = _
    rw [dominates_eq (by omega) (by omega), hdom]
    rfl
  | case2 i h hpos child hdom ih =>
    have hchild : child < h.size := largerChild_lt hpos
    have hswap := hv.rearranges_swap (i := i) (by omega) hchild
    rw [siftDown_of_lt hpos, largerChild_eq hv]
    show dominates h i child >>= _ = _
    rw [dominates_eq (by omega) (by omega), Bool.eq_false_iff.mpr hdom]
    show swap i child h >>= _ = _
    rw [swap_eq hv (by omega) (by omega)]
    exact ih hswap.valid hswap.valid.size_le
  | case3 i h hpos =>
    unfold siftDown
    rw [dif_neg hpos]

theorem delete_eq (key : Nat) : delete key h = .ok (h.delete key) := by
  have hle := hv.size_le
  unfold delete
  rw [contains_eq]
  by_cases hin : h.contains key = true
  · obtain ⟨i, hpos, hi⟩ := (contains_iff h key).mp hin
    have hcut := (hv.cut ((hv.inverse i key).mpr hpos) hi).1
    rw [hin, PriorityHeap.delete_eq hpos hi]
    show read h.positions key >>= _ = _
    rw [read_eq hpos]
    show swap i (h.size - 1) h >>= _ = _
    rw [swap_eq hv (by omega) (by omega)]
    show (if i < h.size - 1 then siftDown i (h.cut i) else .ok (h.cut i)) = _
    split
    · exact siftDown_eq hcut i
    · rename_i hlast
      rw [siftDown_of_le (Nat.le_of_not_lt hlast)]
  · have hout : ∀ i : Nat, h.positions[key]? = some i → h.size ≤ i := fun i hpos =>
      Nat.le_of_not_lt fun hi => hin ((contains_iff h key).mpr ⟨i, hpos, hi⟩)
    rw [Bool.eq_false_iff.mpr hin, delete_of_le hout]
    rfl

theorem pop_eq : pop h = .ok h.pop := by
  unfold pop PriorityHeap.pop
  rw [peek?_eq hv]
  cases h.peek? with
  | none => rfl
  | some key =>
    show delete key h >>= _ = _
    rw [delete_eq hv]
    rfl

theorem call_eq [Add P] [Div P] {c : Call P} (hc : ∀ key, c.key? = some key → key < h.numKeys) :
    call c h = .ok (c.run h) := by
  cases c with
  | push p => simp only [call, push_eq hv, bind, Except.bind, pure, Except.pure, Call.run]
  | increase key amount =>
    simp only [call, increase_eq hv (hc key rfl), bind, Except.bind, pure, Except.pure, Call.run]
  | delete key => simp only [call, delete_eq hv, bind, Except.bind, pure, Except.pure, Call.run]
  | restore key =>
    simp only [call, restore_eq hv (hc key rfl), bind, Except.bind, pure, Except.pure, Call.run]
  | divideAll divisor => rfl
  | pop => exact pop_eq hv

end

end Checked

/-! ## Any calls -/

/-- Of two tables that are inverse to each other, the first one has every number once. -/
theorem perm_range_of_inverse {xs ys : Array Nat} (hsize : xs.size = ys.size)
    (hinverse : ∀ i k : Nat, xs[i]? = some k ↔ ys[k]? = some i) :
    xs.toList.Perm (List.range xs.size) := by
  refine (List.perm_ext_iff_of_nodup ?_ List.nodup_range).mpr fun k => ?_
  · refine List.nodup_iff_getElem?_ne_getElem?.mpr fun i j hij hj heq => ?_
    rw [Array.getElem?_toList, Array.getElem?_toList] at heq
    obtain ⟨k, hk⟩ : ∃ k, xs[j]? = some k := ⟨_, Array.getElem?_eq_getElem hj⟩
    have hi := (hinverse i k).mp (heq.trans hk)
    rw [(hinverse j k).mp hk, Option.some_inj] at hi
    exact Nat.ne_of_gt hij hi
  · rw [List.mem_range, hsize, List.mem_iff_getElem?]
    constructor
    · rintro ⟨i, hi⟩
      rw [Array.getElem?_toList] at hi
      exact (Array.getElem?_eq_some_iff.mp ((hinverse i k).mp hi)).1
    · intro hk
      refine ⟨ys[k], ?_⟩
      rw [Array.getElem?_toList]
      exact (hinverse _ _).mpr (Array.getElem?_eq_getElem hk)

variable [LE P] [LT P] [DecidableLE P] [DecidableLT P]

/-- Every key that a call names was added before, where the first `n` keys are there already. -/
def Named : Nat → List (Call P) → Prop
  | _, [] => True
  | n, c :: cs =>
    (∀ key, c.key? = some key → key < n) ∧ Named (if c.adds then n + 1 else n) cs

theorem Checked.run_eq [Add P] [Div P] {h : PriorityHeap P} {t : Table P} {cs : List (Call P)}
    (hr : h.Represents t) (hcs : Named t.length cs) :
    Checked.run cs h = .ok (PriorityHeap.run cs h) := by
  induction cs generalizing h t with
  | nil => rfl
  | cons c cs ih =>
    obtain ⟨hc, hcs⟩ := hcs
    rw [← hr.numKeys] at hc
    have hrest := ih (hr.call c) (by rwa [Table.length_call])
    simp only [Checked.run, Checked.call_eq hr.valid hc, hrest, bind, Except.bind, pure,
      Except.pure, PriorityHeap.run]

namespace Represents

variable [Add P] [Div P] {h : PriorityHeap P} {t : Table P} (hr : h.Represents t)

theorem map_fst_run (cs : List (Call P)) (h : PriorityHeap P) :
    (PriorityHeap.run cs h).1.map Prod.fst = cs := by
  induction cs generalizing h with
  | nil => rfl
  | cons c cs ih => exact congrArg (c :: ·) (ih _)

include hr in
/-- What a pop answers is a key that is in, or that none is in. -/
theorem offers {cs : List (Call P)} {before after : List (Call P × Option Nat)}
    {answer : Option Nat} (hrun : (PriorityHeap.run cs h).1 = before ++ (.pop, answer) :: after) :
    (before.foldl Table.call t).Offers answer := by
  induction before generalizing cs h t with
  | nil =>
    cases cs with
    | nil => cases hrun
    | cons c cs =>
      injection hrun with hhead _
      injection hhead with hc hanswer
      subst hc hanswer
      rw [Call.run, pop_fst]
      exact hr.peek?
  | cons e before ih =>
    cases cs with
    | nil => cases hrun
    | cons c cs =>
      injection hrun with hhead htail
      subst hhead
      exact ih (hr.call c) htail

end Represents

/-- A heap after any calls, whatever the priorities are: no access was out of bounds, keys and
positions are two permutations that are inverse to each other, every key has the priority that the
table has for it, and the keys that are in are those of the table. A pop took a key that was in, if
there was one. -/
theorem run_is_table [Add P] [Div P] {calls : List (Call P)} (hcalls : Named 0 calls)
    {log : List (Call P × Option Nat)} {h : PriorityHeap P} (hrun : run calls empty = (log, h)) :
    Checked.run calls empty = .ok (log, h) ∧ log.map Prod.fst = calls ∧
      (∀ i key : Nat, h.keys[i]? = some key ↔ h.positions[key]? = some i) ∧
      h.keys.toList.Perm (List.range (calls.countP Call.adds)) ∧
      h.positions.toList.Perm (List.range (calls.countP Call.adds)) ∧
      h.numKeys = calls.countP Call.adds ∧
      (∀ key < calls.countP Call.adds, ∃ p, Checked.value h key = .ok p ∧
        (Table.after log).priority? key = some p) ∧
      (∀ key, h.contains key = (Table.after log).contains key) ∧
      ∀ before after answer, log = before ++ (.pop, answer) :: after →
        (Table.after before).Offers answer := by
  have hfst : log.map Prod.fst = calls := by
    have hmap := Represents.map_fst_run calls (empty : PriorityHeap P)
    rwa [hrun] at hmap
  have hr : h.Represents (Table.after log) := by
    have hr := (Represents.nil : (empty : PriorityHeap P).Represents []).run calls
    rwa [hrun] at hr
  have hnum : h.numKeys = calls.countP Call.adds := by
    rw [hr.numKeys, Table.after, Table.length_foldl_call, hfst]
    exact Nat.zero_add _
  have hv := hr.valid
  refine ⟨hrun ▸ Checked.run_eq .nil hcalls, hfst, hv.inverse, ?_, ?_, hnum, fun key hkey => ?_,
    hr.contains, fun before after answer hlog => ?_⟩
  · rw [← hnum, ← hv.size_keys]
    exact perm_range_of_inverse (hv.size_keys.trans hv.size_positions.symm) hv.inverse
  · rw [← hnum, ← hv.size_positions]
    exact perm_range_of_inverse (hv.size_positions.trans hv.size_keys.symm)
      fun i k => (hv.inverse k i).symm
  · rw [← hnum, hr.numKeys] at hkey
    have hp : (Table.after log).priority? key = some (Table.after log)[key].priority := by
      rw [Table.priority?, List.getElem?_eq_getElem hkey, Option.map_some]
    exact ⟨_, Checked.value_eq ((hr.value? key).trans hp), hp⟩
  · have hlog' : (run calls empty).1 = before ++ (.pop, answer) :: after := by rw [hrun, hlog]
    exact Represents.offers .nil hlog'

/-- A key that is out gets more priority, comes back with it, and is divided like all others, while
another key was popped. -/
theorem run_is_table_of_increase_outside :
    ∃ h : PriorityHeap Nat,
      Named 0 [.push 1, .push 2, .push 3, .delete 0, .increase 0 10, .pop, .restore 0,
        (.divideAll 2 : Call Nat)] ∧
      run [.push 1, .push 2, .push 3, .delete 0, .increase 0 10, .pop, .restore 0,
      .divideAll 2] empty =
        ([(.push 1, none), (.push 2, none), (.push 3, none), (.delete 0, none),
        (.increase 0 10, none),
          (.pop, some 2), (.restore 0, none), (.divideAll 2, none)], h) ∧
      Checked.value h 0 = .ok 5 ∧ h.contains 0 = true ∧ h.contains 2 = false ∧
      h.keys.toList.Perm [0, 1, 2] := by
  have hcalls : Named 0 [.push 1, .push 2, .push 3, .delete 0, .increase 0 10, .pop, .restore 0,
      (.divideAll 2 : Call Nat)] := by
    simp [Named, Call.key?, Call.adds]
  obtain ⟨h, hrun⟩ : ∃ h : PriorityHeap Nat, run [.push 1, .push 2, .push 3, .delete 0,
      .increase 0 10, .pop, .restore 0, .divideAll 2] empty =
        ([(.push 1, none), (.push 2, none), (.push 3, none), (.delete 0, none),
          (.increase 0 10, none), (.pop, some 2), (.restore 0, none), (.divideAll 2, none)], h) :=
    ⟨_, Prod.ext (by decide +kernel) rfl⟩
  obtain ⟨-, -, -, hkeys, -, -, hvalue, hcontains, -⟩ := run_is_table hcalls hrun
  obtain ⟨p, hp, htable⟩ := hvalue 0 (by decide)
  have hfive : 5 = p := Option.some.inj htable
  exact ⟨h, hcalls, hrun, hfive ▸ hp, hcontains 0, hcontains 2, hkeys⟩

end ClauseLearning.PriorityHeap
