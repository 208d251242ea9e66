import ClauseLearning.Proofs.Heap

/-!
# The heap as a table

A heap is a table that has for each key its priority and whether the key is in, whatever the
priorities are and however they compare. Only which key a pop takes depends on where the keys are,
so the table is told about it.

* `Valid.value?_delete`, `Valid.value?_restore`: a key keeps its priority when it leaves or joins.
* `Valid.value?_increase`, `value?_divideAll`: the priorities of keys that are out change as well.
* `Call`, `Call.run`, `run`: calls on a heap with their answers.
* `Represents.run`: what a heap is after some calls is what a table is after them.
-/

namespace ClauseLearning.PriorityHeap

variable {P : Type}

/-! ## Calls -/

/-- A call that changes a heap. -/
inductive Call (P : Type)
  | push (priority : P)
  | increase (key : Nat) (amount : P)
  | delete (key : Nat)
  | restore (key : Nat)
  | divideAll (divisor : P)
  | pop
  deriving DecidableEq, Repr

namespace Call

/-- The call adds a key. -/
def adds : Call P → Bool
  | .push _ => true
  | _ => false

/-- The key that has to be there for a call. -/
def key? : Call P → Option Nat
  | .increase key _ | .delete key | .restore key => some key
  | _ => none

end Call

/-! ## Tables -/

/-- What a table has for a key. -/
structure Entry (P : Type) where
  priority : P
  isIn : Bool
  deriving DecidableEq, Repr

/-- The entries of the keys `0, 1, …`. -/
abbrev Table (P : Type) := List (Entry P)

namespace Table

def put (isIn : Bool) (key : Nat) (t : Table P) : Table P :=
  t.modify key fun e => { e with isIn := isIn }

/-- A call on a table, of which the answer is known. -/
def call [Add P] [Div P] (t : Table P) : Call P × Option Nat → Table P
  | (.push p, _) => t ++ [⟨p, true⟩]
  | (.increase key amount, _) => t.modify key fun e => { e with priority := e.priority + amount }
  | (.delete key, _) => t.put false key
  | (.restore key, _) => t.put true key
  | (.divideAll divisor, _) => t.map fun e => { e with priority := e.priority / divisor }
  | (.pop, none) => t
  | (.pop, some key) => t.put false key

/-- The table after calls with their answers. -/
def after [Add P] [Div P] (log : List (Call P × Option Nat)) : Table P := log.foldl call []

def priority? (t : Table P) (key : Nat) : Option P := t[key]?.map Entry.priority

def contains (t : Table P) (key : Nat) : Bool := (t[key]?.map Entry.isIn).getD false

/-- A pop of the table can answer so: with a key that is in, or with none if there is no such
key. -/
def Offers (t : Table P) : Option Nat → Prop
  | some key => t.contains key = true
  | none => ∀ key, t.contains key = false

theorem priority?_put (isIn : Bool) (key k : Nat) (t : Table P) :
    (t.put isIn key).priority? k = t.priority? k := by
  simp only [priority?, put, List.getElem?_modify]
  split
  · cases t[k]? <;> rfl
  · cases t[k]? <;> rfl

theorem contains_put (isIn : Bool) (key k : Nat) (t : Table P) :
    (t.put isIn key).contains k =
      if k = key then isIn && decide (k < t.length) else t.contains k := by
  simp only [contains, put, List.getElem?_modify]
  by_cases hk : k = key
  · subst hk
    cases ht : t[k]? with
    | none => simp [Nat.not_lt.mpr (List.getElem?_eq_none_iff.mp ht)]
    | some e => simp [(List.getElem?_eq_some_iff.mp ht).1]
  · simp [hk, Ne.symm hk]

theorem lt_of_contains {t : Table P} {k : Nat} (h : t.contains k = true) : k < t.length := by
  by_contra hge
  rw [contains, List.getElem?_eq_none (Nat.le_of_not_lt hge)] at h
  cases h

theorem length_call [Add P] [Div P] (t : Table P) (e : Call P × Option Nat) :
    (t.call e).length = if e.1.adds then t.length + 1 else t.length := by
  obtain ⟨c, answer⟩ := e
  cases c with
  | push p => simp [call, Call.adds]
  | increase key amount => simp [call, Call.adds]
  | delete key => simp [call, put, Call.adds]
  | restore key => simp [call, put, Call.adds]
  | divideAll divisor => simp [call, Call.adds]
  | pop => cases answer <;> simp [call, put, Call.adds]

theorem length_foldl_call [Add P] [Div P] (log : List (Call P × Option Nat)) (t : Table P) :
    (log.foldl call t).length = t.length + (log.map Prod.fst).countP Call.adds := by
  induction log generalizing t with
  | nil => rfl
  | cons e log ih =>
    rw [List.foldl_cons, ih, length_call, List.map_cons, List.countP_cons]
    split <;> omega

end Table

/-! ## Heaps as tables -/

/-- The heap has the keys of the table, with their priorities, and the same keys are in. -/
structure Represents (h : PriorityHeap P) (t : Table P) : Prop where
  valid : h.Valid
  numKeys : h.numKeys = t.length
  value? : ∀ k, h.value? k = t.priority? k
  contains : ∀ k, h.contains k = t.contains k

theorem Represents.nil : (empty : PriorityHeap P).Represents [] :=
  ⟨valid_empty, rfl, fun _ => rfl, fun _ => rfl⟩

theorem Valid.value?_append {h : PriorityHeap P} (hv : h.Valid) (p : P) (k : Nat) :
    (h.append p).value? k = if k = h.numKeys then some p else h.value? k := by
  have hpriorities : ∀ x, (h.append p).priorities[x]? =
      if x = h.numKeys then some p else h.priorities[x]? := fun x => Array.getElem?_push
  simp only [value?, position?, hv.positions_append]
  split
  · rw [Option.bind_some, hpriorities, if_pos rfl]
  · cases hk : h.positions[k]? with
    | none => rfl
    | some x =>
      have hx := hv.lt_of_key ((hv.inverse x k).mpr hk)
      rw [Option.bind_some, Option.bind_some, hpriorities, if_neg (Nat.ne_of_lt hx)]

theorem Valid.value?_raise [Add P] {h : PriorityHeap P} (hv : h.Valid) {key i : Nat} (amount : P)
    (hpos : h.positions[key]? = some i) (k : Nat) :
    (h.raise i amount).value? k =
      if k = key then (h.value? k).map (· + amount) else h.value? k := by
  show (h.positions[k]?).bind (fun x => (h.priorities.modify i (· + amount))[x]?) = _
  simp only [value?, position?]
  cases hk : h.positions[k]? with
  | none => simp
  | some x =>
    have hxi := hv.position_eq_iff ((hv.inverse i key).mpr hpos) hk
    simp only [Option.bind_some, Array.getElem?_modify, eq_comm (a := i), hxi]

theorem value?_divideAll [Div P] (h : PriorityHeap P) (divisor : P) (k : Nat) :
    (h.divideAll divisor).value? k = (h.value? k).map (· / divisor) := by
  show (h.positions[k]?).bind (fun x => (h.priorities.map (· / divisor))[x]?) = _
  simp only [value?, position?, Array.getElem?_map, Option.map_bind]
  rfl

namespace Represents

variable {h : PriorityHeap P} {t : Table P} (hr : h.Represents t)
include hr

theorem divideAll [Div P] (divisor : P) : (h.divideAll divisor).Represents
    (t.map fun e => { e with priority := e.priority / divisor }) := by
  obtain ⟨hval, hnum, hcon⟩ := hr.valid.divideAll divisor
  refine ⟨hval, ?_, fun k => ?_, fun k => ?_⟩
  · rw [hnum, hr.numKeys, List.length_map]
  · rw [value?_divideAll, hr.value?]
    simp only [Table.priority?, List.getElem?_map, Option.map_map, Function.comp_def]
  · rw [hcon, hr.contains]
    simp only [Table.contains, List.getElem?_map, Option.map_map, Function.comp_def]

theorem peek? : t.Offers h.peek? := by
  cases hpeek : h.peek? with
  | some key =>
    show t.contains key = true
    rw [← hr.contains]
    exact hr.valid.contains_of_peek? hpeek
  | none =>
    intro key
    rw [← hr.contains]
    exact contains_of_size_eq_zero (hr.valid.size_of_peek? hpeek) key

end Represents

/-! ## Keys that join -/

variable [LE P] [DecidableLE P]

theorem Valid.value?_restore {h : PriorityHeap P} (hv : h.Valid) (key k : Nat) :
    (h.restore key).value? k = h.value? k := by
  by_cases hout : ∃ i : Nat, h.positions[key]? = some i ∧ h.size ≤ i
  · obtain ⟨i, hpos, hi⟩ := hout
    have hkey := (hv.inverse i key).mpr hpos
    have hlt := hv.lt_of_key hkey
    have hsift := (hv.join hkey hi).1.siftUp (i := h.size) (Nat.lt_succ_self h.size)
    rw [restore_eq hpos hi, hsift.value?]
    exact hv.value?_swap hlt (by omega) k
  · rw [restore_of_lt fun i hpos => Nat.lt_of_not_le fun hi => hout ⟨i, hpos, hi⟩]

theorem Valid.value?_push {h : PriorityHeap P} (hv : h.Valid) (p : P) (k : Nat) :
    (h.push p).value? k = if k = h.numKeys then some p else h.value? k := by
  have hkey : (h.append p).keys[h.numKeys]? = some h.numKeys := by rw [hv.keys_append, if_pos rfl]
  have hjoin := ((hv.append p).join hkey hv.size_le).1
  have hsift := hjoin.siftUp (i := h.size) (Nat.lt_succ_self h.size)
  have hle := hv.size_le
  have hnum := numKeys_append h p
  have hswap := (hv.append p).value?_swap (i := h.numKeys) (j := h.size) (by omega) (by omega) k
  rw [hv.push_eq, hsift.value?, ← hv.value?_append p k]
  exact hswap

theorem Valid.value?_increase [Add P] {h : PriorityHeap P} (hv : h.Valid) (key : Nat) (amount : P)
    (k : Nat) : (h.increase key amount).value? k =
      if k = key then (h.value? k).map (· + amount) else h.value? k := by
  cases hpos : h.positions[key]? with
  | none =>
    rw [increase_of_none amount hpos]
    split
    · rename_i hk
      simp [hk, value?, position?, hpos]
    · rfl
  | some i => rw [(hv.increase_spec amount hpos).value?, hv.value?_raise amount hpos]

namespace Represents

variable {h : PriorityHeap P} {t : Table P} (hr : h.Represents t)
include hr

theorem push (p : P) : (h.push p).Represents (t ++ [⟨p, true⟩]) := by
  obtain ⟨hval, hnum, hcon⟩ := hr.valid.push p
  refine ⟨hval, ?_, fun k => ?_, fun k => ?_⟩
  · rw [hnum, hr.numKeys, List.length_append, List.length_singleton]
  · rw [hr.valid.value?_push, hr.value?, hr.numKeys]
    simp only [Table.priority?, List.getElem?_append]
    grind
  · rw [hcon, hr.contains, hr.numKeys]
    simp only [Table.contains, List.getElem?_append]
    grind

theorem restore (key : Nat) : (h.restore key).Represents (t.put true key) := by
  obtain ⟨hval, hnum, hcon⟩ := hr.valid.restore key
  refine ⟨hval, ?_, fun k => ?_, fun k => ?_⟩
  · rw [hnum, hr.numKeys, Table.put, List.length_modify]
  · rw [hr.valid.value?_restore, hr.value?, Table.priority?_put]
  · rw [hcon, hr.contains, hr.numKeys, Table.contains_put]
    by_cases hk : k = key
    · cases hin : t.contains k with
      | true => simp [hk, hk ▸ Table.lt_of_contains hin]
      | false => simp [hk]
    · simp [hk]

theorem increase [Add P] (key : Nat) (amount : P) : (h.increase key amount).Represents
    (t.modify key fun e => { e with priority := e.priority + amount }) := by
  obtain ⟨hval, hnum, hcon⟩ := hr.valid.increase key amount
  refine ⟨hval, ?_, fun k => ?_, fun k => ?_⟩
  · rw [hnum, hr.numKeys, List.length_modify]
  · rw [hr.valid.value?_increase, hr.value?]
    simp only [Table.priority?, List.getElem?_modify, eq_comm (a := key)]
    split
    · cases t[k]? <;> rfl
    · cases t[k]? <;> rfl
  · rw [hcon, hr.contains]
    simp only [Table.contains, List.getElem?_modify]
    split
    · cases t[k]? <;> rfl
    · cases t[k]? <;> rfl

end Represents

/-! ## Keys that leave -/

variable [LT P] [DecidableLT P]

theorem Valid.value?_delete {h : PriorityHeap P} (hv : h.Valid) (key k : Nat) :
    (h.delete key).value? k = h.value? k := by
  by_cases hin : ∃ i : Nat, h.positions[key]? = some i ∧ i < h.size
  · obtain ⟨i, hpos, hi⟩ := hin
    have hle := hv.size_le
    have hcut := (hv.cut ((hv.inverse i key).mpr hpos) hi).1
    rw [delete_eq hpos hi, (hcut.siftDown i).value?]
    exact hv.value?_swap (by omega) (by omega) k
  · rw [delete_of_le fun i hpos => Nat.le_of_not_lt fun hi => hin ⟨i, hpos, hi⟩]

namespace Represents

variable {h : PriorityHeap P} {t : Table P} (hr : h.Represents t)
include hr

theorem delete (key : Nat) : (h.delete key).Represents (t.put false key) := by
  obtain ⟨hval, hnum, hcon⟩ := hr.valid.delete key
  refine ⟨hval, ?_, fun k => ?_, fun k => ?_⟩
  · rw [hnum, hr.numKeys, Table.put, List.length_modify]
  · rw [hr.valid.value?_delete, hr.value?, Table.priority?_put]
  · rw [hcon, hr.contains, Table.contains_put]
    by_cases hk : k = key
    · simp [hk]
    · simp [hk]

end Represents

/-! ## Runs -/

/-- Takes the first key out and answers with it. -/
def pop (h : PriorityHeap P) : Option Nat × PriorityHeap P :=
  match h.peek? with
  | none => (none, h)
  | some key => (some key, h.delete key)

theorem pop_fst (h : PriorityHeap P) : h.pop.1 = h.peek? := by
  unfold pop
  split
  · rename_i hpeek
    exact hpeek.symm
  · rename_i hpeek
    exact hpeek.symm

/-- What a call answers and the heap that it leaves. -/
def Call.run [Add P] [Div P] : Call P → PriorityHeap P → Option Nat × PriorityHeap P
  | .push p, h => (none, h.push p)
  | .increase key amount, h => (none, h.increase key amount)
  | .delete key, h => (none, h.delete key)
  | .restore key, h => (none, h.restore key)
  | .divideAll divisor, h => (none, h.divideAll divisor)
  | .pop, h => h.pop

/-- Calls with their answers, and the heap that they leave. -/
def run [Add P] [Div P] : List (Call P) → PriorityHeap P →
    List (Call P × Option Nat) × PriorityHeap P
  | [], h => ([], h)
  | c :: cs, h => ((c, (c.run h).1) :: (run cs (c.run h).2).1, (run cs (c.run h).2).2)

namespace Represents

variable {h : PriorityHeap P} {t : Table P} (hr : h.Represents t)
include hr

/-- A call on the heap is the call with this answer on the table. -/
theorem call [Add P] [Div P] (c : Call P) :
    (c.run h).2.Represents (t.call (c, (c.run h).1)) := by
  cases c with
  | push p => exact hr.push p
  | increase key amount => exact hr.increase key amount
  | delete key => exact hr.delete key
  | restore key => exact hr.restore key
  | divideAll divisor => exact hr.divideAll divisor
  | pop =>
    simp only [Call.run, pop]
    split
    · exact hr
    · exact hr.delete _

theorem run [Add P] [Div P] (cs : List (Call P)) :
    (run cs h).2.Represents ((PriorityHeap.run cs h).1.foldl Table.call t) := by
  induction cs generalizing h t with
  | nil => exact hr
  | cons c cs ih => exact ih (hr.call c)

end Represents

end ClauseLearning.PriorityHeap
