import ClauseLearning.Proofs.Greedy
import ClauseLearning.Proofs.HeapBounds

/-!
# Counters within bounds

The strategies work on tables that are as long as the model asks for, whatever the requirements
name. To say that they stay within them, each one is written a second time: every access is checked,
and so is every count that is lowered. With counters the checks make no difference, also for a model
that does not meet the requirements or does not know all variables that they name. Repeated checks
look literals up unseen; that they may be missing is a part of `Quadratic.implicant` already, and
the other checks make no difference there either.

* `Quadratic.Checked`, `CounterBased.Checked`: the strategies with checks.
* `Quadratic.Checked.implicant_eq`, `CounterBased.Checked.implicant_eq`: what they compute.
-/

namespace ClauseLearning

open Requirement
open PriorityHeap.Checked (read write read_eq write_eq setIfInBounds_eq_modify)

/-! ## Checked accesses -/

namespace Checked

def update {α : Type} (xs : Array α) (i : Nat) (f : α → α) : Except Fault (Array α) := do
  write xs i (f (← read xs i))

theorem update_eq {α : Type} {xs : Array α} {i : Nat} (h : i < xs.size) (f : α → α) :
    update xs i f = .ok (xs.modify i f) := by
  have hget := Array.getElem?_eq_getElem h
  rw [update, read_eq hget, ok_bind, write_eq h, setIfInBounds_eq_modify hget]

end Checked

open Checked (update update_eq)

namespace LiteralTable

variable {α : Type} {t : LiteralTable α} {l : Literal}

def checkedGet (t : LiteralTable α) (l : Literal) : Except Fault α := read t.entries l.code

def checkedSet (t : LiteralTable α) (l : Literal) (a : α) : Except Fault (LiteralTable α) := do
  return ⟨← write t.entries l.code a⟩

def checkedModify (t : LiteralTable α) (l : Literal) (f : α → α) :
    Except Fault (LiteralTable α) := do
  return ⟨← update t.entries l.code f⟩

theorem checkedGet_eq (h : l.code < t.size) (d : α) : t.checkedGet l = .ok (t.getD l d) := by
  have hget : t.entries[l.code]? = some t.entries[l.code] := Array.getElem?_eq_getElem h
  rw [checkedGet, read_eq hget, getD, get?, hget, Option.getD_some]

theorem checkedSet_eq (h : l.code < t.size) (a : α) : t.checkedSet l a = .ok (t.set l a) := by
  rw [checkedSet, write_eq h]
  rfl

theorem checkedModify_eq (h : l.code < t.size) (f : α → α) :
    t.checkedModify l f = .ok (t.modify l f) := by
  rw [checkedModify, update_eq h]
  rfl

end LiteralTable

namespace Checked

/-- The marks of the mandatory variables, with room for the variables of the model. -/
def marks (model : List Literal) (rs : List Requirement) : Array Bool :=
  let table := mandatoryTable rs
  table ++ Array.replicate ((model.map fun l => l.var + 1).max?.getD 1 - table.size) false

theorem read_marks {model : List Literal} (rs : List Requirement) {l : Literal} (h : l ∈ model) :
    read (marks model rs) l.var = .ok (isMandatory (mandatoryTable rs) l.var) := by
  have hroom : l.var < (model.map fun l => l.var + 1).max?.getD 1 := by
    have hmem : l.var + 1 ∈ model.map fun l => l.var + 1 := List.mem_map.mpr ⟨l, h, rfl⟩
    cases hmax : (model.map fun l => l.var + 1).max? with
    | none =>
      rw [List.max?_eq_none_iff.mp hmax] at hmem
      cases hmem
    | some n => exact (List.max?_eq_some_iff.mp hmax).2 _ hmem
  have hlt : l.var < (marks model rs).size := by
    rw [marks, Array.size_append, Array.size_replicate]
    omega
  have hget := Array.getElem?_eq_getElem hlt
  have hsame : (marks model rs)[l.var]?.getD false = isMandatory (mandatoryTable rs) l.var :=
    getD_append_replicate ..
  rw [read_eq hget, ← hsame, hget, Option.getD_some]

end Checked

/-! ## Monadic functions on lists -/

section

variable {α : Type} {f : α → Except Fault Bool} {p : α → Bool} {xs : List α}

theorem filterM_eq (h : ∀ x ∈ xs, f x = .ok (p x)) : xs.filterM f = .ok (xs.filter p) := by
  have hall : ∀ kept, xs.filterAuxM f kept = .ok ((xs.filter p).reverse ++ kept) := by
    induction xs with
    | nil => exact fun kept => rfl
    | cons x xs ih =>
      intro kept
      obtain ⟨hx, hxs⟩ := List.forall_mem_cons.mp h
      rw [List.filterAuxM, hx, List.filter_cons]
      refine (ih hxs _).trans ?_
      cases p x <;> simp
  rw [List.filterM, hall]
  show Except.ok _ = _
  rw [List.append_nil, List.reverse_reverse]

theorem anyM_eq (h : ∀ x ∈ xs, f x = .ok (p x)) : xs.anyM f = .ok (xs.any p) := by
  induction xs with
  | nil => rfl
  | cons x xs ih =>
    obtain ⟨hx, hxs⟩ := List.forall_mem_cons.mp h
    rw [List.anyM, hx, List.any_cons]
    cases hp : p x with
    | true => rfl
    | false => exact ih hxs

theorem findM?_eq (h : ∀ x ∈ xs, f x = .ok (p x)) : xs.findM? f = .ok (xs.find? p) := by
  induction xs with
  | nil => rfl
  | cons x xs ih =>
    obtain ⟨hx, hxs⟩ := List.forall_mem_cons.mp h
    rw [List.findM?, hx, List.find?_cons]
    cases hp : p x with
    | true => rfl
    | false => exact ih hxs

end

/-! ## Repeated checks -/

namespace Quadratic

namespace Checked

def dropEach (mandatory : Array Bool) (rs : List Requirement) :
    List Literal → LiteralTable Bool → Except Fault (LiteralTable Bool)
  | [], table => .ok table
  | l :: ls, table => do
    if ← read mandatory l.var then dropEach mandatory rs ls table
    else
      let table ← table.checkedSet l false
      if ← meetsAll table rs then dropEach mandatory rs ls table
      else dropEach mandatory rs ls (← table.checkedSet l true)

def implicant (model : List Literal) (rs : List Requirement) : Except Fault (List Literal) := do
  let table ← dropEach (ClauseLearning.Checked.marks model rs) rs model (truthTable model)
  model.filterM table.checkedGet

end Checked

theorem size_dropEach {mandatory : Array Bool} {rs : List Requirement} {ls : List Literal}
    {table table' : LiteralTable Bool} (h : dropEach mandatory rs ls table = .ok table') :
    table'.size = table.size := by
  induction ls generalizing table with
  | nil =>
    cases h
    rfl
  | cons l ls ih =>
    unfold dropEach at h
    split at h
    · exact ih h
    · obtain ⟨met, -, h⟩ := ok_of_bind h
      split at h
      · rw [ih h, LiteralTable.size_set]
      · rw [ih h, LiteralTable.size_set, LiteralTable.size_set]

theorem Checked.dropEach_eq {model : List Literal} {rs : List Requirement} {ls : List Literal}
    {table : LiteralTable Bool} (hsub : ls ⊆ model) (hsize : table.size = (truthTable model).size) :
    Checked.dropEach (ClauseLearning.Checked.marks model rs) rs ls table =
      Quadratic.dropEach (mandatoryTable rs) rs ls table := by
  induction ls generalizing table with
  | nil => rfl
  | cons l ls ih =>
    obtain ⟨hl, hls⟩ := List.cons_subset.mp hsub
    have hlt : l.code < table.size := hsize ▸ size_truthTable hl
    have hlt' : l.code < (table.set l false).size := by rwa [LiteralTable.size_set]
    unfold Checked.dropEach Quadratic.dropEach
    rw [ClauseLearning.Checked.read_marks rs hl, ok_bind, LiteralTable.checkedSet_eq hlt, ok_bind]
    cases isMandatory (mandatoryTable rs) l.var with
    | true => exact ih hls hsize
    | false =>
      refine bind_congr fun met => ?_
      cases met with
      | true => exact ih hls ((LiteralTable.size_set _ _ _).trans hsize)
      | false =>
        rw [LiteralTable.checkedSet_eq hlt', ok_bind]
        exact ih hls (by rw [LiteralTable.size_set, LiteralTable.size_set, hsize])

theorem Checked.implicant_eq (model : List Literal) (rs : List Requirement) :
    Checked.implicant model rs = Quadratic.implicant model rs := by
  unfold Checked.implicant Quadratic.implicant
  rw [Checked.dropEach_eq (List.Subset.refl model) rfl]
  cases hrun : Quadratic.dropEach (mandatoryTable rs) rs model (truthTable model) with
  | error fault => rfl
  | ok table =>
    refine filterM_eq fun l hl => LiteralTable.checkedGet_eq ?_ false
    rw [size_dropEach hrun]
    exact size_truthTable hl

end Quadratic

/-! ## Counting -/

namespace CounterBased

namespace Checked

/-- Notes an occurrence of a true literal in the requirement with number `i`. -/
def note (i : Nat) (l : Literal) (c : Counters) : Except Fault Counters := do
  let counts ← update c.counts i (· + 1)
  return ⟨counts, ← c.occurrences.checkedModify l (i :: ·)⟩

/-- A literal outside of the table is not true. -/
def enter (isTrue : LiteralTable Bool) (i : Nat) : List Literal → Counters → Except Fault Counters
  | [], c => .ok c
  | l :: ls, c => do
    if l.code < isTrue.size then
      if ← isTrue.checkedGet l then enter isTrue i ls (← note i l c) else enter isTrue i ls c
    else enter isTrue i ls c

def ofRequirements (isTrue : LiteralTable Bool) (rs : List Requirement) : Except Fault Counters :=
  rs.zipIdx.foldlM (fun c e => enter isTrue e.2 e.1.listed c)
    ⟨Array.replicate rs.length 0, LiteralTable.empty.grow isTrue.size []⟩

def lower : List Nat → Array Nat → Except Fault (Array Nat)
  | [], counts => .ok counts
  | i :: is, counts => do
    let n ← read counts i
    if n = 0 then .error .counterUnderflow else lower is (← update counts i (· - 1))

def raise : List Nat → Array Nat → Except Fault (Array Nat)
  | [], counts => .ok counts
  | i :: is, counts => do raise is (← update counts i (· + 1))

def lacks (degrees lowered : Array Nat) (occursIn : List Nat) : Except Fault Bool :=
  occursIn.anyM fun i => do return decide ((← read lowered i) < (← read degrees i))

def keep (mandatory : Array Bool) (degrees : Array Nat) (occurrences : LiteralTable (List Nat)) :
    List Literal → Array Nat → Except Fault (List Literal)
  | [], _ => .ok []
  | l :: ls, counts => do
    if ← read mandatory l.var then
      return l :: (← keep mandatory degrees occurrences ls counts)
    else
      let occursIn ← occurrences.checkedGet l
      let lowered ← lower occursIn counts
      if ← lacks degrees lowered occursIn then
        return l :: (← keep mandatory degrees occurrences ls (← raise occursIn lowered))
      else keep mandatory degrees occurrences ls lowered

def implicant (model : List Literal) (rs : List Requirement) : Except Fault (List Literal) := do
  let counters ← ofRequirements (truthTable model) rs
  keep (ClauseLearning.Checked.marks model rs) (rs.map degree).toArray counters.occurrences model
    counters.counts

theorem note_eq {i : Nat} {l : Literal} {c : Counters} (hi : i < c.counts.size)
    (hl : l.code < c.occurrences.size) :
    note i l c = .ok ⟨c.counts.modify i (· + 1), c.occurrences.modify l (i :: ·)⟩ := by
  rw [note, update_eq hi, LiteralTable.checkedModify_eq hl]
  rfl

theorem enter_eq {isTrue : LiteralTable Bool} {i : Nat} {ls : List Literal} {c : Counters}
    (hi : i < c.counts.size) (hsize : c.occurrences.size = isTrue.size) :
    enter isTrue i ls c = .ok ⟨c.counts.modify i (· + ls.countP fun l => isTrue.getD l false),
      (ls.filter fun l => isTrue.getD l false).foldl (fun table l => table.modify l (i :: ·))
        c.occurrences⟩ := by
  induction ls generalizing c with
  | nil =>
    refine congrArg Except.ok
      (congrArg (Counters.mk · c.occurrences) (Array.ext_getElem? fun j => ?_))
    rw [Array.getElem?_modify]
    split
    · cases c.counts[j]? <;> rfl
    · rfl
  | cons l ls ih =>
    unfold enter
    by_cases hl : l.code < isTrue.size
    · rw [if_pos hl, LiteralTable.checkedGet_eq hl false, ok_bind, List.countP_cons,
        List.filter_cons, note_eq hi (hsize.symm ▸ hl), ok_bind]
      cases isTrue.getD l false with
      | false => exact ih hi hsize
      | true =>
        refine (ih (by rwa [Array.size_modify])
          ((LiteralTable.size_modify ..).trans hsize)).trans ?_
        refine congrArg Except.ok (congrArg (Counters.mk · _) (Array.ext_getElem? fun j => ?_))
        simp only [Array.getElem?_modify, if_true]
        split
        · cases c.counts[j]? with
          | none => rfl
          | some n => exact congrArg some (Nat.succ_add_eq_add_succ n _)
        · rfl
    · rw [if_neg hl, List.countP_cons, List.filter_cons,
        LiteralTable.getD_of_size_le (Nat.le_of_not_lt hl)]
      exact ih hi hsize

/-- The next counter of those that are still 0. -/
theorem modify_zeros {counts : Array Nat} {n : Nat} (h : counts.size < n) (k : Nat) :
    (counts ++ Array.replicate (n - counts.size) 0).modify counts.size (· + k) =
      counts.push k ++ Array.replicate (n - (counts.size + 1)) 0 := by
  refine Array.ext_getElem? fun j => ?_
  simp only [Array.getElem?_modify, Array.getElem?_append, Array.getElem?_push,
    Array.getElem?_replicate, Array.size_push]
  grind

theorem ofRequirements_eq (isTrue : LiteralTable Bool) (rs : List Requirement) :
    ofRequirements isTrue rs = .ok (Counters.ofRequirements isTrue rs) := by
  have hall : ∀ (rs : List Requirement) (n : Nat), rs.length ≤ n →
      rs.zipIdx.foldlM (fun c e => enter isTrue e.2 e.1.listed c)
        (⟨Array.replicate n 0, LiteralTable.empty.grow isTrue.size []⟩ : Counters) =
      .ok ⟨(Counters.ofRequirements isTrue rs).counts ++ Array.replicate (n - rs.length) 0,
        (Counters.ofRequirements isTrue rs).occurrences⟩ := by
    intro rs
    induction rs using List.reverseRecOn with
    | nil =>
      intro n _
      exact congrArg Except.ok (congrArg (Counters.mk · _) (Array.empty_append ..).symm)
    | append_singleton rs r ih =>
      intro n hn
      rw [List.length_append, List.length_singleton] at hn
      obtain ⟨hcounts, hsize, -, -⟩ := CounterBased.ofRequirements_spec isTrue rs
      rw [List.zipIdx_append, List.foldlM_append, ih n (by omega), ofRequirements_concat,
        CounterBased.enter_eq, List.length_append, List.length_singleton]
      rw [ok_bind, List.zipIdx_singleton, List.foldlM_cons]
      have hroom : rs.length < ((Counters.ofRequirements isTrue rs).counts ++
          Array.replicate (n - rs.length) 0).size := by
        rw [Array.size_append, Array.size_replicate, hcounts]
        omega
      rw [Nat.zero_add, enter_eq (c := ⟨_, _⟩) hroom hsize, ok_bind]
      refine congrArg Except.ok (congrArg (Counters.mk · _) ?_)
      dsimp only
      rw [← hcounts]
      exact modify_zeros (by omega) _
  refine (hall rs rs.length (Nat.le_refl _)).trans ?_
  rw [Nat.sub_self]
  exact congrArg Except.ok (congrArg (Counters.mk · _) (Array.append_empty ..))

theorem lt_size_of_mem {is : List Nat} {counts : Array Nat}
    (h : ∀ i, is.count i ≤ counts[i]?.getD 0) : ∀ i ∈ is, i < counts.size := by
  intro i hi
  have hpos := Nat.lt_of_lt_of_le (List.count_pos_iff.mpr hi) (h i)
  by_contra hge
  rw [Array.getElem?_eq_none (Nat.le_of_not_lt hge)] at hpos
  exact Nat.lt_irrefl 0 hpos

theorem lower_eq {is : List Nat} {counts : Array Nat} (h : ∀ i, is.count i ≤ counts[i]?.getD 0) :
    lower is counts = .ok (CounterBased.lower is counts) := by
  induction is generalizing counts with
  | nil => rfl
  | cons i is ih =>
    have hlt := lt_size_of_mem h i List.mem_cons_self
    have hi := h i
    rw [List.count_cons_self] at hi
    have hget := Array.getElem?_eq_getElem hlt
    rw [hget, Option.getD_some] at hi
    unfold lower
    rw [read_eq hget, ok_bind, if_neg (by omega), update_eq hlt]
    refine ih fun j => ?_
    rw [Array.getElem?_modify]
    split
    · rename_i hij
      rw [← hij, hget]
      exact Nat.le_sub_of_add_le hi
    · exact Nat.le_trans List.count_le_count_cons (h j)

theorem raise_eq {is : List Nat} (counts : Array Nat) (h : ∀ i ∈ is, i < counts.size) :
    ∃ raised, raise is counts = .ok raised ∧ raised.size = counts.size ∧
      ∀ i, i < counts.size → raised[i]?.getD 0 = counts[i]?.getD 0 + is.count i := by
  induction is generalizing counts with
  | nil => exact ⟨counts, rfl, rfl, fun i _ => rfl⟩
  | cons i is ih =>
    obtain ⟨hi, his⟩ := List.forall_mem_cons.mp h
    have hsize : (counts.modify i (· + 1)).size = counts.size := Array.size_modify
    obtain ⟨raised, hrun, hraised, hcount⟩ := ih (counts.modify i (· + 1)) (by rwa [hsize])
    refine ⟨raised, ?_, hraised.trans hsize, fun j hj => ?_⟩
    · unfold raise
      rw [update_eq hi]
      exact hrun
    · rw [hcount j (hsize.symm ▸ hj), Array.getElem?_modify, Array.getElem?_eq_getElem hj,
        List.count_cons]
      by_cases hij : i = j
      · simp only [hij, if_true, Option.map_some, Option.getD_some, beq_self_eq_true]
        omega
      · simp only [hij, if_false, Option.getD_some, beq_iff_eq]
        omega

theorem size_lower (is : List Nat) (counts : Array Nat) :
    (CounterBased.lower is counts).size = counts.size := by
  induction is generalizing counts with
  | nil => rfl
  | cons i is ih => exact (ih _).trans Array.size_modify

/-- What was lowered can be raised again. -/
theorem raise_lower {is : List Nat} {counts : Array Nat} (h : ∀ i, is.count i ≤ counts[i]?.getD 0) :
    raise is (CounterBased.lower is counts) = .ok counts := by
  have hsize := size_lower is counts
  obtain ⟨raised, hrun, hraised, hcount⟩ := raise_eq (CounterBased.lower is counts)
    fun i hi => hsize.symm ▸ lt_size_of_mem h i hi
  refine hrun.trans (congrArg Except.ok (Array.ext (hraised.trans hsize) fun i hi hi' => ?_))
  have hback := hcount i (hsize.symm ▸ hi')
  rwa [getD_lower, Nat.sub_add_cancel (h i), Array.getElem?_eq_getElem hi,
    Array.getElem?_eq_getElem hi'] at hback

theorem lacks_eq {degrees lowered : Array Nat} {is : List Nat}
    (h : ∀ i ∈ is, i < lowered.size ∧ i < degrees.size) : lacks degrees lowered is =
      .ok (is.any fun i => decide (lowered[i]?.getD 0 < degrees[i]?.getD 0)) := by
  refine anyM_eq fun i hi => ?_
  have hlow := Array.getElem?_eq_getElem (h i hi).1
  have hdegree := Array.getElem?_eq_getElem (h i hi).2
  rw [read_eq hlow, read_eq hdegree, hlow, hdegree]
  rfl

/-- Every literal that is tried is counted wherever it is listed, so no counter runs out. -/
theorem keep_eq {model : List Literal} {rs : List Requirement}
    {occurrences : LiteralTable (List Nat)} {ls : List Literal} (kept : List Literal)
    {counts : Array Nat} (hsub : ls ⊆ model) (hsize : occurrences.size = (truthTable model).size)
    (hoccur : ∀ l ∈ ls, ∀ i : Nat, (occurrences.getD l []).count i = (listedAt rs i).count l)
    (hnodup : (kept ++ ls).Nodup) (hnum : counts.size = rs.length)
    (hcounts : ∀ i : Nat,
      counts[i]?.getD 0 = (listedAt rs i).countP fun l => decide (l ∈ kept ++ ls)) :
    keep (ClauseLearning.Checked.marks model rs) (rs.map degree).toArray occurrences ls counts =
      .ok (CounterBased.keep (mandatoryTable rs) (rs.map degree).toArray occurrences ls
        counts) := by
  induction ls generalizing kept counts with
  | nil => rfl
  | cons l ls ih =>
    obtain ⟨hl, hls⟩ := List.cons_subset.mp hsub
    obtain ⟨hlisted, hrest⟩ := List.forall_mem_cons.mp hoccur
    have hkept := ih (kept ++ [l]) hls hrest (by rwa [List.append_assoc]) hnum
      (by simpa only [List.append_assoc, List.singleton_append] using hcounts)
    have hdropped := ih kept hls hrest (List.nodup_cons.mp (List.nodup_middle.mp hnodup)).2
      ((size_lower _ _).trans hnum) (getD_lower_of_nodup hlisted hnodup hcounts)
    have henough : ∀ i, (occurrences.getD l []).count i ≤ counts[i]?.getD 0 := by
      intro i
      rw [hlisted, hcounts]
      exact List.countP_mono_left fun m _ hm => by simp_all
    have hbound : ∀ i ∈ occurrences.getD l [],
        i < (CounterBased.lower (occurrences.getD l []) counts).size ∧
          i < (rs.map degree).toArray.size := by
      intro i hi
      rw [size_lower, hnum, List.size_toArray, List.length_map, and_self]
      by_contra hge
      have hpos := List.count_pos_iff.mpr hi
      rw [hlisted, listedAt_of_length_le (Nat.le_of_not_lt hge)] at hpos
      exact Nat.lt_irrefl 0 hpos
    unfold keep CounterBased.keep
    dsimp only
    rw [ClauseLearning.Checked.read_marks rs hl, ok_bind,
      LiteralTable.checkedGet_eq (hsize ▸ size_truthTable hl) [], ok_bind, lower_eq henough,
      ok_bind, lacks_eq hbound, ok_bind, raise_lower henough, ok_bind, hkept, ok_bind]
    cases isMandatory (mandatoryTable rs) l.var with
    | true => rfl
    | false =>
      cases (occurrences.getD l []).any fun i =>
          decide ((CounterBased.lower (occurrences.getD l []) counts)[i]?.getD 0 <
            (rs.map degree).toArray[i]?.getD 0) with
      | true => rfl
      | false => exact hdropped

end Checked

theorem Checked.implicant_eq {model : List Literal} (hnodup : model.Nodup) (rs : List Requirement) :
    Checked.implicant model rs = .ok (CounterBased.implicant model rs) := by
  obtain ⟨hnum, hsize, -, -⟩ := ofRequirements_spec (truthTable model) rs
  obtain ⟨hoccur, hcount⟩ := ofRequirements_model model rs
  unfold Checked.implicant
  rw [Checked.ofRequirements_eq]
  exact Checked.keep_eq [] (List.Subset.refl model) hsize hoccur hnodup hnum hcount

end CounterBased

end ClauseLearning
