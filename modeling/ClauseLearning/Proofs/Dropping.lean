import Mathlib.Data.List.Induction
import ClauseLearning.Implicant.Basic
import ClauseLearning.Proofs.Resolution

/-!
# What is counted

A part of a model meets all requirements that the model meets if it has the literals of all
mandatory variables and enough of everything that is counted. How many literals of a requirement are
left when one is dropped can be read off the counters.

* `Requirement.Counts`: there are enough literals of everything that is counted.
* `MeetsAll.of_counts`: what has to be shown of a part of a model.
* `CounterBased.getD_lower_of_nodup`: the counters after a literal was dropped.
-/

namespace ClauseLearning

/-! ## Tables -/

namespace LiteralTable

variable {α : Type}

theorem getD_of_size_le {t : LiteralTable α} {l : Literal} (h : t.size ≤ l.code) (d : α) :
    t.getD l d = d := by
  have hnone : t.entries[l.code]? = none := Array.getElem?_eq_none h
  simp only [getD, get?, hnone, Option.getD_none]

theorem lt_size_of_getD {t : LiteralTable Bool} {l : Literal} (h : t.getD l false = true) :
    l.code < t.size := by
  by_contra hge
  rw [getD_of_size_le (Nat.le_of_not_lt hge)] at h
  cases h

theorem size_set (t : LiteralTable α) (l : Literal) (a : α) : (t.set l a).size = t.size := by
  simp [set, size]

theorem getD_set (t : LiteralTable α) (l m : Literal) (a d : α) :
    (t.set l a).getD m d = if l = m ∧ l.code < t.size then a else t.getD m d := by
  by_cases hlm : l = m
  · subst hlm
    by_cases hlt : l.code < t.size
    · have hlt' : l.code < t.entries.size := hlt
      simp [set, getD, get?, hlt, hlt']
    · rw [if_neg fun h => hlt h.2, getD_of_size_le (Nat.le_of_not_lt hlt)]
      exact getD_of_size_le (by rw [size_set]; exact Nat.le_of_not_lt hlt) d
  · have hcode : l.code ≠ m.code := fun h => hlm (by cases l; cases m; simp_all)
    rw [if_neg fun h => hlm h.1]
    simp [set, getD, get?, hcode]

theorem getD_modify (t : LiteralTable α) (l m : Literal) (f : α → α) (d : α) :
    (t.modify l f).getD m d = if l = m ∧ l.code < t.size then f (t.getD m d) else t.getD m d := by
  simp only [getD, get?_modify]
  by_cases hlm : l = m
  · subst hlm
    by_cases hlt : l.code < t.size
    · have hlt' : l.code < t.entries.size := hlt
      simp [get?, hlt, hlt']
    · have hnone : t.get? l = none := Array.getElem?_eq_none (Nat.le_of_not_lt hlt)
      simp [hnone, hlt]
  · rw [if_neg hlm, if_neg fun h => hlm h.1]

theorem getD_grow (t : LiteralTable α) (n : Nat) (l : Literal) (a : α) :
    (t.grow n a).getD l a = t.getD l a := by
  exact getD_append_replicate ..

end LiteralTable

namespace Requirement

/-- The table of a model holds its literals. -/
theorem getD_truthTable (model : List Literal) (l : Literal) :
    (truthTable model).getD l false = true ↔ l ∈ model := by
  have hall : ∀ (ls : List Literal) (table : LiteralTable Bool) (known : List Literal),
      (∀ l, table.getD l false = true ↔ l ∈ known) →
      ∀ l, (ls.foldl (fun table l => (table.grow (2 * (l.var + 1)) false).set l true)
        table).getD l false = true ↔ l ∈ known ∨ l ∈ ls := by
    intro ls
    induction ls with
    | nil => exact fun table known h l => by simpa using h l
    | cons m ms ih =>
      intro table known h l
      have hcode : m.code < (table.grow (2 * (m.var + 1)) false).size := by
        rw [LiteralTable.size_grow, Literal.var]
        omega
      have hstep : ∀ l, ((table.grow (2 * (m.var + 1)) false).set m true).getD l false = true ↔
          l ∈ m :: known := by
        intro l
        rw [LiteralTable.getD_set, LiteralTable.getD_grow, List.mem_cons]
        by_cases hml : m = l
        · simp [hml, hml ▸ hcode]
        · rw [if_neg fun hm => hml hm.1, h l]
          simp [Ne.symm hml]
      rw [List.foldl_cons, ih _ _ hstep, List.mem_cons, List.mem_cons]
      tauto
  have h := hall model .empty [] (fun l => by simp [LiteralTable.getD, LiteralTable.get?,
    LiteralTable.empty]) l
  simpa [truthTable] using h

theorem size_truthTable {model : List Literal} {l : Literal} (h : l ∈ model) :
    l.code < (truthTable model).size :=
  LiteralTable.lt_size_of_getD ((getD_truthTable model l).mpr h)

/-- The marked variables are those that some requirement names. -/
theorem isMandatory_mandatoryTable (rs : List Requirement) (v : Nat) :
    isMandatory (mandatoryTable rs) v = true ↔ ∃ vs, .mandatory vs ∈ rs ∧ v ∈ vs := by
  have hmark : ∀ (table : Array Bool) (w : Nat),
      isMandatory (mark w table) v = true ↔ w = v ∨ isMandatory table v = true := by
    intro table w
    by_cases hw : w = v
    · subst hw
      have hlt : w < (table ++ Array.replicate (w + 1 - table.size) false).size := by
        rw [Array.size_append, Array.size_replicate]
        omega
      simp only [isMandatory, mark, true_or, iff_true]
      rw [Array.getElem?_setIfInBounds_self_of_lt hlt]
      rfl
    · simp only [isMandatory, mark, hw, false_or]
      rw [Array.getElem?_setIfInBounds_ne hw, getD_append_replicate]
  have hmarks : ∀ (vs : List Nat) (table : Array Bool),
      isMandatory (vs.foldl (fun table v => mark v table) table) v = true ↔
        v ∈ vs ∨ isMandatory table v = true := by
    intro vs
    induction vs with
    | nil => simp
    | cons w ws ih =>
      intro table
      rw [List.foldl_cons, ih, hmark, List.mem_cons]
      tauto
  induction rs using List.reverseRecOn with
  | nil => simp [mandatoryTable, isMandatory]
  | append_singleton rs r ih =>
    cases r with
    | atLeast ls degree =>
      have htable : mandatoryTable (rs ++ [.atLeast ls degree]) = mandatoryTable rs := by
        simp only [mandatoryTable, List.foldl_append, List.foldl_cons, List.foldl_nil]
      simp [htable, ih]
    | mandatory ws =>
      have htable : mandatoryTable (rs ++ [.mandatory ws]) =
          ws.foldl (fun table v => mark v table) (mandatoryTable rs) := by
        simp only [mandatoryTable, List.foldl_append, List.foldl_cons, List.foldl_nil]
      simp only [htable, hmarks, ih, List.mem_append, List.mem_singleton, mandatory.injEq,
        or_and_right, exists_or, exists_eq_left]
      rw [or_comm]

/-- The literals that are counted. -/
def listed : Requirement → List Literal
  | .atLeast ls _ => ls
  | .mandatory _ => []

/-- What the requirement with a number counts; nothing if there is none. -/
def listedAt (rs : List Requirement) (i : Nat) : List Literal := (rs[i]?.map listed).getD []

theorem listedAt_concat (rs : List Requirement) (r : Requirement) (i : Nat) :
    listedAt (rs ++ [r]) i = if i = rs.length then r.listed else listedAt rs i := by
  simp only [listedAt]
  split
  · rename_i hi
    rw [hi, List.getElem?_concat_length]
    rfl
  · rename_i hi
    rw [List.getElem?_append]
    split
    · rfl
    · rename_i hlt
      rw [List.getElem?_eq_none (Nat.le_of_not_lt hlt), List.getElem?_eq_none (by
        simp only [List.length_singleton]
        omega)]

theorem listedAt_of_length_le {rs : List Requirement} {i : Nat} (h : rs.length ≤ i) :
    listedAt rs i = [] := by
  simp only [listedAt, List.getElem?_eq_none h, Option.map_none, Option.getD_none]

/-- Enough of the listed literals are there. -/
def Counts (rs : List Requirement) (p : Literal → Bool) : Prop :=
  ∀ r ∈ rs, CounterBased.degree r ≤ r.listed.countP p

theorem counts_cons {r : Requirement} {rs : List Requirement} {p : Literal → Bool} :
    Counts (r :: rs) p ↔ CounterBased.degree r ≤ r.listed.countP p ∧ Counts rs p :=
  List.forall_mem_cons

theorem Counts.mono {rs : List Requirement} {p q : Literal → Bool} (h : Counts rs p)
    (hpq : ∀ l, p l = true → q l = true) : Counts rs q := fun r hr =>
  Nat.le_trans (h r hr) (List.countP_mono_left fun l _ => hpq l)

theorem counts_iff {rs : List Requirement} {p : Literal → Bool} :
    Counts rs p ↔ ∀ i, (rs.map CounterBased.degree).toArray[i]?.getD 0 ≤
      (listedAt rs i).countP p := by
  simp only [List.getElem?_toArray, List.getElem?_map]
  constructor
  · intro h i
    cases hr : rs[i]? with
    | none => exact Nat.zero_le _
    | some r =>
      rw [listedAt, hr]
      exact h r (List.mem_of_getElem? hr)
  · intro h r hr
    obtain ⟨i, hi⟩ := List.mem_iff_getElem?.mp hr
    have hle := h i
    rw [listedAt, hi] at hle
    exact hle

end Requirement

open Requirement

/-! ## What has to be shown -/

theorem MeetsAll.counts {ls : List Literal} {rs : List Requirement} (h : MeetsAll ls rs) :
    Counts rs fun l => decide (l ∈ ls) := by
  intro r hr
  have hmet := h r hr
  cases r with
  | atLeast xs degree => exact of_decide_eq_true hmet
  | mandatory vs => exact Nat.zero_le _

/-- A part of a model with the literals of all mandatory variables and enough of everything that is
counted meets the requirements. -/
theorem MeetsAll.of_counts {model ls : List Literal} {rs : List Requirement} (h : MeetsAll model rs)
    (hkeep : ∀ l ∈ model, isMandatory (mandatoryTable rs) l.var = true → l ∈ ls)
    (hcounts : Counts rs fun l => decide (l ∈ ls)) : MeetsAll ls rs := by
  intro r hr
  cases r with
  | atLeast xs degree => exact decide_eq_true (hcounts _ hr)
  | mandatory vs =>
    have hmet := h _ hr
    simp only [isMet, List.all_eq_true, Bool.or_eq_true, decide_eq_true_eq] at hmet ⊢
    intro v hv
    have hmandatory : isMandatory (mandatoryTable rs) v = true :=
      (isMandatory_mandatoryTable rs v).mpr ⟨vs, hr, hv⟩
    exact (hmet v hv).imp (fun hl => hkeep _ hl (by rwa [Literal.var_make]))
      fun hl => hkeep _ hl (by rwa [Literal.var_make])

/-! ## Counting -/

/-- One more literal counts as often as it is listed. -/
theorem countP_eq_add_count {p q : Literal → Bool} {l : Literal} (hp : p l = false)
    (hq : q l = true) (hrest : ∀ m, m ≠ l → q m = p m) (ls : List Literal) :
    ls.countP q = ls.countP p + ls.count l := by
  induction ls with
  | nil => rfl
  | cons m ms ih =>
    rw [List.countP_cons, List.countP_cons, List.count_cons, ih]
    by_cases hm : m = l
    · subst hm
      simp only [hp, hq, beq_self_eq_true, if_true, Bool.false_eq_true, if_false]
      omega
    · simp only [hrest m hm, beq_iff_eq, hm, if_false]
      omega

namespace CounterBased

theorem getD_lower (occursIn : List Nat) (counts : Array Nat) (i : Nat) :
    (lower occursIn counts)[i]?.getD 0 = counts[i]?.getD 0 - occursIn.count i := by
  induction occursIn generalizing counts with
  | nil => rfl
  | cons j js ih =>
    have hone : (counts.modify j (· - 1))[i]?.getD 0 =
        counts[i]?.getD 0 - if j = i then 1 else 0 := by
      rw [Array.getElem?_modify]
      split
      · cases counts[i]? <;> rfl
      · rfl
    rw [lower, List.foldl_cons, ← lower, ih, hone, List.count_cons]
    simp only [beq_iff_eq]
    omega

/-- A requirement is entered as the list of those of its literals that are true. -/
theorem enter_eq (isTrue : LiteralTable Bool) (i : Nat) (r : Requirement) (c : Counters) :
    enter isTrue i r c =
      ⟨c.counts.push (r.listed.countP fun l => isTrue.getD l false),
        (r.listed.filter fun l => isTrue.getD l false).foldl
          (fun table l => table.modify l (i :: ·)) c.occurrences⟩ := by
  cases r with
  | atLeast ls degree => simp only [enter, listed, List.countP_eq_length_filter]
  | mandatory vs => rfl

theorem count_occurrences {table : LiteralTable (List Nat)} {l : Literal} (h : l.code < table.size)
    (ls : List Literal) (i j : Nat) :
    ((ls.foldl (fun table l => table.modify l (i :: ·)) table).getD l []).count j =
      (if i = j then ls.count l else 0) + (table.getD l []).count j := by
  induction ls generalizing table with
  | nil => simp
  | cons m ms ih =>
    have hsize : l.code < (table.modify m (i :: ·)).size := by
      rw [LiteralTable.size_modify]
      exact h
    rw [List.foldl_cons, ih hsize, LiteralTable.getD_modify, List.count_cons]
    by_cases hml : m = l
    · subst hml
      simp only [h, and_self, if_true, List.count_cons, beq_self_eq_true, beq_iff_eq]
      split <;> omega
    · simp only [hml, false_and, if_false, beq_iff_eq, Nat.add_zero]

/-- The requirements are entered one after the other. -/
theorem ofRequirements_concat (isTrue : LiteralTable Bool) (rs : List Requirement)
    (r : Requirement) : Counters.ofRequirements isTrue (rs ++ [r]) =
      enter isTrue rs.length r (Counters.ofRequirements isTrue rs) := by
  simp only [Counters.ofRequirements, List.zipIdx_append, List.foldl_append, Nat.zero_add,
    List.zipIdx_singleton, List.foldl_cons, List.foldl_nil]

/-- The counters say how many literals of a requirement are true, and where a literal occurs. -/
theorem ofRequirements_spec (isTrue : LiteralTable Bool) (rs : List Requirement) :
    (Counters.ofRequirements isTrue rs).counts.size = rs.length ∧
      (Counters.ofRequirements isTrue rs).occurrences.size = isTrue.size ∧
      (∀ i, (Counters.ofRequirements isTrue rs).counts[i]?.getD 0 =
        (listedAt rs i).countP fun l => isTrue.getD l false) ∧
      ∀ l : Literal, l.code < isTrue.size → ∀ i,
        ((Counters.ofRequirements isTrue rs).occurrences.getD l []).count i =
          ((listedAt rs i).filter fun l => isTrue.getD l false).count l := by
  induction rs using List.reverseRecOn with
  | nil =>
    have hnone : ∀ l, (LiteralTable.empty.grow isTrue.size ([] : List Nat)).getD l [] = [] :=
      fun l => LiteralTable.getD_grow _ _ l []
    refine ⟨rfl, ?_, fun i => rfl, fun l hl i => ?_⟩
    · exact (LiteralTable.size_grow _ _ _).trans (Nat.zero_max _)
    · show List.count i ((LiteralTable.empty.grow isTrue.size ([] : List Nat)).getD l []) = 0
      rw [hnone, List.count_nil]
  | append_singleton rs r ih =>
    obtain ⟨hcounts, hsize, hcount, hoccur⟩ := ih
    rw [ofRequirements_concat, enter_eq]
    have hkept : ∀ (ls : List Literal) (table : LiteralTable (List Nat)),
        (ls.foldl (fun table l => table.modify l (rs.length :: ·)) table).size = table.size := by
      intro ls
      induction ls with
      | nil => exact fun table => rfl
      | cons l ls ih => exact fun table => (ih _).trans (LiteralTable.size_modify table l _)
    refine ⟨?_, (hkept _ _).trans hsize, fun i => ?_, fun l hl i => ?_⟩
    · rw [Array.size_push, hcounts, List.length_append, List.length_singleton]
    · rw [Array.getElem?_push, hcounts, listedAt_concat]
      split
      · rfl
      · exact hcount i
    · rw [count_occurrences (hsize.symm ▸ hl), hoccur l hl, listedAt_concat]
      by_cases hi : i = rs.length
      · rw [if_pos hi, if_pos hi.symm, listedAt_of_length_le (Nat.le_of_eq hi.symm)]
        rfl
      · rw [if_neg hi, if_neg (Ne.symm hi), Nat.zero_add]

/-- The counters are lowered by the occurrences of the literal, which is all that is lost. -/
theorem getD_lower_of_nodup {rs : List Requirement} {occurrences : LiteralTable (List Nat)}
    {kept ls : List Literal} {l : Literal} {counts : Array Nat}
    (hoccur : ∀ i : Nat, (occurrences.getD l []).count i = (listedAt rs i).count l)
    (hnodup : (kept ++ l :: ls).Nodup)
    (hcounts : ∀ i : Nat,
      counts[i]?.getD 0 = (listedAt rs i).countP fun m => decide (m ∈ kept ++ l :: ls)) (i : Nat) :
    (lower (occurrences.getD l []) counts)[i]?.getD 0 =
      (listedAt rs i).countP fun m => decide (m ∈ kept ++ ls) := by
  have hlost : l ∉ kept ++ ls := (List.nodup_cons.mp (List.perm_middle.nodup_iff.mp hnodup)).1
  have hless := countP_eq_add_count (p := fun m => decide (m ∈ kept ++ ls))
    (q := fun m => decide (m ∈ kept ++ l :: ls)) (l := l) (by simpa using hlost) (by simp)
    (fun m hm => by simp [hm]) (listedAt rs i)
  rw [getD_lower, hcounts, hoccur, hless, Nat.add_sub_cancel]

end CounterBased

end ClauseLearning
