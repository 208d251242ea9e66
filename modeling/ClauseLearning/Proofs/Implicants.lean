import Mathlib.Data.List.Nodup
import ClauseLearning.Proofs.Dropping

/-!
# Implicants

Every requirement watches as many literals as it needs. A literal is dropped if all that watch it
find something else, so no watched literal is ever dropped, and what is not dropped is enough.

A valuation that makes such a part of a model true satisfies the constraints.

* `WatcherBased.State.Watching`: who watches what, and `State.Watching.counts`: what follows.
* `WatcherBased.State.tryDrop_spec`: trying a literal keeps it so.
* `Description.holds_of_meetsAll`: what the requirements are for.
-/

namespace ClauseLearning

open Requirement

/-! ## Watching -/

namespace WatcherBased.State

/-- How many occurrences of certain literals the requirement with number `i` watches. -/
def numWatched (s : State) (rs : List Requirement) (i : Nat) (p : Literal → Bool) : Nat :=
  (listedAt rs i).zipIdx.countP fun e => s.isWatched i e.2 && p e.1

/-- Every requirement watches as many occurrences of true literals that are not dropped as it needs.
Who watches a literal is listed, but for those that are looking for something else. -/
structure Watching (isTrue : LiteralTable Bool) (rs : List Requirement)
    (loose : Literal → Nat → Nat) (s : State) : Prop where
  size_status : s.status.size = isTrue.size
  size_watchers : s.watchers.size = isTrue.size
  size_watched : s.watched.size = rs.length
  rows : ∀ i : Nat, (s.watched[i]?.getD #[]).size = (listedAt rs i).length
  enough : ∀ i, s.numWatched rs i (fun _ => true) = ((rs[i]?).map CounterBased.degree).getD 0
  alive : ∀ i, ∀ e ∈ (listedAt rs i).zipIdx, s.isWatched i e.2 = true →
    isTrue.getD e.1 false = true ∧ s.status.getD e.1 .candidate ≠ .dropped
  watchers : ∀ l : Literal, l.code < isTrue.size → ∀ i,
    (s.watchers.getD l #[]).toList.count i + loose l i = s.numWatched rs i fun m => decide (m = l)

variable {isTrue : LiteralTable Bool} {rs : List Requirement} {loose : Literal → Nat → Nat}
  {s : State}

/-! ### The first choice -/

theorem length_choose (isTrue : LiteralTable Bool) (ls : List Literal) (n : Nat) :
    (choose isTrue ls n).length = ls.length := by
  induction ls generalizing n with
  | nil => rfl
  | cons l ls ih =>
    cases n with
    | zero => simp only [choose, List.length_cons, ih]
    | succ n =>
      unfold choose
      split
      · simp only [List.length_cons, ih]
      · simp only [List.length_cons, ih]

theorem isTrue_of_choose {ls : List Literal} {n : Nat} {l : Literal}
    (h : (l, true) ∈ ls.zip (choose isTrue ls n)) : isTrue.getD l false = true := by
  induction ls generalizing n with
  | nil => cases h
  | cons m ms ih =>
    cases n with
    | zero =>
      rcases List.mem_cons.mp h with heq | h
      · cases heq
      · exact ih h
    | succ n =>
      unfold choose at h
      split at h
      · rename_i hm
        rcases List.mem_cons.mp h with heq | h
        · cases heq
          exact hm
        · exact ih h
      · rcases List.mem_cons.mp h with heq | h
        · cases heq
        · exact ih h

theorem isTrue_of_getElem?_choose {ls : List Literal} {n j : Nat} {l : Literal}
    (hl : ls[j]? = some l)
    (hj : (choose isTrue ls n)[j]?.getD false = true) : isTrue.getD l false = true := by
  have hchosen : (choose isTrue ls n)[j]? = some true := by
    cases hb : (choose isTrue ls n)[j]? with
    | none =>
      rw [hb] at hj
      cases hj
    | some b =>
      rw [hb] at hj
      exact congrArg some hj
  have hmem : (l, true) ∈ ls.zip (choose isTrue ls n) :=
    List.mem_iff_getElem?.mpr ⟨j, List.getElem?_zip_eq_some.mpr ⟨hl, hchosen⟩⟩
  exact isTrue_of_choose hmem

/-- If there are enough true literals, as many as asked for are chosen. -/
theorem countP_choose {ls : List Literal} {n : Nat}
    (h : n ≤ ls.countP fun l => isTrue.getD l false) :
    (ls.zip (choose isTrue ls n)).countP (fun e => e.2 && true) = n := by
  induction ls generalizing n with
  | nil => exact (Nat.le_zero.mp h).symm
  | cons l ls ih =>
    cases n with
    | zero =>
      simp only [choose, List.zip_cons_cons, List.countP_cons, ih (Nat.zero_le _)]
      rfl
    | succ n =>
      unfold choose
      rw [List.countP_cons] at h
      split
      · rename_i hl
        rw [if_pos hl] at h
        rw [List.zip_cons_cons, List.countP_cons, ih (Nat.le_of_succ_le_succ h)]
        rfl
      · rename_i hl
        rw [if_neg hl] at h
        rw [List.zip_cons_cons, List.countP_cons, ih h]
        rfl

/-- Counting by position and counting in parallel is the same. -/
theorem countP_zipIdx {ls : List Literal} {bs : List Bool} (h : bs.length = ls.length)
    (p : Literal → Bool) :
    (ls.zipIdx.countP fun e => bs[e.2]?.getD false && p e.1) =
      (ls.zip bs).countP fun e => e.2 && p e.1 := by
  have hzip : ls.zip bs = ls.zipIdx.map fun e => (e.1, bs[e.2]?.getD false) := by
    refine List.ext_getElem (by simp [h]) fun i hi hi' => ?_
    have hib : i < bs.length := by
      rw [List.length_zip] at hi
      omega
    simp [hib]
  rw [hzip, List.countP_map]
  rfl

/-- A requirement is entered with its first choice. -/
theorem enter_eq (isTrue : LiteralTable Bool) (i : Nat) (r : Requirement) (s : State) :
    s.enter isTrue i r =
      ⟨s.status, s.watched.push (choose isTrue r.listed (CounterBased.degree r)).toArray,
        (r.listed.zip (choose isTrue r.listed (CounterBased.degree r))).foldl
          (fun table e => if e.2 then table.modify e.1 (·.push i) else table) s.watchers⟩ := by
  cases r with
  | atLeast ls degree => rfl
  | mandatory vs => rfl

theorem count_enter {table : LiteralTable (Array Nat)} {l : Literal} (h : l.code < table.size)
    (es : List (Literal × Bool)) (i j : Nat) :
    ((es.foldl (fun table e => if e.2 then table.modify e.1 (·.push i) else table) table).getD l
        #[]).toList.count j =
      (table.getD l #[]).toList.count j +
        if i = j then es.countP (fun e => e.2 && decide (e.1 = l)) else 0 := by
  induction es generalizing table with
  | nil => simp
  | cons e es ih =>
    obtain ⟨m, b⟩ := e
    rw [List.foldl_cons, List.countP_cons]
    cases b with
    | false => simpa using ih h
    | true =>
      have hsize : l.code < (table.modify m (·.push i)).size := by
        rw [LiteralTable.size_modify]
        exact h
      simp only [if_true]
      rw [ih hsize, LiteralTable.getD_modify]
      by_cases hml : m = l
      · subst hml
        simp only [h, and_self, if_true, Array.toList_push, List.count_append, decide_true,
          Bool.and_self, List.count_singleton, beq_iff_eq]
        split <;> omega
      · simp only [hml, false_and, if_false, decide_false, Bool.and_false, Bool.false_eq_true,
          Nat.add_zero]

theorem isWatched_push (s : State) (row : Array Bool) (w : LiteralTable (Array Nat)) (i j : Nat) :
    (⟨s.status, s.watched.push row, w⟩ : State).isWatched i j =
      if i = s.watched.size then row[j]?.getD false else s.isWatched i j := by
  simp only [isWatched, Array.getElem?_push]
  split
  · rfl
  · rfl

theorem numWatched_push (h : s.watched.size = rs.length) (r : Requirement) {bs : List Bool}
    (hbs : bs.length = r.listed.length) (w : LiteralTable (Array Nat)) (i : Nat)
    (p : Literal → Bool) : numWatched ⟨s.status, s.watched.push bs.toArray, w⟩ (rs ++ [r]) i p =
      if i = rs.length then (r.listed.zip bs).countP fun e => e.2 && p e.1
      else s.numWatched rs i p := by
  simp only [numWatched, isWatched_push, h, listedAt_concat]
  split
  · simp only [List.getElem?_toArray]
    exact countP_zipIdx hbs p
  · rfl

theorem size_foldl_push (i : Nat) (es : List (Literal × Bool)) (table : LiteralTable (Array Nat)) :
    (es.foldl (fun table e => if e.2 then table.modify e.1 (·.push i) else table) table).size =
      table.size := by
  induction es generalizing table with
  | nil => rfl
  | cons e es ih =>
    rw [List.foldl_cons, ih]
    split
    · exact LiteralTable.size_modify table _ _
    · rfl

/-- As long as nothing is dropped, a requirement that enough true literals meet can be entered. -/
theorem Watching.enter (h : Watching isTrue rs (fun _ _ => 0) s)
    (hkept : ∀ l : Literal, s.status.getD l .candidate ≠ .dropped) {r : Requirement}
    (hr : CounterBased.degree r ≤ r.listed.countP fun l => isTrue.getD l false) :
    Watching isTrue (rs ++ [r]) (fun _ _ => 0) (s.enter isTrue rs.length r) := by
  rw [enter_eq]
  have hlength := length_choose isTrue r.listed (CounterBased.degree r)
  refine ⟨h.size_status, (size_foldl_push ..).trans h.size_watchers, ?_, fun i => ?_, fun i => ?_,
    fun i e he hwatched => ?_, fun l hl i => ?_⟩
  · rw [Array.size_push, h.size_watched, List.length_append, List.length_singleton]
  · rw [Array.getElem?_push, h.size_watched, listedAt_concat]
    split
    · exact hlength
    · exact h.rows i
  · rw [numWatched_push h.size_watched r hlength]
    split
    · rename_i hi
      rw [hi, List.getElem?_concat_length]
      exact countP_choose hr
    · rename_i hi
      rw [h.enough i, List.getElem?_append]
      split
      · rfl
      · rename_i hlt
        rw [List.getElem?_eq_none (Nat.le_of_not_lt hlt), List.getElem?_eq_none (by
          simp only [List.length_singleton]
          omega)]
  · rw [isWatched_push, h.size_watched] at hwatched
    rw [listedAt_concat] at he
    split at hwatched
    · rename_i hi
      rw [if_pos hi] at he
      rw [List.getElem?_toArray] at hwatched
      exact ⟨isTrue_of_getElem?_choose (List.mem_zipIdx_iff_getElem?.mp he) hwatched, hkept e.1⟩
    · rename_i hi
      rw [if_neg hi] at he
      exact h.alive i e he hwatched
  · rw [count_enter (h.size_watchers.symm ▸ hl), numWatched_push h.size_watched r hlength]
    have hcount := h.watchers l hl i
    by_cases hi : i = rs.length
    · have hzero : s.numWatched rs i (fun m => decide (m = l)) = 0 := by
        rw [numWatched, listedAt_of_length_le (Nat.le_of_eq hi.symm)]
        rfl
      rw [if_pos hi.symm, if_pos hi]
      omega
    · rw [if_neg (Ne.symm hi), if_neg hi]
      exact hcount

/-- The requirements are entered one after the other. -/
theorem ofRequirements_concat (isTrue : LiteralTable Bool) (rs : List Requirement)
    (r : Requirement) :
    ofRequirements isTrue (rs ++ [r]) = (ofRequirements isTrue rs).enter isTrue rs.length r := by
  simp only [ofRequirements, List.zipIdx_append, List.foldl_append, Nat.zero_add,
    List.zipIdx_singleton, List.foldl_cons, List.foldl_nil]

theorem watching_nil (isTrue : LiteralTable Bool) :
    Watching isTrue [] (fun _ _ => 0) (ofRequirements isTrue []) where
  size_status := (LiteralTable.size_grow _ _ _).trans (Nat.zero_max _)
  size_watchers := (LiteralTable.size_grow _ _ _).trans (Nat.zero_max _)
  size_watched := rfl
  rows := fun _ => rfl
  enough := fun _ => rfl
  alive := fun _ _ he => by cases he
  watchers := by
    intro l _ i
    show ((LiteralTable.empty.grow isTrue.size (#[] : Array Nat)).getD l #[]).toList.count i + 0 = 0
    rw [LiteralTable.getD_grow]
    rfl

theorem watching_ofRequirements (h : Counts rs fun l => isTrue.getD l false) :
    Watching isTrue rs (fun _ _ => 0) (ofRequirements isTrue rs) ∧
      (ofRequirements isTrue rs).status = LiteralTable.empty.grow isTrue.size .candidate := by
  induction rs using List.reverseRecOn with
  | nil => exact ⟨watching_nil isTrue, rfl⟩
  | append_singleton rs r ih =>
    obtain ⟨hw, hstatus⟩ := ih fun r' hr' => h r' (List.mem_append_left _ hr')
    rw [ofRequirements_concat]
    refine ⟨hw.enter (fun l => ?_) (h r (List.mem_append_right _ List.mem_cons_self)), ?_⟩
    · rw [hstatus, LiteralTable.getD_grow]
      exact nofun
    · rw [enter_eq]
      exact hstatus

/-! ### Looking for something else -/

/-- What an exchange of two elements does to a count. -/
theorem countP_exchange {α : Type} [DecidableEq α] {xs : List α} (hxs : xs.Nodup) {x y : α}
    (hx : x ∈ xs) (hy : y ∈ xs) (hne : x ≠ y) {p q : α → Bool}
    (hrest : ∀ z ∈ xs, z ≠ x → z ≠ y → q z = p z) :
    xs.countP q + (p x).toNat + (p y).toNat = xs.countP p + (q x).toNat + (q y).toNat := by
  have hy' : y ∈ xs.erase x := (List.mem_erase_of_ne (Ne.symm hne)).mpr hy
  have hperm : xs.Perm (x :: y :: (xs.erase x).erase y) :=
    (List.perm_cons_erase hx).trans ((List.perm_cons_erase hy').cons x)
  have heq : ((xs.erase x).erase y).countP q = ((xs.erase x).erase y).countP p := by
    apply List.countP_congr
    intro z hz
    obtain ⟨hzy, hz⟩ := (List.Nodup.mem_erase_iff (hxs.erase x)).mp hz
    obtain ⟨hzx, hz⟩ := (List.Nodup.mem_erase_iff hxs).mp hz
    rw [hrest z hz hzx hzy]
  have hbool : ∀ b : Bool, (if b = true then 1 else 0) = b.toNat := by decide
  rw [hperm.countP_eq q, hperm.countP_eq p]
  simp only [List.countP_cons, heq, hbool]
  omega

theorem nodup_zipIdx (ls : List Literal) : ls.zipIdx.Nodup := by
  refine List.Nodup.of_map Prod.snd ?_
  rw [List.zipIdx_map_snd]
  exact List.nodup_range'

theorem eq_of_mem_zipIdx {ls : List Literal} {x y : Literal} {k : Nat} (hx : (x, k) ∈ ls.zipIdx)
    (hy : (y, k) ∈ ls.zipIdx) : x = y := by
  have hy := List.mem_zipIdx_iff_getElem?.mp hy
  rw [List.mem_zipIdx_iff_getElem?.mp hx] at hy
  exact Option.some.inj hy

section

variable {l m : Literal} {i o j : Nat}

theorem move_eq {ls : List Literal}
    (hfirst : ls.zipIdx.find? (fun e => decide (e.1 = l) && s.isWatched i e.2) = some (l, o)) :
    s.move l i ls (m, j) = ⟨s.status,
      s.watched.modify i fun row => (row.setIfInBounds o false).setIfInBounds j true,
      s.watchers.modify m (·.push i)⟩ := by
  unfold State.move
  rw [hfirst]
  rfl

theorem isWatched_move {ls : List Literal} (hi : i < s.watched.size)
    (hj : j < (s.watched[i]?.getD #[]).size) (ho : o < (s.watched[i]?.getD #[]).size)
    (hfirst : ls.zipIdx.find? (fun e => decide (e.1 = l) && s.isWatched i e.2) = some (l, o))
    (i' k : Nat) :
    (s.move l i ls (m, j)).isWatched i' k =
      if i' = i then if k = j then true else if k = o then false else s.isWatched i k
      else s.isWatched i' k := by
  rw [move_eq hfirst]
  simp only [isWatched, Array.getElem?_modify]
  by_cases hii : i' = i
  · subst hii
    obtain ⟨row, hrow⟩ : ∃ row, s.watched[i']? = some row := ⟨_, Array.getElem?_eq_getElem hi⟩
    simp only [hrow, Option.getD_some] at hj ho
    simp only [hrow, if_true, Option.map_some, Option.getD_some]
    rw [Array.getElem?_setIfInBounds, Array.getElem?_setIfInBounds, Array.size_setIfInBounds]
    simp only [hj, ho, if_true, eq_comm (a := j), eq_comm (a := o)]
    split
    · rfl
    · split
      · rfl
      · rfl
  · simp only [Ne.symm hii, hii, if_false]

/-- One occurrence of `l` is not watched any more, and one of `m` is. -/
theorem numWatched_move (hi : i < s.watched.size)
    (hj : j < (s.watched[i]?.getD #[]).size) (ho : o < (s.watched[i]?.getD #[]).size)
    (hfirst : (listedAt rs i).zipIdx.find? (fun e => decide (e.1 = l) && s.isWatched i e.2) =
      some (l, o))
    (hl : (l, o) ∈ (listedAt rs i).zipIdx) (hold : s.isWatched i o = true)
    (hm : (m, j) ∈ (listedAt rs i).zipIdx) (hfree : s.isWatched i j = false) (k : Nat)
    (p : Literal → Bool) :
    (s.move l i (listedAt rs i) (m, j)).numWatched rs k p + (if k = i then (p l).toNat else 0) =
      s.numWatched rs k p + if k = i then (p m).toNat else 0 := by
  have hwatched := isWatched_move (m := m) hi hj ho hfirst
  have hoj : o ≠ j := by
    rintro rfl
    rw [hold] at hfree
    cases hfree
  simp only [numWatched]
  by_cases hk : k = i
  · subst hk
    have hex := countP_exchange (nodup_zipIdx (listedAt rs k)) hl hm
      (fun heq => hoj (Prod.mk.inj heq).2) (p := fun e => s.isWatched k e.2 && p e.1)
      (q := fun e => (s.move l k (listedAt rs k) (m, j)).isWatched k e.2 && p e.1)
      (fun e he hel hem => ?_)
    · simp only [hwatched, if_true, hoj, if_false, hold, hfree, Bool.true_and, Bool.false_and,
        Bool.toNat_false, Nat.add_zero] at hex ⊢
      exact hex
    · obtain ⟨x, n⟩ := e
      have hnj : n ≠ j := by
        rintro rfl
        exact hem (Prod.ext (eq_of_mem_zipIdx he hm) rfl)
      have hno : n ≠ o := by
        rintro rfl
        exact hel (Prod.ext (eq_of_mem_zipIdx he hl) rfl)
      simp only [hwatched, if_true, hnj, if_false, hno]
  · simp only [hwatched, hk, if_false]

theorem count_watchers_move {ls : List Literal}
    (hfirst : ls.zipIdx.find? (fun e => decide (e.1 = l) && s.isWatched i e.2) = some (l, o))
    {n : Literal} (hn : n.code < s.watchers.size) (k : Nat) :
    ((s.move l i ls (m, j)).watchers.getD n #[]).toList.count k =
      (s.watchers.getD n #[]).toList.count k + if m = n ∧ k = i then 1 else 0 := by
  rw [move_eq hfirst, LiteralTable.getD_modify]
  by_cases hmn : m = n
  · subst hmn
    simp only [hn, and_self, if_true, true_and, Array.toList_push, List.count_append,
      List.count_singleton, beq_iff_eq, eq_comm (a := i)]
  · simp only [hmn, false_and, if_false, Nat.add_zero]

theorem Watching.lt_size_of_mem (h : Watching isTrue rs loose s)
    (hl : (l, o) ∈ (listedAt rs i).zipIdx) :
    i < s.watched.size ∧ o < (s.watched[i]?.getD #[]).size := by
  have ho : o < (s.watched[i]?.getD #[]).size := by
    rw [h.rows i]
    exact (List.getElem?_eq_some_iff.mp (List.mem_zipIdx_iff_getElem?.mp hl)).1
  refine ⟨?_, ho⟩
  by_contra hge
  rw [Array.getElem?_eq_none (Nat.le_of_not_lt hge)] at ho
  exact Nat.not_lt_zero o ho

/-- A move takes one watched occurrence away from a literal and watches another one. -/
theorem Watching.move (h : Watching isTrue rs loose s) (hl : (l, o) ∈ (listedAt rs i).zipIdx)
    (hold : s.isWatched i o = true)
    (hfirst : (listedAt rs i).zipIdx.find? (fun e => decide (e.1 = l) && s.isWatched i e.2) =
      some (l, o))
    (hm : (m, j) ∈ (listedAt rs i).zipIdx) (hfree : s.isWatched i j = false)
    (htrue : isTrue.getD m false = true) (halive : s.status.getD m .candidate ≠ .dropped)
    (hne : m ≠ l) (hloose : loose l i ≠ 0) :
    Watching isTrue rs (fun n k => if n = l ∧ k = i then loose n k - 1 else loose n k)
      (s.move l i (listedAt rs i) (m, j)) := by
  obtain ⟨hi, ho⟩ := h.lt_size_of_mem hl
  have hj := (h.lt_size_of_mem hm).2
  have hnum := numWatched_move hi hj ho hfirst hl hold hm hfree
  refine ⟨?_, ?_, ?_, fun k => ?_, fun k => ?_, fun k e he hk => ?_, fun n hn k => ?_⟩
  · rw [move_eq hfirst]
    exact h.size_status
  · rw [move_eq hfirst]
    exact (LiteralTable.size_modify _ _ _).trans h.size_watchers
  · rw [move_eq hfirst]
    exact Array.size_modify.trans h.size_watched
  · rw [← h.rows k, move_eq hfirst]
    simp only [Array.getElem?_modify]
    split
    · cases s.watched[k]? <;> simp
    · rfl
  · rw [← h.enough k]
    have htotal := hnum k fun _ => true
    omega
  · have hstatus : (s.move l i (listedAt rs i) (m, j)).status = s.status := by rw [move_eq hfirst]
    rw [hstatus]
    rw [isWatched_move hi hj ho hfirst] at hk
    split at hk
    · rename_i hki
      subst hki
      split at hk
      · rename_i hej
        rw [eq_of_mem_zipIdx he (hej ▸ hm)]
        exact ⟨htrue, halive⟩
      · split at hk
        · cases hk
        · exact h.alive k e he hk
    · exact h.alive k e he hk
  · have hcount := h.watchers n hn k
    have hmoved := hnum k fun x => decide (x = n)
    rw [count_watchers_move hfirst (h.size_watchers.symm ▸ hn)]
    by_cases hk : k = i
    · subst hk
      simp only [if_true, and_true, eq_comm (a := n)] at hmoved ⊢
      by_cases hmn : m = n
      · subst hmn
        simp only [Ne.symm hne, decide_false, decide_true, Bool.toNat_false, Bool.toNat_true,
          if_true, if_false] at hmoved ⊢
        omega
      · by_cases hln : l = n
        · subst hln
          simp only [hmn, decide_false, decide_true, Bool.toNat_false, Bool.toNat_true, if_true,
            if_false] at hmoved ⊢
          omega
        · simp only [hmn, hln, decide_false, Bool.toNat_false, if_false] at hmoved ⊢
          omega
    · simp only [hk, if_false, and_false, Nat.add_zero] at hmoved ⊢
      omega

/-- A requirement that is looking for something else than a literal watches it somewhere. -/
theorem Watching.exists_first (h : Watching isTrue rs loose s) (hl : l.code < isTrue.size)
    (hloose : loose l i ≠ 0) :
    ∃ o, (l, o) ∈ (listedAt rs i).zipIdx ∧ s.isWatched i o = true ∧
      (listedAt rs i).zipIdx.find? (fun e => decide (e.1 = l) && s.isWatched i e.2) =
        some (l, o) := by
  have hcount := h.watchers l hl i
  have hpos : 0 < s.numWatched rs i fun m => decide (m = l) := by omega
  obtain ⟨e, he, hwatched⟩ := List.countP_pos_iff.mp hpos
  have hfound : ((listedAt rs i).zipIdx.find? fun e =>
      decide (e.1 = l) && s.isWatched i e.2).isSome := by
    rw [List.find?_isSome]
    exact ⟨e, he, by rw [Bool.and_comm]; exact hwatched⟩
  obtain ⟨⟨m, o⟩, hfirst⟩ := Option.isSome_iff_exists.mp hfound
  have hmo := List.find?_some hfirst
  simp only [Bool.and_eq_true, decide_eq_true_eq] at hmo
  obtain ⟨rfl, hold⟩ := hmo
  exact ⟨o, List.mem_of_find?_eq_some hfirst, hold, hfirst⟩

end

/-- The first of those that are looking for something else found it. -/
theorem loose_found (l : Literal) (i : Nat) (is : List Nat) (stuck : Nat → Nat) :
    (fun n k => if n = l ∧ k = i then (if n = l then (i :: is).count k + stuck k else 0) - 1
      else if n = l then (i :: is).count k + stuck k else 0) =
      fun n k => if n = l then is.count k + stuck k else 0 := by
  funext n k
  by_cases hn : n = l
  · by_cases hk : k = i
    · subst hk
      simp only [hn, and_self, if_true, List.count_cons_self]
      omega
    · simp only [hn, hk, and_false, if_false, if_true, List.count_cons_of_ne (Ne.symm hk)]
  · simp only [hn, false_and, if_false]

/-- The first of those that are looking for something else is left over. -/
theorem loose_stuck (l : Literal) (i : Nat) (is : List Nat) (stuck : Nat → Nat) :
    (fun m k => if m = l then (i :: is).count k + stuck k else 0) =
      fun m k => if m = l then is.count k + (stuck k + if i = k then 1 else 0) else 0 := by
  funext m k
  rw [List.count_cons]
  simp only [beq_iff_eq]
  split <;> omega

/-- Those that watched a literal watch something else or are left over. -/
theorem release_spec {l : Literal} {is remaining : List Nat} {stuck : Nat → Nat} {s s' : State}
    (hbound : l.code < isTrue.size)
    (h : Watching isTrue rs (fun m i => if m = l then is.count i + stuck i else 0) s)
    (hrun : release isTrue rs.toArray l is s = (remaining, s')) :
    Watching isTrue rs (fun m i => if m = l then remaining.count i + stuck i else 0) s' ∧
      s'.status = s.status ∧ s'.watchers.getD l #[] = s.watchers.getD l #[] := by
  induction is generalizing s stuck remaining with
  | nil =>
    cases hrun
    exact ⟨h, rfl, rfl⟩
  | cons i is ih =>
    have hpos : (if l = l then (i :: is).count i + stuck i else 0) ≠ 0 := by
      rw [if_pos rfl, List.count_cons_self]
      omega
    obtain ⟨o, ho, hold, hfirst⟩ := h.exists_first hbound hpos
    unfold release at hrun
    split at hrun
    · rename_i ls degree hr
      have hlisted : listedAt rs i = ls := by
        rw [List.getElem?_toArray] at hr
        rw [listedAt, hr]
        rfl
      subst hlisted
      split at hrun
      · rename_i replacement hreplacement
        obtain ⟨m, j⟩ := replacement
        have hmj := List.find?_some hreplacement
        simp only [Bool.and_eq_true, decide_eq_true_eq, Bool.not_eq_true'] at hmj
        obtain ⟨⟨⟨hne, hfree⟩, htrue⟩, halive⟩ := hmj
        have hmoved := h.move ho hold hfirst (List.mem_of_find?_eq_some hreplacement) hfree htrue
          halive hne hpos
        rw [loose_found] at hmoved
        obtain ⟨hall, hstatus, hwatchers⟩ := ih hmoved hrun
        refine ⟨hall, hstatus.trans (by rw [move_eq hfirst]), hwatchers.trans ?_⟩
        rw [move_eq hfirst, LiteralTable.getD_modify, if_neg fun hm => hne hm.1]
      · rw [loose_stuck] at h
        cases hrun
        obtain ⟨hall, hkept⟩ := ih h rfl
        refine ⟨?_, hkept⟩
        rw [loose_stuck]
        exact hall
    · -- A requirement of another kind lists nothing, so it cannot watch the literal.
      rename_i hother
      rw [List.getElem?_toArray] at hother
      unfold listedAt at ho
      cases hr : rs[i]? with
      | none =>
        rw [hr] at ho
        cases ho
      | some r =>
        rw [hr] at ho
        cases r with
        | atLeast ls degree => exact (hother ls degree hr).elim
        | mandatory vs => cases ho

theorem Watching.setStatus (h : Watching isTrue rs loose s) {l : Literal} {x : Status}
    (hx : x = .dropped → ∀ i, s.numWatched rs i (fun m => decide (m = l)) = 0) :
    Watching isTrue rs loose (s.setStatus l x) := by
  obtain ⟨status, watched, watchers⟩ := s
  refine ⟨(LiteralTable.size_set _ _ _).trans h.size_status, h.size_watchers,
    h.size_watched, h.rows,
    h.enough, fun i e he hwatched => ⟨(h.alive i e he hwatched).1, ?_⟩, h.watchers⟩
  show (status.set l x).getD e.1 .candidate ≠ .dropped
  rw [LiteralTable.getD_set]
  split
  · rename_i hl
    intro hdropped
    refine absurd (hx hdropped i) (Nat.ne_of_gt (List.countP_pos_iff.mpr ⟨e, he, ?_⟩))
    have hwatched' : State.isWatched ⟨status, watched, watchers⟩ i e.2 = true := hwatched
    rw [hwatched', hl.1]
    simp
  · exact (h.alive i e he hwatched).2

theorem Watching.takeWatchers (h : Watching isTrue rs (fun _ _ => 0) s) (l : Literal) :
    Watching isTrue rs (fun m i => if m = l then (s.takeWatchers l).1.count i + 0 else 0)
      (s.takeWatchers l).2 := by
  obtain ⟨status, watched, watchers⟩ := s
  refine ⟨h.size_status, (LiteralTable.size_set _ _ _).trans h.size_watchers,
    h.size_watched, h.rows, h.enough, h.alive, fun m hm i => ?_⟩
  have hcount : (watchers.getD m #[]).toList.count i + 0 = _ := h.watchers m hm i
  refine Eq.trans ?_ hcount
  show ((watchers.set l #[]).getD m #[]).toList.count i +
    (if m = l then (watchers.getD l #[]).toList.count i + 0 else 0) = _
  have hsize : watchers.size = isTrue.size := h.size_watchers
  rw [LiteralTable.getD_set, hsize]
  by_cases hml : m = l
  · subst hml
    simp only [hm, and_self, if_true, List.count_nil]
    exact Nat.zero_add _
  · simp only [Ne.symm hml, false_and, if_false, hml]

theorem tryDrop_spec {l : Literal} {b : Bool} {s' : State} (hbound : l.code < isTrue.size)
    (h : Watching isTrue rs (fun _ _ => 0) s) (hrun : s.tryDrop isTrue rs.toArray l = (b, s')) :
    Watching isTrue rs (fun _ _ => 0) s' ∧
      s'.status = s.status.set l (if b then .mandatory else .dropped) := by
  unfold tryDrop at hrun
  rcases hrelease : release isTrue rs.toArray l (s.takeWatchers l).1 (s.takeWatchers l).2 with
    ⟨remaining, ⟨status, watched, watchers⟩⟩
  obtain ⟨hw, hstatus, hwatchers⟩ := release_spec hbound (h.takeWatchers l) hrelease
  have hempty : watchers.getD l #[] = #[] := by
    refine hwatchers.trans ?_
    show (s.watchers.set l #[]).getD l #[] = #[]
    rw [LiteralTable.getD_set, h.size_watchers, if_pos ⟨rfl, hbound⟩]
  have hsame : status = s.status := hstatus
  dsimp only at hrun
  rw [hrelease] at hrun
  cases remaining with
  | nil =>
    have hfree : Watching isTrue rs (fun _ _ => 0) ⟨status, watched, watchers⟩ := by
      have hzero : (fun (m : Literal) (i : Nat) =>
          if m = l then ([] : List Nat).count i + 0 else 0) = fun _ _ => 0 := by
        funext m i
        simp
      exact hzero ▸ hw
    cases hrun
    refine ⟨hfree.setStatus fun _ i => ?_, by rw [← hsame]; rfl⟩
    have hcount := hfree.watchers l hbound i
    dsimp only at hcount
    rw [hempty] at hcount
    exact hcount.symm
  | cons i is =>
    have hback : Watching isTrue rs (fun _ _ => 0)
        ⟨status, watched, watchers.modify l (· ++ (i :: is).toArray)⟩ := by
      refine ⟨hw.size_status, (LiteralTable.size_modify _ _ _).trans hw.size_watchers,
        hw.size_watched, hw.rows, hw.enough, hw.alive, fun m hm k => ?_⟩
      have hcount : (watchers.getD m #[]).toList.count k +
        (if m = l then (i :: is).count k + 0 else 0) = _ := hw.watchers m hm k
      refine Eq.trans ?_ hcount
      show ((watchers.modify l (· ++ (i :: is).toArray)).getD m #[]).toList.count k + 0 = _
      have hsize : watchers.size = isTrue.size := hw.size_watchers
      rw [LiteralTable.getD_modify, hsize]
      by_cases hml : m = l
      · subst hml
        simp only [hm, and_self, if_true, Array.toList_append, List.count_append]
        rfl
      · simp only [Ne.symm hml, false_and, if_false, hml]
    cases hrun
    exact ⟨hback.setStatus nofun, by rw [← hsame]; rfl⟩

/-! ### What is left -/

/-- What is watched is enough of everything that is counted. -/
theorem Watching.counts (h : Watching isTrue rs loose s) :
    Counts rs fun l => isTrue.getD l false && decide (s.status.getD l .candidate ≠ .dropped) := by
  refine counts_iff.mpr fun i => ?_
  rw [List.getElem?_toArray, List.getElem?_map, ← h.enough i, numWatched,
    ← List.zipIdx_map_fst 0 (listedAt rs i), List.countP_map, List.zipIdx_map_fst]
  refine List.countP_mono_left fun e he hwatched => ?_
  obtain ⟨htrue, halive⟩ := h.alive i e he (by simpa using hwatched)
  rw [Function.comp_apply, htrue, Bool.true_and, decide_eq_true_eq]
  exact halive

/-- What is given is never looked for. -/
theorem Watching.given (h : Watching isTrue rs (fun _ _ => 0) s) (given : List Literal) :
    Watching isTrue rs (fun _ _ => 0) (given.foldl (fun s l => s.setStatus l .mandatory) s) := by
  induction given generalizing s with
  | nil => exact h
  | cons m ms ih => exact ih (h.setStatus nofun)

end WatcherBased.State

/-! ## What the requirements are for -/

namespace Valuation

/-- The valuation that makes the literals of a model true. -/
def ofModel (model : List Literal) : Valuation := fun v => decide (Literal.make v true ∈ model)

/-- Of a variable that a model knows, the model has one literal. -/
theorem holds_ofModel {model : List Literal} (hnodup : (model.map Literal.var).Nodup) {l : Literal}
    (hl : l.var ∈ model.map Literal.var) : l.holds (ofModel model) = decide (l ∈ model) := by
  obtain ⟨m, hm, hv⟩ := List.mem_map.mp hl
  have hinj := List.inj_on_of_nodup_map hnodup
  cases hp : l.isPositive with
  | true =>
    have hmake : Literal.make l.var true = l := by rw [← hp, Literal.make_var_isPositive]
    rw [Literal.holds, ofModel, hmake, hp, beq_true]
  | false =>
    rw [Literal.holds, ofModel, hp, beq_false, Bool.eq_iff_iff, Bool.not_eq_true',
      decide_eq_false_iff_not, decide_eq_true_eq]
    constructor
    · intro hnot
      have hmp : m.isPositive = false := by
        refine Bool.eq_false_iff.mpr fun hpos => hnot ?_
        rwa [← hv, ← hpos, Literal.make_var_isPositive]
      rwa [← Literal.ext_var hv (hmp.trans hp.symm)]
    · intro hmem hpos
      have heq := hinj hmem hpos (Literal.var_make _ _).symm
      rw [heq, Literal.isPositive_make] at hp
      cases hp

theorem holds_ofModel_of_mem {model : List Literal} (hnodup : (model.map Literal.var).Nodup)
    {l : Literal} (hl : l ∈ model) : l.holds (ofModel model) = true := by
  rw [holds_ofModel hnodup (List.mem_map_of_mem hl), decide_eq_true_eq]
  exact hl

end Valuation

section

variable {κ : Type} [CustomConstraint κ] {model ls : List Literal} {ds : List (Description κ)}

/-- A model that satisfies some constraints over its variables meets their requirements. -/
theorem meetsAll_of_holds (hnodup : (model.map Literal.var).Nodup)
    (hknown : ∀ d ∈ ds, ∀ l ∈ d.literals, l.var ∈ model.map Literal.var)
    (hholds : ∀ d ∈ ds, d.Holds (Valuation.ofModel model)) :
    MeetsAll model (ds.filterMap ofDescription?) := by
  have hmandatory : ∀ d ∈ ds, isMet (fun l => decide (l ∈ model))
      (.mandatory (d.literals.map (·.var)).eraseDups) = true := by
    intro d hd
    simp only [isMet, List.all_eq_true, List.mem_eraseDups, List.mem_map, Bool.or_eq_true,
      decide_eq_true_eq]
    rintro _ ⟨l, hl, rfl⟩
    obtain ⟨m, hm, hv⟩ := List.mem_map.mp (hknown d hd l hl)
    rw [← hv]
    cases hp : m.isPositive with
    | true => exact Or.inl (by rwa [← hp, Literal.make_var_isPositive])
    | false => exact Or.inr (by rwa [← hp, Literal.make_var_isPositive])
  intro r hr
  obtain ⟨d, hd, hofd⟩ := List.mem_filterMap.mp hr
  have hcount : ∀ xs ⊆ d.literals, (Valuation.ofModel model).count xs =
      xs.countP fun l => decide (l ∈ model) := by
    intro xs hxs
    apply List.countP_congr
    intro l hl
    rw [Valuation.holds_ofModel hnodup (hknown d hd l (hxs hl))]
  have hd' := hholds d hd
  cases d with
  | clause xs =>
    simp only [ofDescription?] at hofd
    split at hofd
    · cases hofd
    · cases hofd
      obtain ⟨l, hl, hlt⟩ := hd'
      refine decide_eq_true (List.countP_pos_iff.mpr ⟨l, hl, ?_⟩)
      rw [← Valuation.holds_ofModel hnodup (hknown _ hd l hl)]
      exact hlt
  | atLeast xs degree =>
    cases hofd
    refine decide_eq_true ?_
    rw [← hcount xs (List.Subset.refl xs)]
    exact hd'
  | parity xs even =>
    cases hofd
    exact hmandatory _ hd
  | custom c =>
    cases hofd
    exact hmandatory _ hd

/-- Whatever makes a part of a model true that meets the requirements satisfies the constraints that
the model satisfies. -/
theorem Description.holds_of_meetsAll (hnodup : (model.map Literal.var).Nodup) (hsub : ls ⊆ model)
    (hm : MeetsAll ls (ds.filterMap ofDescription?)) {d : Description κ} (hd : d ∈ ds)
    (hholds : d.Holds (Valuation.ofModel model)) {ν : Valuation}
    (hν : ∀ l ∈ ls, l.holds ν = true) : d.Holds ν := by
  have hcount : ∀ {xs : List Literal}, xs.countP (fun l => decide (l ∈ ls)) ≤ ν.count xs :=
    fun {xs} => List.countP_mono_left fun l _ hl => hν l (of_decide_eq_true hl)
  have hmet : ∀ r, ofDescription? d = some r → r.isMet (fun l => decide (l ∈ ls)) = true :=
    fun r hr => hm r (List.mem_filterMap.mpr ⟨d, hd, hr⟩)
  cases d with
  | clause xs =>
    by_cases htaut : xs.any (fun l => xs.contains (-l)) = true
    · obtain ⟨l, hl, hneg⟩ := List.any_eq_true.mp htaut
      rw [List.contains_iff_mem] at hneg
      cases hlν : l.holds ν with
      | true => exact ⟨l, hl, hlν⟩
      | false => exact ⟨-l, hneg, by rw [Literal.holds_negate, hlν]; rfl⟩
    · have hpos := hmet (.atLeast xs 1) (by simp only [ofDescription?, htaut]; rfl)
      have hle : 0 < ν.count xs := Nat.lt_of_lt_of_le (of_decide_eq_true hpos) hcount
      exact List.countP_pos_iff.mp hle
  | atLeast xs degree => exact Nat.le_trans (of_decide_eq_true (hmet _ rfl)) hcount
  | parity xs even =>
    have hsame : ν.count xs = (Valuation.ofModel model).count xs := by
      apply List.countP_congr
      intro l hl
      have hkept := hmet _ rfl
      simp only [isMet, List.all_eq_true, List.mem_eraseDups, List.mem_map, Bool.or_eq_true,
        decide_eq_true_eq] at hkept
      obtain ⟨m, hm, hv⟩ : ∃ m ∈ ls, m.var = l.var := by
        rcases hkept l.var ⟨l, hl, rfl⟩ with hm | hm
        · exact ⟨_, hm, Literal.var_make _ _⟩
        · exact ⟨_, hm, Literal.var_make _ _⟩
      have hmν := hν m hm
      have hmodel := Valuation.holds_ofModel_of_mem hnodup (hsub hm)
      simp only [Literal.holds, beq_iff_eq, hv] at hmν hmodel ⊢
      rw [hmν, hmodel]
    show (ν.count xs % 2 == 0) = even
    rw [hsame]
    exact hholds
  | custom c => trivial

end

end ClauseLearning
