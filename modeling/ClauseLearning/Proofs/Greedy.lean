import ClauseLearning.Proofs.Implicants

/-!
# One way to drop literals

Every strategy goes through the literals in some order and drops each one that it can: its variable
is not mandatory, and enough is left of everything that is counted with those that were kept and
those that are still to come. The strategies differ in how they find out, by counting everything
again, by counters or by watching, but not in what they find out.

* `keepNeeded`: what is left after all literals were tried.
* `Quadratic.implicant_eq`, `CounterBased.implicant_eq`, `WatcherBased.implicantInOrder_perm`: what
  the strategies leave.
* `implicants_agree`: two of them in the order of the model, the other in the reverse order.
-/

namespace ClauseLearning

open Requirement

namespace Requirement

instance (rs : List Requirement) (p : Literal → Bool) : Decidable (Counts rs p) :=
  inferInstanceAs (Decidable (∀ r ∈ rs, CounterBased.degree r ≤ r.listed.countP p))

/-- Without the literal there is too little of something that is counted. -/
def Needs (rs : List Requirement) (p : Literal → Bool) (l : Literal) : Prop :=
  ¬ Counts rs fun m => p m && decide (m ≠ l)

end Requirement

/-- What is left of some literals when each one in turn is dropped if it can be. Those that were
kept before are still there, and so are those that were not tried yet. -/
def keepNeeded (rs : List Requirement) : List Literal → List Literal → List Literal
  | _, [] => []
  | kept, l :: ls =>
    if isMandatory (mandatoryTable rs) l.var = true ∨
        ¬ Counts rs fun m => decide (m ∈ kept ++ ls) then
      l :: keepNeeded rs (kept ++ [l]) ls
    else keepNeeded rs kept ls

theorem keepNeeded_sublist (rs : List Requirement) (kept ls : List Literal) :
    (keepNeeded rs kept ls).Sublist ls := by
  induction ls generalizing kept with
  | nil => exact .refl _
  | cons l ls ih =>
    unfold keepNeeded
    split
    · exact (ih _).cons_cons l
    · exact (ih _).cons l

/-- The literals of mandatory variables stay. -/
theorem filter_keepNeeded (rs : List Requirement) (kept ls : List Literal) :
    ((keepNeeded rs kept ls).filter fun l => isMandatory (mandatoryTable rs) l.var) =
      ls.filter fun l => isMandatory (mandatoryTable rs) l.var := by
  induction ls generalizing kept with
  | nil => rfl
  | cons l ls ih =>
    unfold keepNeeded
    split
    · rw [List.filter_cons, List.filter_cons, ih]
    · rename_i hdropped
      rw [List.filter_cons, if_neg fun h => hdropped (Or.inl h), ih]

/-- Whatever is dropped, enough is left. -/
theorem counts_keepNeeded {rs : List Requirement} {ls : List Literal} (kept : List Literal)
    (h : Counts rs fun l => decide (l ∈ kept ++ ls)) :
    Counts rs fun l => decide (l ∈ kept ++ keepNeeded rs kept ls) := by
  induction ls generalizing kept with
  | nil => exact h
  | cons l ls ih =>
    unfold keepNeeded
    split
    · have hrest := ih (kept ++ [l])
      simp only [List.append_assoc, List.singleton_append] at hrest
      exact hrest h
    · rename_i hdropped
      exact ih kept (not_not.mp fun hfew => hdropped (Or.inr hfew))

/-- In whatever order the literals of a model are tried, what is left meets the requirements. -/
theorem keepNeeded_meets {order model : List Literal} {rs : List Requirement}
    (hm : MeetsAll model rs) (horder : order.Perm model) :
    keepNeeded rs [] order ⊆ model ∧ MeetsAll (keepNeeded rs [] order) rs := by
  have hsub := (keepNeeded_sublist rs [] order).subset
  have hcounts : Counts rs fun l => decide (l ∈ [] ++ order) := by
    simpa only [List.nil_append, horder.mem_iff] using hm.counts
  refine ⟨fun l hl => horder.subset (hsub hl), hm.of_counts (fun l hl hmandatory => ?_)
    (counts_keepNeeded [] hcounts)⟩
  have hkept : l ∈ (keepNeeded rs [] order).filter fun l =>
      isMandatory (mandatoryTable rs) l.var := by
    rw [filter_keepNeeded]
    exact List.mem_filter.mpr ⟨horder.symm.subset hl, hmandatory⟩
  exact (List.mem_filter.mp hkept).1

/-! ## Repeated checks -/

theorem Requirement.size_truthTable_concat (model : List Literal) (l : Literal) :
    (truthTable (model ++ [l])).size = max (truthTable model).size (2 * (l.var + 1)) := by
  simp only [truthTable, List.foldl_append, List.foldl_cons, List.foldl_nil, LiteralTable.size_set,
    LiteralTable.size_grow]

theorem Requirement.size_truthTable_of_var {model : List Literal} {l : Literal}
    (h : l.var ∈ model.map Literal.var) : l.code < (truthTable model).size := by
  obtain ⟨m, hm, hv⟩ := List.mem_map.mp h
  have hroom : 2 * (m.var + 1) ≤ (truthTable model).size := by
    clear h
    induction model using List.reverseRecOn with
    | nil => cases hm
    | append_singleton ms k ih =>
      rw [size_truthTable_concat]
      rcases List.mem_append.mp hm with hm | hm
      · exact Nat.le_trans (ih hm) (Nat.le_max_left _ _)
      · rw [List.mem_singleton.mp hm]
        exact Nat.le_max_right _ _
  rw [hv, Literal.var] at hroom
  omega

namespace Quadratic

theorem countTrue_eq {table : LiteralTable Bool} {ls : List Literal} {n : Nat}
    (h : countTrue table ls = .ok n) : n = ls.countP fun l => table.getD l false := by
  induction ls generalizing n with
  | nil =>
    cases h
    rfl
  | cons l ls ih =>
    unfold countTrue at h
    split at h
    · cases h
    · rename_i b hb
      obtain ⟨m, hm, h⟩ := ok_of_bind h
      cases h
      have hl : table.getD l false = b := by simp only [LiteralTable.getD, hb, Option.getD_some]
      rw [List.countP_cons, ← ih hm, hl]
      cases b <;> rfl

theorem meetsAll_eq {table : LiteralTable Bool} {rs : List Requirement} {met : Bool}
    (h : meetsAll table rs = .ok met) : met = decide (Counts rs fun l => table.getD l false) := by
  induction rs with
  | nil =>
    cases h
    rfl
  | cons r rs ih =>
    simp only [counts_cons]
    cases r with
    | mandatory vs =>
      rw [ih h]
      simp [CounterBased.degree]
    | atLeast ls degree =>
      obtain ⟨n, hn, h⟩ := ok_of_bind h
      rw [countTrue_eq hn] at h
      split at h
      · rename_i hle
        rw [ih h]
        simp [CounterBased.degree, listed, hle]
      · rename_i hlt
        cases h
        simp [CounterBased.degree, listed, hlt]

/-- What is not in the list stays as it is, and of the list that is left which cannot be dropped. -/
theorem dropEach_eq {rs : List Requirement} {ls : List Literal} (kept : List Literal)
    {table table' : LiteralTable Bool} (hnodup : (kept ++ ls).Nodup)
    (htable : ∀ m, table.getD m false = decide (m ∈ kept ++ ls))
    (h : dropEach (mandatoryTable rs) rs ls table = .ok table') :
    (∀ m, m ∉ ls → table'.getD m false = table.getD m false) ∧
      (ls.filter fun l => table'.getD l false) = keepNeeded rs kept ls := by
  induction ls generalizing kept table with
  | nil =>
    cases h
    exact ⟨fun _ _ => rfl, rfl⟩
  | cons l ls ih =>
    obtain ⟨hl, hnodup'⟩ := List.nodup_cons.mp (List.nodup_middle.mp hnodup)
    have hltrue : table.getD l false = true := by simp [htable]
    have hsize := LiteralTable.lt_size_of_getD hltrue
    have hlls : l ∉ ls := fun h => hl (List.mem_append_right _ h)
    have hdropped : ∀ m, (table.set l false).getD m false = decide (m ∈ kept ++ ls) := by
      intro m
      rw [LiteralTable.getD_set]
      by_cases hml : l = m
      · rw [if_pos ⟨hml, hsize⟩, ← hml, decide_eq_false hl]
      · rw [if_neg fun h => hml h.1, htable]
        simp [Ne.symm hml]
    have hput : ∀ m, ((table.set l false).set l true).getD m false = table.getD m false := by
      intro m
      rw [LiteralTable.getD_set, LiteralTable.size_set]
      by_cases hml : l = m
      · rw [if_pos ⟨hml, hsize⟩, ← hml, hltrue]
      · rw [if_neg fun h => hml h.1, LiteralTable.getD_set, if_neg fun h => hml h.1]
    -- The literal stays if it is in the table with which the others are tried.
    have hkeep : ∀ t : LiteralTable Bool, (∀ m, t.getD m false = table.getD m false) →
        dropEach (mandatoryTable rs) rs ls t = .ok table' →
        (∀ m, m ∉ l :: ls → table'.getD m false = table.getD m false) ∧
          ((l :: ls).filter fun l => table'.getD l false) =
            l :: keepNeeded rs (kept ++ [l]) ls := by
      intro t ht hrun
      obtain ⟨hframe, hfilter⟩ := ih (kept ++ [l]) (by simpa using hnodup)
        (fun m => by rw [ht, htable, List.append_assoc, List.singleton_append]) hrun
      refine ⟨fun m hm => ?_, ?_⟩
      · rw [hframe m fun h => hm (List.mem_cons_of_mem l h), ht]
      · rw [List.filter_cons_of_pos (by rw [hframe l hlls, ht, hltrue]), hfilter]
    unfold dropEach at h
    unfold keepNeeded
    split at h
    · rename_i hmandatory
      rw [if_pos (Or.inl hmandatory)]
      exact hkeep table (fun _ => rfl) h
    · rename_i hfree
      obtain ⟨met, hmet, h⟩ := ok_of_bind h
      have hcounts := meetsAll_eq hmet
      simp only [hdropped] at hcounts
      cases met with
      | true =>
        rw [if_neg (not_or.mpr ⟨hfree, not_not.mpr (of_decide_eq_true hcounts.symm)⟩)]
        obtain ⟨hframe, hfilter⟩ := ih kept hnodup' hdropped h
        refine ⟨fun m hm => ?_, ?_⟩
        · rw [hframe m fun h => hm (List.mem_cons_of_mem l h), LiteralTable.getD_set,
            if_neg fun h => hm (List.mem_cons.mpr (Or.inl h.1.symm))]
        · rw [List.filter_cons_of_neg (by rw [hframe l hlls, hdropped]; simpa using hl), hfilter]
      | false =>
        rw [if_pos (Or.inr (of_decide_eq_false hcounts.symm))]
        exact hkeep _ hput h

theorem implicant_eq_of_ok {model ls : List Literal} {rs : List Requirement} (hnodup : model.Nodup)
    (h : implicant model rs = .ok ls) : ls = keepNeeded rs [] model := by
  obtain ⟨table, hrun, h⟩ := ok_of_bind h
  cases h
  refine (dropEach_eq [] hnodup (fun m => ?_) hrun).2
  rw [Bool.eq_iff_iff, getD_truthTable, decide_eq_true_eq]
  rfl

theorem countTrue_total {table : LiteralTable Bool} {ls : List Literal}
    (h : ∀ l ∈ ls, l.code < table.size) : ∃ n, countTrue table ls = .ok n := by
  induction ls with
  | nil => exact ⟨0, rfl⟩
  | cons l ls ih =>
    obtain ⟨hl, hls⟩ := List.forall_mem_cons.mp h
    obtain ⟨n, hn⟩ := ih hls
    have hget : table.get? l = some table.entries[l.code] := Array.getElem?_eq_getElem hl
    simp only [countTrue, hget, hn]
    exact ⟨_, rfl⟩

theorem meetsAll_total {table : LiteralTable Bool} {rs : List Requirement}
    (h : ∀ r ∈ rs, ∀ l ∈ r.listed, l.code < table.size) : ∃ b, meetsAll table rs = .ok b := by
  induction rs with
  | nil => exact ⟨true, rfl⟩
  | cons r rs ih =>
    obtain ⟨hr, hrs⟩ := List.forall_mem_cons.mp h
    cases r with
    | mandatory vs => exact ih hrs
    | atLeast ls degree =>
      refine exists_ok_bind (countTrue_total hr) fun n _ => ?_
      split
      · exact ih hrs
      · exact ⟨false, rfl⟩

theorem dropEach_total {rs : List Requirement} {table : LiteralTable Bool} (mandatory : Array Bool)
    (ls : List Literal) (h : ∀ r ∈ rs, ∀ l ∈ r.listed, l.code < table.size) :
    ∃ table', dropEach mandatory rs ls table = .ok table' := by
  induction ls generalizing table with
  | nil => exact ⟨table, rfl⟩
  | cons l ls ih =>
    have hdropped : ∀ r ∈ rs, ∀ m ∈ r.listed, m.code < (table.set l false).size := by
      simpa only [LiteralTable.size_set] using h
    have hback : ∀ r ∈ rs, ∀ m ∈ r.listed, m.code < ((table.set l false).set l true).size := by
      simpa only [LiteralTable.size_set] using h
    unfold dropEach
    split
    · exact ih h
    · refine exists_ok_bind (meetsAll_total hdropped) fun met _ => ?_
      cases met with
      | true => exact ih hdropped
      | false => exact ih hback

theorem implicant_eq {model : List Literal} {rs : List Requirement} (hnodup : model.Nodup)
    (hknown : ∀ r ∈ rs, ∀ l ∈ r.listed, l.var ∈ model.map Literal.var) :
    implicant model rs = .ok (keepNeeded rs [] model) := by
  obtain ⟨table, hrun⟩ : ∃ table,
      dropEach (mandatoryTable rs) rs model (truthTable model) = .ok table :=
    dropEach_total _ model fun r hr l hl => size_truthTable_of_var (hknown r hr l hl)
  have himplicant : implicant model rs = .ok (model.filter fun l => table.getD l false) := by
    simp only [implicant, hrun]
    rfl
  rw [himplicant, implicant_eq_of_ok hnodup himplicant]

end Quadratic

/-! ## Counting -/

namespace CounterBased

theorem keep_eq {rs : List Requirement} {occurrences : LiteralTable (List Nat)} {ls : List Literal}
    (kept : List Literal) (counts : Array Nat)
    (hoccur : ∀ l ∈ ls, ∀ i : Nat, (occurrences.getD l []).count i = (listedAt rs i).count l)
    (hnodup : (kept ++ ls).Nodup)
    (hcounts : ∀ i : Nat,
      counts[i]?.getD 0 = (listedAt rs i).countP fun l => decide (l ∈ kept ++ ls))
    (henough : Counts rs fun l => decide (l ∈ kept ++ ls)) :
    keep (mandatoryTable rs) (rs.map degree).toArray occurrences ls counts =
      keepNeeded rs kept ls := by
  induction ls generalizing kept counts with
  | nil => rfl
  | cons l ls ih =>
    obtain ⟨hl, hrest⟩ := List.forall_mem_cons.mp hoccur
    have hkept := ih (kept ++ [l]) counts hrest
    simp only [List.append_assoc, List.singleton_append] at hkept
    have hkept := hkept hnodup hcounts henough
    have hlowered := getD_lower_of_nodup hl hnodup hcounts
    have hnodup' := (List.nodup_cons.mp (List.nodup_middle.mp hnodup)).2
    -- A requirement in which the literal does not occur has as much as before.
    have hlow : ((occurrences.getD l []).any fun i => decide
        ((lower (occurrences.getD l []) counts)[i]?.getD 0 < (rs.map degree).toArray[i]?.getD 0)) =
          true ↔ ¬ Counts rs fun m => decide (m ∈ kept ++ ls) := by
      rw [List.any_eq_true, counts_iff, not_forall]
      simp only [decide_eq_true_eq, ← hlowered, Nat.not_le]
      refine ⟨fun ⟨i, _, hi⟩ => ⟨i, hi⟩, fun ⟨i, hi⟩ => ⟨i, ?_, hi⟩⟩
      by_contra hnone
      rw [getD_lower, List.count_eq_zero_of_not_mem hnone, hcounts] at hi
      exact Nat.not_le_of_lt hi (counts_iff.mp henough i)
    simp only [keep, keepNeeded, hlow, hkept]
    by_cases hmandatory : isMandatory (mandatoryTable rs) l.var = true
    · rw [if_pos hmandatory, if_pos (Or.inl hmandatory)]
    · rw [if_neg hmandatory]
      by_cases hcount : Counts rs fun m => decide (m ∈ kept ++ ls)
      · rw [if_neg (by tauto), if_neg (by tauto)]
        exact ih kept _ hrest hnodup' hlowered hcount
      · rw [if_pos hcount, if_pos (Or.inr hcount)]

/-- What is counted for a model. -/
theorem ofRequirements_model (model : List Literal) (rs : List Requirement) :
    (∀ l ∈ model, ∀ i : Nat,
      ((Counters.ofRequirements (truthTable model) rs).occurrences.getD l []).count i =
        (listedAt rs i).count l) ∧
      ∀ i : Nat, (Counters.ofRequirements (truthTable model) rs).counts[i]?.getD 0 =
        (listedAt rs i).countP fun l => decide (l ∈ model) := by
  obtain ⟨-, -, hcount, hoccur⟩ := ofRequirements_spec (truthTable model) rs
  refine ⟨fun l hl i => ?_, fun i => ?_⟩
  · rw [hoccur l (size_truthTable hl), List.count_filter]
    exact (getD_truthTable model l).mpr hl
  · rw [hcount]
    refine List.countP_congr fun l _ => ?_
    rw [getD_truthTable, decide_eq_true_eq]

theorem implicant_eq {model : List Literal} {rs : List Requirement} (hm : MeetsAll model rs)
    (hnodup : model.Nodup) : implicant model rs = keepNeeded rs [] model := by
  obtain ⟨hoccur, hcount⟩ := ofRequirements_model model rs
  exact keep_eq [] _ hoccur hnodup hcount hm.counts

end CounterBased

/-! ## Watching -/

namespace WatcherBased.State

variable {isTrue : LiteralTable Bool} {rs : List Requirement} {s : State}

/-- All that the requirement with number `i` could watch in place of `l` it watches already. -/
def Stuck (isTrue : LiteralTable Bool) (rs : List Requirement) (l : Literal) (s : State) (i : Nat) :
    Prop :=
  ∀ e ∈ (listedAt rs i).zipIdx, e.1 ≠ l → isTrue.getD e.1 false = true →
    s.status.getD e.1 .candidate ≠ .dropped → s.isWatched i e.2 = true

theorem replacement?_eq_none_iff {l : Literal} {i : Nat} :
    s.replacement? isTrue l i (listedAt rs i) = none ↔ Stuck isTrue rs l s i := by
  simp only [replacement?, List.find?_eq_none, Stuck]
  refine forall₂_congr fun e _ => ?_
  simp only [Bool.and_eq_true, decide_eq_true_eq, Bool.not_eq_true']
  cases s.isWatched i e.2 with
  | true => simp
  | false =>
    simp only [and_true, Bool.false_eq_true]
    tauto

/-- A requirement that is stuck stays so while others look for something else. -/
theorem release_stuck {l : Literal} {is remaining : List Nat} {s s' : State}
    (hrun : release isTrue rs.toArray l is s = (remaining, s')) :
    (∀ i, Stuck isTrue rs l s i → Stuck isTrue rs l s' i) ∧
      ∀ i ∈ remaining, Stuck isTrue rs l s' i := by
  induction is generalizing remaining s with
  | nil =>
    cases hrun
    exact ⟨fun _ h => h, nofun⟩
  | cons i is ih =>
    unfold release at hrun
    split at hrun
    · rename_i ls degree hr
      have hlisted : listedAt rs i = ls := by
        rw [List.getElem?_toArray] at hr
        rw [listedAt, hr]
        rfl
      subst hlisted
      split at hrun
      · rename_i replacement hreplacement
        obtain ⟨hkeeps, hall⟩ := ih hrun
        refine ⟨fun k hk => hkeeps k ?_, hall⟩
        have hne : i ≠ k := by
          rintro rfl
          rw [replacement?_eq_none_iff.mpr hk] at hreplacement
          cases hreplacement
        obtain ⟨status, watched, watchers⟩ := s
        intro e he hel htrue halive
        have hsame := hk e he hel htrue halive
        simp only [isWatched, State.move, Array.getElem?_modify, if_neg hne] at hsame ⊢
        exact hsame
      · rename_i hnone
        cases hrun
        obtain ⟨hkeeps, hall⟩ := ih rfl
        exact ⟨hkeeps, List.forall_mem_cons.mpr
          ⟨hkeeps i (replacement?_eq_none_iff.mp hnone), hall⟩⟩
    · exact ih hrun

/-- Those that watch a literal and those that do not are all that are watched. -/
theorem numWatched_add (s : State) (rs : List Requirement) (i : Nat) (l : Literal) :
    s.numWatched rs i (fun m => decide (m = l)) + s.numWatched rs i (fun m => decide (m ≠ l)) =
      s.numWatched rs i fun _ => true := by
  simp only [numWatched]
  induction (listedAt rs i).zipIdx with
  | nil => rfl
  | cons e es ih =>
    simp only [List.countP_cons]
    rw [← ih]
    cases s.isWatched i e.2 <;> by_cases hel : e.1 = l <;> simp [hel] <;> omega

/-- A requirement that is stuck and watches a literal needs it. -/
theorem Watching.needs {l : Literal} {i : Nat} (h : Watching isTrue rs (fun _ _ => 0) s)
    (hstuck : Stuck isTrue rs l s i) (hwatches : 0 < s.numWatched rs i fun m => decide (m = l)) :
    Needs rs
      (fun m => isTrue.getD m false && decide (s.status.getD m .candidate ≠ .dropped)) l := by
  intro hcounts
  have henough := counts_iff.mp hcounts i
  have hdegree := h.enough i
  rw [List.getElem?_toArray, List.getElem?_map, ← hdegree] at henough
  dsimp only at henough
  have hothers : ((listedAt rs i).countP fun m => (isTrue.getD m false &&
      decide (s.status.getD m .candidate ≠ .dropped)) && decide (m ≠ l)) ≤
      s.numWatched rs i fun m => decide (m ≠ l) := by
    conv_lhs => rw [← List.zipIdx_map_fst 0 (listedAt rs i), List.countP_map]
    refine List.countP_mono_left fun e he hopen => ?_
    simp only [Function.comp_apply, Bool.and_eq_true, decide_eq_true_eq] at hopen ⊢
    exact ⟨hstuck e he hopen.2 hopen.1.1 hopen.1.2, hopen.2⟩
  have hsum := s.numWatched_add rs i l
  omega

/-- A literal turns out to be mandatory because it is needed. -/
theorem needs_of_tryDrop {l : Literal} {s' : State} (hbound : l.code < isTrue.size)
    (h : Watching isTrue rs (fun _ _ => 0) s) (hrun : s.tryDrop isTrue rs.toArray l = (true, s')) :
    Needs rs
      (fun m => isTrue.getD m false && decide (s'.status.getD m .candidate ≠ .dropped)) l := by
  obtain ⟨h', -⟩ := tryDrop_spec hbound h hrun
  unfold tryDrop at hrun
  rcases hrelease : release isTrue rs.toArray l (s.takeWatchers l).1 (s.takeWatchers l).2 with
    ⟨remaining, ⟨status, watched, watchers⟩⟩
  obtain ⟨-, hstuck⟩ := release_stuck hrelease
  have hsize : watchers.size = isTrue.size :=
    (release_spec hbound (h.takeWatchers l) hrelease).1.size_watchers
  dsimp only at hrun
  rw [hrelease] at hrun
  cases remaining with
  | nil => cases hrun
  | cons i is =>
    cases hrun
    refine h'.needs (i := i) (fun e he hel htrue halive => ?_) ?_
    · refine hstuck i List.mem_cons_self e he hel htrue ?_
      rwa [LiteralTable.getD_set, if_neg fun heq => hel heq.1.symm] at halive
    · rw [← h'.watchers l hbound i, LiteralTable.getD_modify, if_pos ⟨rfl, hsize ▸ hbound⟩,
        Array.toList_append, List.count_append, List.count_cons_self]
      omega

theorem tryAll_eq {order : List Literal} (kept : List Literal)
    (h : Watching isTrue rs (fun _ _ => 0) s) (hnodup : (kept ++ order).Nodup)
    (hopen : ∀ m, (isTrue.getD m false && decide (s.status.getD m .candidate ≠ .dropped)) =
      decide (m ∈ kept ++ order))
    (hstatus : ∀ l ∈ order, s.status.getD l .candidate = .mandatory ↔
      isMandatory (mandatoryTable rs) l.var = true) :
    tryAll isTrue rs.toArray order s =
      (keepNeeded rs kept order).filter fun l => !isMandatory (mandatoryTable rs) l.var := by
  induction order generalizing s kept with
  | nil => rfl
  | cons l ls ih =>
    obtain ⟨hl, hnodup'⟩ := List.nodup_cons.mp (List.nodup_middle.mp hnodup)
    have hassoc : kept ++ [l] ++ ls = kept ++ l :: ls := by simp
    obtain ⟨hlstatus, hstatus'⟩ := List.forall_mem_cons.mp hstatus
    have hlopen : isTrue.getD l false = true ∧ s.status.getD l .candidate ≠ .dropped := by
      simpa using hopen l
    have hbound := LiteralTable.lt_size_of_getD hlopen.1
    by_cases hmandatory : isMandatory (mandatoryTable rs) l.var = true
    · rw [tryAll, if_pos (hlstatus.mpr hmandatory), keepNeeded, if_pos (Or.inl hmandatory),
        List.filter_cons_of_neg (by simp [hmandatory])]
      exact ih (kept ++ [l]) h (hassoc ▸ hnodup) (by rwa [hassoc]) hstatus'
    · rw [tryAll, if_neg (mt hlstatus.mp hmandatory), keepNeeded]
      rcases hdrop : s.tryDrop isTrue rs.toArray l with ⟨b, s'⟩
      obtain ⟨h', hs'⟩ := tryDrop_spec hbound h hdrop
      have hread : ∀ m, s'.status.getD m .candidate =
          if l = m then (if b then .mandatory else .dropped) else s.status.getD m .candidate := by
        intro m
        simp only [hs', LiteralTable.getD_set, h.size_status, hbound, and_true]
      have hothers : ∀ m ∈ ls, s'.status.getD m .candidate = .mandatory ↔
          isMandatory (mandatoryTable rs) m.var = true := by
        intro m hm
        have hne : l ≠ m := fun heq => hl (List.mem_append_right _ (heq ▸ hm))
        rw [hread, if_neg hne]
        exact hstatus' m hm
      cases b with
      | true =>
        have hopen' : ∀ m, (isTrue.getD m false && decide
            (s'.status.getD m .candidate ≠ .dropped)) =
            decide (m ∈ kept ++ l :: ls) := by
          intro m
          rw [← hopen, hread]
          by_cases hlm : l = m
          · subst hlm
            simp [hlopen]
          · rw [if_neg hlm]
        have hneeds := needs_of_tryDrop hbound h hdrop
        have hfew : ¬ Counts rs fun m => decide (m ∈ kept ++ ls) := by
          refine fun hcounts => hneeds (hcounts.mono fun m hm => ?_)
          have hne : m ≠ l := fun heq => hl (heq ▸ of_decide_eq_true hm)
          simp only [hopen', decide_eq_true_eq, List.mem_append, List.mem_cons,
            Bool.and_eq_true] at hm ⊢
          tauto
        rw [if_pos (Or.inr hfew), List.filter_cons_of_pos (by simpa using hmandatory)]
        exact congrArg (l :: ·) (ih (kept ++ [l]) h' (hassoc ▸ hnodup) (by rwa [hassoc]) hothers)
      | false =>
        have hopen' : ∀ m, (isTrue.getD m false && decide
            (s'.status.getD m .candidate ≠ .dropped)) =
            decide (m ∈ kept ++ ls) := by
          intro m
          by_cases hlm : l = m
          · subst hlm
            simp [hread, hl]
          · rw [hread, if_neg hlm, hopen]
            simp [Ne.symm hlm]
        have hcounts : Counts rs fun m => decide (m ∈ kept ++ ls) := by
          have hcounts := h'.counts
          simpa only [hopen'] using hcounts
        rw [if_neg (by tauto)]
        exact ih kept h' hnodup' hopen' hothers

theorem getD_status_given (given : List Literal) (s : State) (l : Literal) :
    (given.foldl (fun s l => s.setStatus l .mandatory) s).status.getD l .candidate =
      if l ∈ given ∧ l.code < s.status.size then .mandatory else s.status.getD l .candidate := by
  induction given generalizing s with
  | nil => simp
  | cons m ms ih =>
    have hset : (s.setStatus m .mandatory).status = s.status.set m .mandatory := by
      obtain ⟨status, watched, watchers⟩ := s
      rfl
    rw [List.foldl_cons, ih, hset, LiteralTable.size_set, LiteralTable.getD_set]
    by_cases hml : m = l
    · subst hml
      by_cases hlt : m.code < s.status.size <;> simp [hlt]
    · simp [hml, Ne.symm hml]

end WatcherBased.State

namespace WatcherBased

/-- Apart from the order it does not matter that the literals of mandatory variables come first. -/
theorem implicantInOrder_perm {order model : List Literal} {rs : List Requirement}
    (hm : MeetsAll model rs) (hnodup : model.Nodup) (horder : order.Perm model) :
    (implicantInOrder order model rs).Perm (keepNeeded rs [] order) := by
  have hcounts : Counts rs fun l => (truthTable model).getD l false :=
    hm.counts.mono fun l hl => (getD_truthTable model l).mpr (of_decide_eq_true hl)
  obtain ⟨hw, hstatus⟩ := State.watching_ofRequirements hcounts
  obtain ⟨given, hgiven⟩ :
      ∃ given, (model.filter fun l => isMandatory (mandatoryTable rs) l.var) = given := ⟨_, rfl⟩
  have hread : ∀ l ∈ model, (given.foldl (fun s l => s.setStatus l .mandatory)
      (State.ofRequirements (truthTable model) rs)).status.getD l .candidate =
        if isMandatory (mandatoryTable rs) l.var = true then .mandatory else .candidate := by
    intro l hl
    rw [State.getD_status_given, hw.size_status, hstatus, LiteralTable.getD_grow, ← hgiven]
    simp only [List.mem_filter, hl, size_truthTable hl, and_true, true_and]
    rfl
  have hopen : ∀ m, ((truthTable model).getD m false && decide ((given.foldl (fun s l =>
      s.setStatus l .mandatory) (State.ofRequirements (truthTable model) rs)).status.getD m
        .candidate ≠ .dropped)) = decide (m ∈ [] ++ order) := by
    intro m
    rw [List.nil_append, Bool.eq_iff_iff, Bool.and_eq_true, getD_truthTable, decide_eq_true_eq,
      decide_eq_true_eq, horder.mem_iff, and_iff_left_iff_imp]
    intro hm
    rw [hread m hm]
    split <;> exact nofun
  have htried := State.tryAll_eq [] (hw.given given) (horder.nodup_iff.mpr hnodup)
    hopen fun l hl => by
      rw [hread l (horder.subset hl)]
      split <;> simp [*]
  have hresult : implicantInOrder order model rs =
      (model.filter fun l => isMandatory (mandatoryTable rs) l.var) ++
        (keepNeeded rs [] order).filter fun l => !isMandatory (mandatoryTable rs) l.var := by
    rw [← htried, ← hgiven]
    rfl
  have hgivenPerm := horder.symm.filter fun l => isMandatory (mandatoryTable rs) l.var
  rw [← filter_keepNeeded rs [] order] at hgivenPerm
  rw [hresult]
  exact (hgivenPerm.append_right _).trans (List.filter_append_perm _ _)

end WatcherBased

/-! ## Every strategy -/

/-- Whatever the strategy, what is left of a model is a part of it that meets the requirements. -/
theorem primeImplicant_spec {strategy : ImplicantStrategy} {model ls : List Literal}
    {rs : List Requirement} (hm : MeetsAll model rs) (hnodup : model.Nodup)
    (h : primeImplicant strategy model rs = .ok ls) : ls ⊆ model ∧ MeetsAll ls rs := by
  cases strategy with
  | quadratic =>
    rw [Quadratic.implicant_eq_of_ok hnodup h]
    exact keepNeeded_meets hm (.refl model)
  | counterBased =>
    cases h
    rw [CounterBased.implicant_eq hm hnodup]
    exact keepNeeded_meets hm (.refl model)
  | watcherBased =>
    cases h
    have hperm := WatcherBased.implicantInOrder_perm hm hnodup model.reverse_perm
    obtain ⟨hsub, hmeets⟩ := keepNeeded_meets hm model.reverse_perm
    have hmem : ∀ l, l ∈ WatcherBased.implicant model rs ↔ l ∈ keepNeeded rs [] model.reverse :=
      fun _ => hperm.mem_iff
    exact ⟨fun l hl => hsub ((hmem l).mp hl), by simpa only [MeetsAll, hmem] using hmeets⟩

/-- For requirements over its variables that a model meets, counting and checking again leave the
same list, and watching leaves the literals that checking again leaves of the reversed model. -/
theorem implicants_agree {model : List Literal} {rs : List Requirement} (hm : MeetsAll model rs)
    (hvars : (model.map Literal.var).Nodup)
    (hknown : ∀ r ∈ rs, ∀ l ∈ r.listed, l.var ∈ model.map Literal.var) :
    Quadratic.implicant model rs = .ok (CounterBased.implicant model rs) ∧
      ∃ ls, Quadratic.implicant model.reverse rs = .ok ls ∧
        (WatcherBased.implicant model rs).Perm ls := by
  have hnodup : model.Nodup := hvars.of_map _
  refine ⟨?_, keepNeeded rs [] model.reverse, ?_, ?_⟩
  · rw [CounterBased.implicant_eq hm hnodup]
    exact Quadratic.implicant_eq hnodup hknown
  · refine Quadratic.implicant_eq (List.nodup_reverse.mpr hnodup) fun r hr l hl => ?_
    rw [List.map_reverse, List.mem_reverse]
    exact hknown r hr l hl
  · exact WatcherBased.implicantInOrder_perm hm hnodup model.reverse_perm

def fourLiterals : List Literal := [.make 1 true, .make 2 true, .make 3 false, .make 4 true]

/-- One literal is listed twice, one is not needed, and one is of a mandatory variable. -/
def threeRequirements : List Requirement :=
  [.atLeast [.make 1 true, .make 1 true, .make 2 true] 1,
    .atLeast [.make 2 true, .make 3 false, .make 4 true] 1, .mandatory [4]]

/-- The order decides whether the first or the second literal is kept. -/
theorem implicants_agree_of_three :
    Quadratic.implicant fourLiterals threeRequirements = .ok [.make 2 true, .make 4 true] ∧
      ∃ ls, Quadratic.implicant fourLiterals.reverse threeRequirements = .ok ls ∧
        ls.Perm [.make 1 true, .make 4 true] := by
  have hmeets : MeetsAll fourLiterals threeRequirements := by unfold MeetsAll; decide
  obtain ⟨hsame, ls, hls, hperm⟩ := implicants_agree hmeets (by decide) (by decide)
  have hcounted : CounterBased.implicant fourLiterals threeRequirements =
      [.make 2 true, .make 4 true] := by decide
  have hwatched : WatcherBased.implicant fourLiterals threeRequirements =
      [.make 4 true, .make 1 true] := by decide
  rw [hcounted] at hsame
  rw [hwatched] at hperm
  exact ⟨hsame, ls, hls, hperm.symm.trans (List.Perm.swap _ _ _)⟩

end ClauseLearning
