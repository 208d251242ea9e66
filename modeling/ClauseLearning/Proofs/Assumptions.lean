import ClauseLearning.Conflict.Core
import ClauseLearning.Proofs.Antecedents

/-!
# Assumptions and who is to blame

The first levels belong to the assumptions: a literal that was decided there is one of them, and the
assumption of a level is true once the level is open (`Assignment.Honours`).

A false assumption is explained by what its value rests on: the decisions that a walk along
antecedents reaches from it. The sweep over the trail finds these and no others, in one pass,
because antecedents are further down: when it comes to a literal, everything that could mark it was
passed.

* `Honours.backtrack`, `Honours.openLevel`: levels come and go.
* `Tracing`: what the marks and the core mean in the midst of the sweep.
* `unsatCore_finds`: the core of a false assumption, newest decision first.
* `unsatCore_spec`: the constraints contradict the literals of a core.
-/

namespace ClauseLearning

variable {κ : Type}

/-! ## The levels of the assumptions -/

namespace Assignment

/-- Levels begin with their decisions. The decisions on the levels of the assumptions are
assumptions, and on every such level that is open the assumption is true. -/
structure Honours (assumptions : List Literal) (a : Assignment) : Prop where
  driven : a.Driven
  chosen : ∀ {i l}, a.trues[i]? = some l → a.reason? l.var = none → a.levelAt i ≠ 0 →
    a.levelAt i ≤ assumptions.length → l ∈ assumptions
  made : ∀ {k l}, k < a.decisionLevel → assumptions[k]? = some l →
    ∃ i : Nat, a.trues[i]? = some l ∧ a.levelAt i ≤ k + 1

namespace Honours

variable {assumptions : List Literal} {a b : Assignment}

/-- Nothing was assumed at the root. -/
theorem of_root (h : a.decisionLevel = 0) : a.Honours assumptions := by
  refine ⟨fun {i _} _ _ => Or.inl ?_, fun {i _} _ _ hne _ => ?_, fun hk => ?_⟩
  · have hle := a.levelAt_le i
    omega
  · have hle := a.levelAt_le i
    omega
  · omega

/-- More literals may become true with a reason. -/
theorem extend (h : a.Honours assumptions) (ha : a.Consistent) (he : a.Extension b)
    (hnew : ∀ {i l}, a.trues.length ≤ i → b.trues[i]? = some l →
      ∃ r, b.reason? l.var = some r) : b.Honours assumptions := by
  have hold : ∀ {i : Nat} {l : Literal}, b.trues[i]? = some l → b.reason? l.var = none →
      a.trues[i]? = some l ∧ a.reason? l.var = none := by
    intro i l hl hr
    by_cases hi : i < a.trues.length
    · rw [he.getElem? hi] at hl
      rw [he.reason?_eq ha (List.mem_of_getElem? hl)] at hr
      exact ⟨hl, hr⟩
    · obtain ⟨r, hreason⟩ := hnew (Nat.le_of_not_lt hi) hl
      rw [hreason] at hr
      cases hr
  refine ⟨fun {i l} hl hr => ?_, fun {i l} hl hr hne hle => ?_, fun {k l} hk hl => ?_⟩
  · obtain ⟨hl, hr⟩ := hold hl hr
    rw [he.levelAt_eq, he.starts]
    exact h.driven hl hr
  · obtain ⟨hl, hr⟩ := hold hl hr
    rw [he.levelAt_eq] at hne hle
    exact h.chosen hl hr hne hle
  · have hk' : k < a.decisionLevel := by
      have hstarts : b.decisionLevel = a.decisionLevel := congrArg Array.size he.starts
      omega
    obtain ⟨i, hi, hlevel⟩ := h.made hk' hl
    refine ⟨i, ?_, ?_⟩
    · rw [he.getElem? (List.getElem?_eq_some_iff.mp hi).1, hi]
    · rw [he.levelAt_eq]
      exact hlevel

/-- A level is opened, and what becomes true there without a reason is the next assumption or above
all of them. -/
theorem openLevel (h : a.Honours assumptions) (ha : a.Consistent) (hl : a.Layered)
    (he : a.openLevel.Extension b)
    (hnew : ∀ {i l}, a.trues.length ≤ i → b.trues[i]? = some l →
      i = a.trues.length ∧ (a.decisionLevel < assumptions.length → l ∈ assumptions))
    (hmade : ∀ l, assumptions[a.decisionLevel]? = some l → l ∈ b.trues) :
    b.Honours assumptions := by
  have hstarts : b.levelStarts.toList = a.levelStarts.toList ++ [a.trues.length] := by
    rw [he.starts, levelStarts_openLevel]
  have hsize : b.decisionLevel = a.decisionLevel + 1 := by
    have := congrArg List.length hstarts
    rw [List.length_append, Array.length_toList, Array.length_toList] at this
    exact this
  have hbefore : ∀ i, i < a.trues.length → b.levelAt i = a.levelAt i := by
    intro i hi
    rw [levelAt, levelAt, hstarts, List.countP_append]
    have hzero : ([a.trues.length]).countP (fun k => decide (k ≤ i)) = 0 := by
      rw [List.countP_eq_zero]
      intro k hk
      rw [List.mem_singleton.mp hk]
      simpa using hi
    omega
  have hafter : ∀ i, a.trues.length ≤ i → b.levelAt i = a.decisionLevel + 1 := by
    intro i hi
    rw [← hsize]
    refine levelAt_eq_decisionLevel fun k hk => ?_
    rw [hstarts, List.mem_append, List.mem_singleton] at hk
    rcases hk with hk | rfl
    · exact Nat.le_trans (hl.le_length k hk) hi
    · exact hi
  have hold : ∀ {i : Nat} {l : Literal}, i < a.trues.length → b.trues[i]? = some l →
      b.reason? l.var = none →
      a.trues[i]? = some l ∧ a.reason? l.var = none := by
    intro i l hi hget hr
    have hget' : a.trues[i]? = some l := by rw [← hget]; exact (he.getElem? hi).symm
    refine ⟨hget', ?_⟩
    rw [← hr]
    exact (he.reason?_eq ha.openLevel (List.mem_of_getElem? hget')).symm
  refine ⟨fun {i l} hget hr => ?_, fun {i l} hget hr hne hle => ?_, fun {k l} hk hget => ?_⟩
  · rw [hstarts, List.mem_append, List.mem_singleton]
    by_cases hi : i < a.trues.length
    · obtain ⟨hget, hr⟩ := hold hi hget hr
      rw [hbefore i hi]
      exact (h.driven hget hr).imp_right Or.inl
    · exact Or.inr (Or.inr (hnew (Nat.le_of_not_lt hi) hget).1)
  · by_cases hi : i < a.trues.length
    · obtain ⟨hget, hr⟩ := hold hi hget hr
      rw [hbefore i hi] at hne hle
      exact h.chosen hget hr hne hle
    · rw [hafter i (Nat.le_of_not_lt hi)] at hle
      exact (hnew (Nat.le_of_not_lt hi) hget).2 hle
  · by_cases hlt : k < a.decisionLevel
    · obtain ⟨i, hi, hle⟩ := h.made hlt hget
      have hlen := (List.getElem?_eq_some_iff.mp hi).1
      refine ⟨i, ?_, ?_⟩
      · rw [← hi]
        exact he.getElem? hlen
      · rw [hbefore i hlen]
        exact hle
    · have hkd : k = a.decisionLevel := by omega
      subst hkd
      obtain ⟨i, hi⟩ := List.mem_iff_getElem?.mp (hmade l hget)
      refine ⟨i, hi, ?_⟩
      rw [← hsize]
      exact b.levelAt_le i

end Honours

end Assignment

theorem SearchState.honours_backtrack [CustomConstraint κ] {level : Nat} {s s' : SearchState κ}
    {assumptions : List Literal} (hw : s.WellFormed) (hrun : s.backtrack level = .ok s')
    (h : s.assignment.Honours assumptions) : s'.assignment.Honours assumptions := by
  rcases backtrack_spec hw hrun with ⟨-, rfl⟩ | ⟨hlevel, hr, hw', -, hstarts⟩
  · exact h
  have hcon := hw.onBoard.consistent
  have hcon' := hw'.onBoard.consistent
  refine ⟨fun {i l} hl hreason => ?_, fun {i l} hl hreason hne hle => ?_, fun {k l} hk hl => ?_⟩
  · have hi := (List.getElem?_eq_some_iff.mp hl).1
    rw [hr.cut.levelAt_eq hcon hcon' hi, hstarts]
    rw [hr.cut.reason?_eq hcon' (List.mem_of_getElem? hl)] at hreason
    refine (h.driven (hr.cut.getElem? hl) hreason).imp_right fun hmem => ?_
    have hlt : i < s.assignment.trail.size := by
      rw [Assignment.size_trail]
      exact (List.getElem?_eq_some_iff.mp (hr.cut.getElem? hl)).1
    rw [hr.cut.trues, List.length_take] at hi
    exact Assignment.mem_take_levelStarts hw.layered.sorted hmem
      ((Assignment.lt_startOfLevel_iff hw.layered.sorted hlt).mp (by omega))
  · rw [hr.cut.levelAt_eq hcon hcon' (List.getElem?_eq_some_iff.mp hl).1] at hne hle
    rw [hr.cut.reason?_eq hcon' (List.mem_of_getElem? hl)] at hreason
    exact h.chosen (hr.cut.getElem? hl) hreason hne hle
  · have hlen : s'.assignment.decisionLevel = min level s.assignment.decisionLevel := by
      have := congrArg List.length hstarts
      rw [List.length_take, Array.length_toList, Array.length_toList] at this
      exact this
    obtain ⟨i, hi, hle⟩ := h.made (k := k) (by omega) hl
    have hlt : i < s.assignment.trail.size := by
      rw [Assignment.size_trail]
      exact (List.getElem?_eq_some_iff.mp hi).1
    have hbefore : i < s.assignment.startOfLevel (level + 1) :=
      (Assignment.lt_startOfLevel_iff hw.layered.sorted hlt).mpr (by omega)
    have hi' : s'.assignment.trues[i]? = some l := by
      rw [hr.cut.trues, List.getElem?_take_of_lt hbefore, hi]
    refine ⟨i, hi', ?_⟩
    rw [hr.cut.levelAt_eq hcon hcon' (List.getElem?_eq_some_iff.mp hi').1]
    exact hle

/-! ## The walk back -/

section

variable {a : Assignment} {seen : Array Bool} {v w : Nat}

/-- A variable that is passed loses its mark. -/
theorem getElem?_unmark :
    (seen.setIfInBounds v false)[w]?.getD false = true ↔ w ≠ v ∧ seen[w]?.getD false = true := by
  by_cases hv : v = w
  · subst hv
    by_cases hlt : v < seen.size
    · simp [hlt]
    · rw [Array.getElem?_eq_none (by simpa using hlt)]
      simp
  · simp [hv, Ne.symm hv]

theorem getElem?_mark : (seen.setIfInBounds v true)[w]?.getD false = true ↔
    (w = v ∧ v < seen.size) ∨ seen[w]?.getD false = true := by
  by_cases hv : v = w
  · subst hv
    by_cases hlt : v < seen.size
    · simp [hlt]
    · rw [Array.getElem?_eq_none (by simpa using hlt), Array.getElem?_eq_none (by omega)]
      simp [hlt]
  · simp [hv, Ne.symm hv]

theorem size_markAbove (reason : List Literal) : (markAbove a reason seen).size = seen.size := by
  induction reason generalizing seen with
  | nil => rfl
  | cons l ls ih =>
    show (markAbove a ls (if 0 < a.levelOf l.var then seen.setIfInBounds l.var true else seen)).size
        = _
    rw [ih]
    split
    · exact Array.size_setIfInBounds
    · rfl

theorem getElem?_markAbove {reason : List Literal} :
    (markAbove a reason seen)[v]?.getD false = true ↔ seen[v]?.getD false = true ∨
      (v < seen.size ∧ a.levelOf v ≠ 0 ∧ ∃ m ∈ reason, m.var = v) := by
  induction reason generalizing seen with
  | nil => exact ⟨Or.inl, fun h => h.resolve_right fun ⟨_, _, _, hm, _⟩ => List.not_mem_nil hm⟩
  | cons l ls ih =>
    show (markAbove a ls (if 0 < a.levelOf l.var then seen.setIfInBounds l.var true else
      seen))[v]?.getD false = true ↔ _
    rw [ih, List.exists_mem_cons_iff]
    split
    · rename_i hlevel
      rw [getElem?_mark, Array.size_setIfInBounds]
      constructor
      · rintro ((⟨rfl, hlt⟩ | hv) | ⟨hlt, hv, hm⟩)
        · exact Or.inr ⟨hlt, Nat.ne_of_gt hlevel, Or.inl rfl⟩
        · exact Or.inl hv
        · exact Or.inr ⟨hlt, hv, Or.inr hm⟩
      · rintro (hv | ⟨hlt, hv, rfl | hm⟩)
        · exact Or.inl (Or.inr hv)
        · exact Or.inl (Or.inl ⟨rfl, hlt⟩)
        · exact Or.inr ⟨hlt, hv, hm⟩
    · rename_i hlevel
      refine or_congr_right (and_congr_right fun _ => and_congr_right fun hv => ?_)
      refine ⟨Or.inr, fun h => h.resolve_left ?_⟩
      rintro rfl
      exact hlevel (Nat.pos_of_ne_zero hv)

end

section

variable [CustomConstraint κ] {s : Arena κ} {a : Assignment} {failed : Literal} {i : Nat}
  {core : List Literal} {seen : Array Bool}

theorem Arena.Justifies.reason?_of_reasonOf (h : s.Justifies a) {i : Nat} {l : Literal}
    (hl : a.trues[i]? = some l) (hrun : s.reasonOf a l.var = .ok none) :
    a.reason? l.var = none := by
  have hlit : a.satisfiedLiteral? l.var = some l :=
    h.consistent.satisfiedLiteral?_eq.mpr ⟨List.mem_of_getElem? hl, rfl⟩
  cases hr : a.reason? l.var with
  | none => rfl
  | some r =>
    simp only [reasonOf, hr, hlit] at hrun
    obtain ⟨c, -, hrun⟩ := ok_of_bind hrun
    cases hrun

/-- Between the literals of the trail from position `i` on, which were passed, and those in front of
it. What is marked was named by something that was passed, or is the false assumption itself, and
the core has the decisions among what was reached. -/
structure Tracing (s : Arena κ) (a : Assignment) (failed : Literal) (i : Nat)
    (core : List Literal) (seen : Array Bool) : Prop where
  size : seen.size = a.cells.size
  marked : ∀ v : Nat, seen[v]?.getD false = true ↔ v ∈ (a.trues.take i).map Literal.var ∧
    (v = failed.var ∨
      ∃ w ∈ (a.trues.drop i).map Literal.var, s.Reaches a failed.var w ∧ s.Antecedent a w v)
  newest : core.Sublist (a.trues.drop i)
  decided : ∀ m, m ∈ core ↔ m ∈ a.trues.drop i ∧ a.reason? m.var = none ∧
    s.Reaches a failed.var m.var

namespace Tracing

/-- The next literal is marked if it is reached: what names it was passed already. -/
theorem marked_newest (h : Tracing s a failed (i + 1) core seen) (hj : s.Justifies a) {l : Literal}
    (hl : a.trues[i]? = some l) :
    seen[l.var]?.getD false = true ↔ s.Reaches a failed.var l.var := by
  rw [h.marked, Arena.reaches_iff]
  constructor
  · rintro ⟨-, hv | ⟨w, -, hw⟩⟩
    · exact Or.inl hv
    · exact Or.inr ⟨w, hw⟩
  · intro hreach
    have hmem : l.var ∈ (a.trues.take (i + 1)).map Literal.var :=
      List.mem_map_of_mem (mem_take_iff.mpr ⟨i, Nat.lt_succ_self i, hl⟩)
    refine ⟨hmem, hreach.imp_right fun ⟨w, hw, hstep⟩ => ⟨w, ?_, hw, hstep⟩⟩
    obtain ⟨-, reason, hreason, -⟩ := id hstep
    obtain ⟨k, p, hk, rfl⟩ := hj.mem_of_reasonOf hreason
    obtain ⟨j, m, hjk, hm, hv⟩ := hj.of_antecedent hk hstep
    have hij : j = i := hj.consistent.getElem?_inj hm hl hv
    refine List.mem_map_of_mem (List.mem_iff_getElem?.mpr ⟨k - (i + 1), ?_⟩)
    rw [List.getElem?_drop, ← hk]
    congr 1
    omega

/-- One literal is passed: it loses its mark, its antecedents get one if it is reached, and it
enters the core if it is a decision besides. -/
theorem pass (h : Tracing s a failed (i + 1) core seen) (hcon : a.Consistent) {l : Literal}
    (hl : a.trues[i]? = some l) {core' : List Literal} {seen' : Array Bool}
    (hsize : seen'.size = seen.size)
    (hseen : ∀ v : Nat, seen'[v]?.getD false = true ↔ (v ≠ l.var ∧ seen[v]?.getD false = true) ∨
      (s.Reaches a failed.var l.var ∧ s.Antecedent a l.var v ∧
        v ∈ (a.trues.take i).map Literal.var))
    (hcore : (core' = l :: core ∧ a.reason? l.var = none ∧ s.Reaches a failed.var l.var) ∨
      (core' = core ∧ ¬ (a.reason? l.var = none ∧ s.Reaches a failed.var l.var))) :
    Tracing s a failed i core' seen' := by
  have hlt := (List.getElem?_eq_some_iff.mp hl).1
  have hdrop : a.trues.drop i = l :: a.trues.drop (i + 1) := by
    rw [List.drop_eq_getElem_cons hlt, (List.getElem?_eq_some_iff.mp hl).2]
  have htake : a.trues.take (i + 1) = a.trues.take i ++ [l] := by
    rw [List.take_add_one, hl]
    rfl
  have hfresh : l.var ∉ (a.trues.take i).map Literal.var := by
    intro hv
    obtain ⟨m, hm, hvar⟩ := List.mem_map.mp hv
    exact hcon.var_ne_of_mem_take hl hm hvar
  refine ⟨hsize.trans h.size, fun v => ?_, ?_, fun m => ?_⟩
  · rw [hseen, h.marked, htake, hdrop, List.map_append, List.map_cons, List.map_nil,
      List.mem_append, List.mem_singleton, List.map_cons]
    constructor
    · rintro (⟨hne, hv | hv, hfound⟩ | ⟨hreach, hstep, hv⟩)
      · refine ⟨hv, hfound.imp_right fun ⟨w, hw, hrest⟩ => ⟨w, List.mem_cons_of_mem _ hw, hrest⟩⟩
      · exact absurd hv hne
      · exact ⟨hv, Or.inr ⟨l.var, List.mem_cons_self, hreach, hstep⟩⟩
    · rintro ⟨hv, hfound⟩
      have hne : v ≠ l.var := fun heq => hfresh (heq ▸ hv)
      rcases hfound with hfound | ⟨w, hw, hreach, hstep⟩
      · exact Or.inl ⟨hne, Or.inl hv, Or.inl hfound⟩
      · rcases List.mem_cons.mp hw with rfl | hw
        · exact Or.inr ⟨hreach, hstep, hv⟩
        · exact Or.inl ⟨hne, Or.inl hv, Or.inr ⟨w, hw, hreach, hstep⟩⟩
  · rw [hdrop]
    rcases hcore with ⟨rfl, -⟩ | ⟨rfl, -⟩
    · exact h.newest.cons_cons l
    · exact h.newest.cons l
  · rw [hdrop, List.mem_cons]
    rcases hcore with ⟨rfl, hl'⟩ | ⟨rfl, hl'⟩
    · rw [List.mem_cons, h.decided]
      constructor
      · rintro (rfl | ⟨hm, hrest⟩)
        · exact ⟨Or.inl rfl, hl'⟩
        · exact ⟨Or.inr hm, hrest⟩
      · rintro ⟨rfl | hm, hrest⟩
        · exact Or.inl rfl
        · exact Or.inr ⟨hm, hrest⟩
    · rw [h.decided]
      constructor
      · exact fun ⟨hm, hrest⟩ => ⟨Or.inr hm, hrest⟩
      · rintro ⟨rfl | hm, hrest⟩
        · exact absurd hrest hl'
        · exact ⟨hm, hrest⟩

end Tracing

/-- The sweep keeps track, and gives back the core with the newest decision first. -/
theorem sweepCore_finds (hj : s.Justifies a) (hfailed : -failed ∈ a.trues) {start : Nat} (n : Nat) :
    ∀ {core core' : List Literal} {seen seen' : Array Bool}, start + n ≤ a.trues.length →
    Tracing s a failed (start + n) core seen →
    sweepCore s a failed start n core seen = .ok (core', seen') →
    ∃ last, core' = last.reverse ∧ Tracing s a failed start last seen' := by
  have hcon := hj.consistent
  induction n with
  | zero =>
    intro core core' seen seen' _ h hrun
    cases hrun
    exact ⟨core, rfl, h⟩
  | succ n ih =>
    intro core core' seen seen' hle h hrun
    have hget : ∃ l, a.trues[start + n]? = some l :=
      ⟨_, List.getElem?_eq_getElem (show start + n < a.trues.length by omega)⟩
    obtain ⟨l, hl⟩ := hget
    have hnewest := h.marked_newest hj hl
    unfold sweepCore at hrun
    rw [Assignment.getElem?_trail, hl] at hrun
    dsimp only at hrun
    split at hrun
    · rename_i hmarked
      have hreach := hnewest.mp hmarked
      obtain ⟨found, hreason, hrun⟩ := ok_of_bind hrun
      cases found with
      | some reason =>
        refine ih (by omega) (h.pass hcon hl ?_ (fun v => ?_) (Or.inr ⟨rfl, fun hd => ?_⟩)) hrun
        · rw [size_markAbove, Array.size_setIfInBounds]
        · rw [getElem?_markAbove, getElem?_unmark, Array.size_setIfInBounds, h.size]
          refine or_congr_right ?_
          constructor
          · rintro ⟨-, hnamed⟩
            have hstep := (Arena.Antecedent.of_reason hreason).mpr hnamed
            obtain ⟨j, m, hj', hm, rfl⟩ := hj.of_antecedent hl hstep
            exact ⟨hreach, hstep, List.mem_map_of_mem (mem_take_iff.mpr ⟨j, hj', hm⟩)⟩
          · rintro ⟨-, hstep, hmem⟩
            obtain ⟨m, hm, rfl⟩ := List.mem_map.mp hmem
            exact ⟨hcon.var_lt (List.mem_of_mem_take hm),
              (Arena.Antecedent.of_reason hreason).mp hstep⟩
        · exact Arena.reason?_ne_none hreason hd.1
      | none =>
        have hdecision := hj.reason?_of_reasonOf hl hreason
        have hne : l ≠ failed := by
          rintro rfl
          exact hcon.not_mem_of_negate_mem hfailed (List.mem_of_getElem? hl)
        dsimp only at hrun
        rw [if_neg hne] at hrun
        refine ih (by omega) (h.pass hcon hl Array.size_setIfInBounds (fun v => ?_)
          (Or.inl ⟨rfl, hdecision, hreach⟩)) hrun
        rw [getElem?_unmark]
        refine ⟨Or.inl, fun hv => hv.resolve_right ?_⟩
        rintro ⟨-, hstep, -⟩
        exact Arena.Antecedent.not_of_none hreason hstep
    · rename_i hoff
      have hnot : ¬ s.Reaches a failed.var l.var := fun hreach => hoff (hnewest.mpr hreach)
      refine ih (by omega) (h.pass hcon hl rfl (fun v => ?_)
        (Or.inr ⟨rfl, fun hd => hnot hd.2⟩)) hrun
      constructor
      · refine fun hv => Or.inl ⟨?_, hv⟩
        rintro rfl
        exact hoff hv
      · rintro (⟨-, hv⟩ | ⟨hreach, -⟩)
        · exact hv
        · exact absurd hreach hnot

/-- The literals behind the start of the first level are those above the root. -/
theorem Assignment.mem_drop_startOfLevel (hcon : a.Consistent) (ha : a.Layered) {m : Literal} :
    m ∈ a.trues.drop (a.startOfLevel 1) ↔ m ∈ a.trues ∧ a.levelOf m.var ≠ 0 := by
  have habove : ∀ {j : Nat}, a.trues[j]? = some m →
      (a.startOfLevel 1 ≤ j ↔ a.levelOf m.var ≠ 0) := by
    intro j hm
    have hlt : j < a.trail.size := by
      rw [Assignment.size_trail]
      exact (List.getElem?_eq_some_iff.mp hm).1
    have hiff : j < a.startOfLevel (0 + 1) ↔ a.levelAt j ≤ 0 :=
      Assignment.lt_startOfLevel_iff ha.sorted hlt
    rw [Nat.zero_add] at hiff
    rw [hcon.levelOf_eq hm]
    omega
  constructor
  · intro hm
    obtain ⟨k, hk⟩ := List.mem_iff_getElem?.mp hm
    rw [List.getElem?_drop] at hk
    exact ⟨List.mem_of_getElem? hk, (habove hk).mp (Nat.le_add_right _ k)⟩
  · rintro ⟨hm, hlevel⟩
    obtain ⟨j, hj⟩ := List.mem_iff_getElem?.mp hm
    refine List.mem_iff_getElem?.mpr ⟨j - a.startOfLevel 1, ?_⟩
    rw [List.getElem?_drop, Nat.add_sub_cancel' ((habove hj).mpr hlevel), hj]

/-- The decisions above the root that the value of a false literal rests on, newest first. -/
structure Arena.Blames (s : Arena κ) (a : Assignment) (failed : Literal) (core : List Literal) :
    Prop where
  newest : core.Sublist a.trues.reverse
  mem_iff : ∀ m, m ∈ core ↔ m ∈ a.trues ∧ a.levelOf m.var ≠ 0 ∧ a.reason? m.var = none ∧
    s.Reaches a failed.var m.var

theorem unsatCore_finds (hj : s.Justifies a) (ha : a.Layered) (hfailed : -failed ∈ a.trues)
    (hsize : seen.size = a.cells.size) (hoff : ∀ v : Nat, seen[v]?.getD false = false)
    {found : List Literal} {seen' : Array Bool}
    (hrun : unsatCore s a failed seen = .ok (found, seen')) :
    seen'.size = a.cells.size ∧ (∀ v : Nat, seen'[v]?.getD false = false) ∧
      ∃ core, found = failed :: core ∧ s.Blames a failed core := by
  have hcon := hj.consistent
  unfold unsatCore at hrun
  split at hrun
  · rename_i hroot
    cases hrun
    refine ⟨hsize, hoff, [], rfl, List.nil_sublist _, fun m => ⟨fun hm => (by cases hm), ?_⟩⟩
    rintro ⟨hm, hlevel, -⟩
    obtain ⟨i, hi⟩ := List.mem_iff_getElem?.mp hm
    have htop := a.levelAt_le i
    rw [hcon.levelOf_eq hi] at hlevel
    omega
  · obtain ⟨⟨core', seen₁⟩, hsweep, hrun⟩ := ok_of_bind hrun
    cases hrun
    have hle : a.startOfLevel 1 ≤ a.trues.length := ha.startOfLevel_le 0
    have hlen : a.startOfLevel 1 + (a.trail.size - a.startOfLevel 1) = a.trues.length := by
      rw [Assignment.size_trail]
      omega
    have hbegin : Tracing s a failed (a.startOfLevel 1 + (a.trail.size - a.startOfLevel 1)) []
        (seen.setIfInBounds failed.var true) := by
      rw [hlen]
      refine ⟨by rw [Array.size_setIfInBounds, hsize], fun v => ?_, List.nil_sublist _, fun m => ?_⟩
      · rw [List.take_length, List.drop_length, getElem?_mark, hoff v]
        have hmem : failed.var ∈ a.trues.map Literal.var := by
          rw [← Literal.var_negate failed]
          exact List.mem_map_of_mem hfailed
        have hvar : failed.var < seen.size := by
          rw [hsize, ← Literal.var_negate failed]
          exact hcon.var_lt hfailed
        constructor
        · rintro (⟨rfl, -⟩ | hv)
          · exact ⟨hmem, Or.inl rfl⟩
          · cases hv
        · rintro ⟨-, rfl | ⟨w, hw, -⟩⟩
          · exact Or.inl ⟨rfl, hvar⟩
          · cases hw
      · rw [List.drop_length]
        exact ⟨fun hm => (by cases hm), fun hm => (by cases hm.1)⟩
    obtain ⟨last, rfl, hend⟩ :=
      sweepCore_finds hj hfailed _ (Nat.le_of_eq hlen) hbegin hsweep
    refine ⟨by rw [Array.size_setIfInBounds, hend.size], fun v => ?_, last.reverse, rfl, ?_,
      fun m => ?_⟩
    · -- what is marked still is an antecedent, so above the root, but in front of the first level
      by_contra hv
      obtain ⟨hne, hv⟩ := getElem?_unmark.mp (Bool.not_eq_false _ ▸ hv)
      obtain ⟨hmem, hfound⟩ := (hend.marked v).mp hv
      obtain ⟨m, hm, rfl⟩ := List.mem_map.mp hmem
      obtain ⟨w, -, -, hstep⟩ := hfound.resolve_left hne
      have hdrop := (Assignment.mem_drop_startOfLevel hcon ha).mpr
        ⟨List.mem_of_mem_take hm, hstep.1⟩
      exact (List.disjoint_take_drop hcon.nodup_trues (Nat.le_refl _)) hm hdrop
    · exact (hend.newest.trans (List.drop_sublist _ _)).reverse
    · rw [List.mem_reverse, hend.decided, Assignment.mem_drop_startOfLevel hcon ha, and_assoc]

theorem Arena.Blames.nodup (h : s.Blames a failed core) (hcon : a.Consistent)
    (hfailed : -failed ∈ a.trues) : (failed :: core).Nodup := by
  refine List.nodup_cons.mpr ⟨fun hm => ?_, ?_⟩
  · exact hcon.not_mem_of_negate_mem hfailed ((h.mem_iff failed).mp hm).1
  · exact h.newest.nodup ((List.reverse_perm a.trues).nodup_iff.mpr hcon.nodup_trues)

/-- What is reached goes back to the decisions that are to blame. -/
theorem Arena.Blames.rests (h : s.Blames a failed core) (hj : s.Justifies a) {l : Literal}
    (hl : l ∈ a.trues) (hreach : s.Reaches a failed.var l.var) (hlevel : a.levelOf l.var ≠ 0) :
    s.Rests a (core.map (- ·)) l.var := by
  obtain ⟨i, hi⟩ := List.mem_iff_getElem?.mp hl
  refine .of_closed hj (p := fun v => s.Reaches a failed.var v ∧ a.levelOf v ≠ 0 ∧
    ∃ m ∈ a.trues, m.var = v) ?_ hi ⟨hreach, hlevel, l, hl, rfl⟩
  rintro v ⟨hreach, hlevel, m, hm, rfl⟩
  obtain ⟨k, hk⟩ := List.mem_iff_getElem?.mp hm
  obtain ⟨found, hreason⟩ := hj.reasonOf_total m.var
  cases found with
  | none =>
    have hcore : m ∈ core :=
      (h.mem_iff m).mpr ⟨hm, hlevel, hj.reason?_of_reasonOf hk hreason, hreach⟩
    exact Or.inl ⟨-m, List.mem_map_of_mem hcore, Literal.var_negate m⟩
  | some reason =>
    obtain ⟨hbefore, -⟩ := hj.reasonOf_spec hk hreason
    refine Or.inr ⟨reason, hreason, fun n hn hlevel => ?_⟩
    have hstep : s.Antecedent a m.var n.var :=
      (Arena.Antecedent.of_reason hreason).mpr ⟨hlevel, n, hn, rfl⟩
    exact ⟨hreach.tail hstep, hlevel, -n, List.mem_of_mem_take (hbefore n hn), Literal.var_negate n⟩

/-- Where the decisions that are to blame hold, the literal is false. -/
theorem Arena.Blames.refutes (h : s.Blames a failed core) (hj : s.Justifies a)
    (hfailed : -failed ∈ a.trues) {ν : Valuation} (hν : s.Model a ν)
    (hcore : ∀ l ∈ core, l.holds ν = true) : failed.holds ν = false := by
  have htrue : (-failed).holds ν = true := by
    by_cases hlevel : a.levelOf (-failed).var = 0
    · exact hν.facts _ hfailed hlevel
    · have hreach : s.Reaches a failed.var (-failed).var := by
        rw [Literal.var_negate]
        exact .refl
      refine (h.rests hj hfailed hreach hlevel).holds hj (fun m hm => ?_) hν
        (fun m hm => ?_) _ hfailed
        rfl
      · obtain ⟨l, hl, rfl⟩ := List.mem_map.mp hm
        rw [Literal.negate_negate]
        exact ((h.mem_iff l).mp hl).1
      · obtain ⟨l, hl, rfl⟩ := List.mem_map.mp hm
        rw [Literal.holds_negate, hcore l hl]
        rfl
  rw [Literal.holds_negate] at htrue
  simpa using htrue

/-- The constraints contradict the literals of a core: the false assumption, and decisions above the
root. The marks are off again. -/
theorem unsatCore_spec (hj : s.Justifies a) (ha : a.Layered) (hfailed : -failed ∈ a.trues)
    {core : List Literal} {seen seen' : Array Bool} (hsize : seen.size = a.cells.size)
    (hoff : ∀ v : Nat, seen[v]?.getD false = false)
    (hrun : unsatCore s a failed seen = .ok (core, seen')) :
    seen'.size = a.cells.size ∧ (∀ v : Nat, seen'[v]?.getD false = false) ∧ core.Nodup ∧
      (∀ l ∈ core, l = failed ∨ ∃ i : Nat, a.trues[i]? = some l ∧ a.reason? l.var = none ∧
        a.levelAt i ≠ 0) ∧
      ∀ ν, s.Model a ν → ¬ ∀ l ∈ core, l.holds ν = true := by
  have hcon := hj.consistent
  obtain ⟨hsize', hoff', core, rfl, hblames⟩ := unsatCore_finds hj ha hfailed hsize hoff hrun
  refine ⟨hsize', hoff', hblames.nodup hcon hfailed, fun l hl => ?_, fun ν hν hcore => ?_⟩
  · refine (List.mem_cons.mp hl).imp_right fun hl => ?_
    obtain ⟨hmem, hlevel, hdecision, -⟩ := (hblames.mem_iff l).mp hl
    obtain ⟨i, hi⟩ := List.mem_iff_getElem?.mp hmem
    rw [hcon.levelOf_eq hi] at hlevel
    exact ⟨i, hi, hdecision, hlevel⟩
  · have hfalse := hblames.refutes hj hfailed hν fun l hl => hcore l (List.mem_cons_of_mem _ hl)
    rw [hcore failed List.mem_cons_self] at hfalse
    cases hfalse

end

end ClauseLearning
