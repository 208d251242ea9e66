import ClauseLearning.Proofs.Implied
import Mathlib.Data.Finset.Card

/-!
# Minimisation does not change the backjump

A literal that is removed goes back to the literals that are kept (`Arena.Rests`), and there is a
way that does not leave its level, since every value but a decision has an antecedent of its own
level. So each level of the clause is kept by some literal (`Arena.Rests.exists_level`). The level
to go back to and the literal block distance depend on the levels only.

* `LbdMeter.countLevels_eq`: the distance counts levels.
* `LearnedClause.backjumpLevel_congr`: the level to go back to.
* `Engine.Reachable.keeps_backjump`: the three settings, at every conflict of a search.
-/

namespace ClauseLearning

/-! ## Levels of a clause -/

/-- The levels of the literals that have a value. -/
def Assignment.levelsOf (a : Assignment) (ls : List Literal) : Finset Nat :=
  (ls.filterMap fun l => a.level? l.var).toFinset

namespace Assignment

variable {a : Assignment} {l : Literal} {ls : List Literal} {n : Nat}

theorem mem_levelsOf : n ∈ a.levelsOf ls ↔ ∃ l ∈ ls, a.level? l.var = some n := by
  rw [levelsOf, List.mem_toFinset, List.mem_filterMap]

theorem levelsOf_cons_of_none (h : a.level? l.var = none) :
    a.levelsOf (l :: ls) = a.levelsOf ls := by
  have hcons : (l :: ls).filterMap (fun l => a.level? l.var) = ls.filterMap fun l =>
      a.level? l.var :=
    List.filterMap_cons_none h
  rw [levelsOf, hcons, levelsOf]

theorem levelsOf_cons_of_some (h : a.level? l.var = some n) :
    a.levelsOf (l :: ls) = insert n (a.levelsOf ls) := by
  have hcons : (l :: ls).filterMap (fun l => a.level? l.var) =
      n :: ls.filterMap fun l => a.level? l.var := List.filterMap_cons_some h
  rw [levelsOf, hcons, List.toFinset_cons, levelsOf]

theorem mem_levelsOf_iff (h : a.Consistent) (hls : ∀ l ∈ ls, -l ∈ a.trues) :
    n ∈ a.levelsOf ls ↔ ∃ l ∈ ls, a.levelOf l.var = n := by
  rw [mem_levelsOf]
  refine exists_congr fun l => and_congr_right fun hl => ?_
  obtain ⟨i, hi⟩ := List.mem_iff_getElem?.mp (hls l hl)
  have hlevel := h.level?_eq hi
  have hlevelOf := h.levelOf_eq hi
  rw [Literal.var_negate] at hlevel hlevelOf
  rw [hlevel, hlevelOf, Option.some.injEq]

end Assignment

/-! ## The literal block distance -/

namespace LbdMeter

variable {a : Assignment}

theorem mark_spec (n : Nat) (meter : LbdMeter) :
    ((meter.mark n).1 = true ↔ meter.stamps[n]?.getD 0 ≠ meter.current) ∧
      (meter.mark n).2.current = meter.current ∧
      ∀ k : Nat, (meter.mark n).2.stamps[k]?.getD 0 =
        if k = n then meter.current else meter.stamps[k]?.getD 0 := by
  obtain ⟨stamps, current⟩ := meter
  unfold mark
  dsimp only
  rw [getD_append_replicate]
  by_cases hn : stamps[n]?.getD 0 = current
  · rw [if_pos hn]
    refine ⟨⟨nofun, fun hne => absurd hn hne⟩, rfl, fun k => ?_⟩
    rw [getD_append_replicate]
    split
    · rename_i hk
      rw [hk, hn]
    · rfl
  · rw [if_neg hn]
    refine ⟨⟨fun _ => hn, fun _ => rfl⟩, rfl, fun k => ?_⟩
    by_cases hk : k = n
    · subst hk
      have hlt : k < (stamps ++ Array.replicate (k + 1 - stamps.size) 0).size := by
        rw [Array.size_append, Array.size_replicate]
        omega
      rw [if_pos rfl, Array.getElem?_setIfInBounds_self_of_lt hlt]
      rfl
    · rw [if_neg hk, Array.getElem?_setIfInBounds_ne (Ne.symm hk), getD_append_replicate]

/-- The levels that were not met in this measurement are counted, each once. -/
theorem countLevels_eq (ls : List Literal) (meter : LbdMeter) :
    (countLevels a ls meter).1 =
      ((a.levelsOf ls).filter fun n => meter.stamps[n]?.getD 0 ≠ meter.current).card := by
  induction ls generalizing meter with
  | nil => rfl
  | cons l ls ih =>
    unfold countLevels
    cases hl : a.level? l.var with
    | none =>
      rw [Assignment.levelsOf_cons_of_none hl]
      exact ih meter
    | some level =>
      obtain ⟨hnew, hcurrent, hstamps⟩ := meter.mark_spec level
      rw [Assignment.levelsOf_cons_of_some hl]
      generalize hall : ((insert level (a.levelsOf ls)).filter fun n =>
        meter.stamps[n]?.getD 0 ≠ meter.current) = counted
      -- behind the literal its level does not count any more, and the others count as before
      have hrest : ((a.levelsOf ls).filter fun n =>
          (meter.mark level).2.stamps[n]?.getD 0 ≠ (meter.mark level).2.current) =
          counted.erase level := by
        ext n
        rw [← hall, Finset.mem_erase, Finset.mem_filter, Finset.mem_filter, Finset.mem_insert,
          hstamps, hcurrent]
        by_cases hn : n = level
        · simp [hn]
        · simp [hn]
      have hmem : level ∈ counted ↔ (meter.mark level).1 = true := by
        rw [hnew, ← hall, Finset.mem_filter]
        exact and_iff_right (Finset.mem_insert_self _ _)
      have hcount := ih (meter.mark level).2
      rw [hrest] at hcount
      show (if (meter.mark level).1 = true then (countLevels a ls (meter.mark level).2).1 + 1
        else (countLevels a ls (meter.mark level).2).1) = _
      rw [hcount]
      split
      · rename_i hmarked
        exact Finset.card_erase_add_one (hmem.mpr hmarked)
      · rename_i hmarked
        rw [Finset.erase_eq_of_notMem fun hin => hmarked (hmem.mp hin)]

end LbdMeter

/-- The distance depends on the levels only. -/
theorem LearnedDatabase.measure_congr {a : Assignment} {ls ls' : List Literal}
    (h : a.levelsOf ls = a.levelsOf ls') (db : LearnedDatabase) :
    (db.measure a ls).1 = (db.measure a ls').1 := by
  obtain ⟨options, references, increment, numLearned, meter⟩ := db
  show (LbdMeter.countLevels a ls _).1 = (LbdMeter.countLevels a ls' _).1
  rw [LbdMeter.countLevels_eq, LbdMeter.countLevels_eq, h]

/-! ## The level to go back to -/

/-- The level to go back to depends on the levels of the other literals only. -/
theorem LearnedClause.backjumpLevel_congr {a : Assignment} {l : Literal} {rest rest' : List Literal}
    (h : ∀ n, (∃ m ∈ rest, a.levelOf m.var = n) ↔ ∃ m ∈ rest', a.levelOf m.var = n) :
    (ofLiterals a (l :: rest)).backjumpLevel = (ofLiterals a (l :: rest')).backjumpLevel := by
  have hle : ∀ {rest rest' : List Literal},
      (∀ n, (∃ m ∈ rest, a.levelOf m.var = n) → ∃ m ∈ rest', a.levelOf m.var = n) →
      (ofLiterals a (l :: rest)).backjumpLevel ≤ (ofLiterals a (l :: rest')).backjumpLevel := by
    intro rest rest' himp
    obtain ⟨ms, -, hperm, -, hattained, hunit⟩ := ofLiterals_spec a l rest
    obtain ⟨-, -, -, hle, -⟩ := ofLiterals_spec a l rest'
    cases ms with
    | nil =>
      rw [hunit hperm.nil_eq.symm]
      exact Nat.zero_le _
    | cons m ms =>
      obtain ⟨m', hm', hlevel⟩ := himp _ ⟨m, hperm.mem_iff.mp List.mem_cons_self, rfl⟩
      rw [← hattained m rfl, ← hlevel]
      exact hle m' hm'
  exact Nat.le_antisymm (hle fun n => (h n).mp) (hle fun n => (h n).mpr)

/-! ## What is kept -/

variable {κ : Type} [CustomConstraint κ]

/-- A literal that is kept is of the same level. -/
theorem Arena.Rests.exists_level {s : Arena κ} {a : Assignment} {kept : List Literal}
    (hlinked : s.Linked a) {v : Nat} (h : s.Rests a kept v) (hlevel : a.levelOf v ≠ 0) :
    ∃ m ∈ kept, a.levelOf m.var = a.levelOf v := by
  induction h with
  | kept hl => exact ⟨_, hl, rfl⟩
  | reason hreason _ ih =>
    obtain ⟨w, hw, hsame⟩ := hlinked _ ⟨_, hreason⟩ hlevel
    obtain ⟨hne, n, hn, rfl⟩ := (Antecedent.of_reason hreason).mp hw
    obtain ⟨m, hm, hmlevel⟩ := ih n hn hne hne
    exact ⟨m, hm, hmlevel.trans hsame⟩

/-- The clause `k` lacks some literals of `k'`, but asserts the same literal on the same level, and
has literals of the same levels. -/
structure LearnedClause.Trims (a : Assignment) (k k' : LearnedClause) : Prop where
  head : k.literals.head? = k'.literals.head?
  backjumpLevel : k.backjumpLevel = k'.backjumpLevel
  subset : k.literals ⊆ k'.literals
  levels : a.levelsOf k.literals = a.levelsOf k'.literals

/-- However much of a derived clause is left, the levels of its literals are, if the others go back
to what is left. -/
theorem Derivation.Follows.trims {d : Derivation κ} {s : Arena κ} {a : Assignment}
    {order : DecisionOrder Generator} {learned : LearnedDatabase} (h : d.Follows s a order learned)
    (hj : d.arena.Justifies a) (hlinked : d.arena.Linked a) {kept : List Literal}
    (hsub : kept.Sublist d.literals) (hhead : kept.head? = some (-d.last))
    (hrests : ∀ l ∈ d.literals, d.arena.Rests a kept l.var) :
    (LearnedClause.ofLiterals a kept).Trims a (.ofLiterals a d.literals) := by
  have hlevels : ∀ n, (∃ m ∈ kept, a.levelOf m.var = n) ↔ ∃ m ∈ d.literals,
      a.levelOf m.var = n := by
    refine fun n => ⟨fun ⟨m, hm, hn⟩ => ⟨m, hsub.subset hm, hn⟩, ?_⟩
    rintro ⟨m, hm, rfl⟩
    exact (hrests m hm).exists_level hlinked (h.levelOf_ne_zero m hm)
  cases kept with
  | nil => cases hhead
  | cons first rest =>
    cases hhead
    obtain ⟨ms, hlits, hperm, -⟩ := LearnedClause.ofLiterals_spec a (-d.last) rest
    obtain ⟨ms', hlits', hperm', -⟩ := LearnedClause.ofLiterals_spec a (-d.last) d.lower
    have hlits' : (LearnedClause.ofLiterals a d.literals).literals = -d.last :: ms' := hlits'
    have hmem : ∀ l, l ∈ -d.last :: ms ↔ l ∈ -d.last :: rest := fun l => (hperm.cons _).mem_iff
    have hmem' : ∀ l, l ∈ -d.last :: ms' ↔ l ∈ d.literals := fun l => (hperm'.cons _).mem_iff
    refine ⟨by rw [hlits, hlits']; rfl, LearnedClause.backjumpLevel_congr fun n => ?_,
      fun l hl => ?_, Finset.ext fun n => ?_⟩
    · -- the first literal is the only one of the current level
      refine ⟨fun ⟨m, hm, hn⟩ => ⟨m, hsub.tail.subset hm, hn⟩, ?_⟩
      rintro ⟨m, hm, rfl⟩
      obtain ⟨k, hk, hlevel⟩ := (hlevels _).mpr ⟨m, List.mem_cons_of_mem _ hm, rfl⟩
      rcases List.mem_cons.mp hk with rfl | hk
      · rw [Literal.var_negate, h.level] at hlevel
        exact absurd hlevel.symm ((h.lower m).mp hm).2.2
      · exact ⟨k, hk, hlevel⟩
    · rw [hlits, hmem] at hl
      rw [hlits', hmem']
      exact hsub.subset hl
    · rw [hlits, hlits', Assignment.mem_levelsOf_iff hj.consistent,
        Assignment.mem_levelsOf_iff hj.consistent]
      · simp only [hmem, hmem']
        exact hlevels n
      · exact fun l hl => h.falsified l ((hmem' l).mp hl)
      · exact fun l hl => h.falsified l (hsub.subset ((hmem l).mp hl))

/-! ## Conflicts of a search -/

namespace Engine

/-- At every conflict of a search that may decide every variable, the three settings learn clauses
that assert the same literal on the same level. Those that are minimised lack literals, but no
level, and so have the same distance. -/
theorem Reachable.keeps_backjump {e : Engine κ} {r : Reference}
    (h : Reachable (.searching (.conflict r)) e) (hfree : e.search.order.allowed = none)
    {c : Constraint κ} (hc : e.search.arena.get? r = some c)
    (hne : highestLevel e.search.assignment (c.reason e.search.assignment none) ≠ 0) :
    ∃ low d, e.Derives r low d ∧ ∃ lesson : Minimisation → Lesson κ,
      (∀ minimisation, Analyser.analyse r low.assignment
        ⟨minimisation, e.analyser.seen, e.analyser.minimiser⟩ low.order low.learned low.arena =
          .ok (lesson minimisation)) ∧
      (∀ minimisation, ∃ last rest, (lesson minimisation).clause.Asserts low.assignment last rest) ∧
      ∀ minimisation,
        (lesson minimisation).clause.Trims low.assignment (lesson .none).clause ∧
        ∀ db : LearnedDatabase, (db.measure low.assignment
          (lesson minimisation).clause.literals).1 =
          (db.measure low.assignment (lesson .none).clause.literals).1 := by
  obtain ⟨low, d, hd⟩ := h.exists_derives hfree hc hne
  have hall : ∀ minimisation : Minimisation, ∃ lesson : Lesson κ,
      Analyser.analyse r low.assignment ⟨minimisation, e.analyser.seen, e.analyser.minimiser⟩
        low.order low.learned low.arena = .ok lesson ∧
      (∃ last rest, lesson.clause.Asserts low.assignment last rest) ∧
      lesson.clause.Trims low.assignment (.ofLiterals low.assignment d.literals) := by
    intro minimisation
    obtain ⟨⟨kept, an⟩, hrun⟩ := Analyser.minimise_total hd.justifies d.literals
      ⟨minimisation, d.seen, .empty⟩
    obtain ⟨⟨hsub, hhead, hrests⟩, -⟩ := Analyser.minimise_derived hd.follows hd.justifies hrun
    exact ⟨_, hd.analyse_eq hrun, hd.follows.asserting hd.justifies.consistent hsub hhead,
      hd.follows.trims hd.justifies hd.linked hsub hhead hrests⟩
  choose lesson hrun hasserts htrims using hall
  have hnone : (lesson .none).clause = .ofLiterals low.assignment d.literals := by
    have hplain : Analyser.minimise d.arena low.assignment d.literals ⟨.none, d.seen, .empty⟩ =
      .ok (d.literals, ⟨.none, d.seen, .empty⟩) := rfl
    have hlesson := (hrun .none).symm.trans (hd.analyse_eq hplain)
    rw [Except.ok.inj hlesson]
    rfl
  refine ⟨low, d, hd, lesson, hrun, hasserts, fun minimisation => ?_⟩
  rw [hnone]
  exact ⟨htrims minimisation, LearnedDatabase.measure_congr (htrims minimisation).levels⟩

/-- What is derived there has a literal that follows from another one. Whether it is removed or not,
the search goes back to the same level. -/
theorem Reachable.keeps_backjump_of_withDetour :
    ∃ (e : Engine Empty) (low : SearchState Empty) (d : Derivation Empty)
      (lesson : Minimisation → Lesson Empty),
      Reachable (.searching (.conflict ⟨2⟩)) e ∧ e.search.order.allowed = none ∧
        e.Derives ⟨2⟩ low d ∧ d.lower = [.make 1 false, .make 3 false] ∧
        ∀ minimisation, Analyser.analyse ⟨2⟩ low.assignment
            ⟨minimisation, e.analyser.seen, e.analyser.minimiser⟩ low.order low.learned low.arena =
              .ok (lesson minimisation) ∧
          (lesson minimisation).clause.Trims low.assignment (lesson .none).clause := by
  obtain ⟨e, c, h, hfree, hc, hne, hall⟩ := exists_conflict_withDetour
  obtain ⟨low, d, hd, lesson, hrun, -, htrims⟩ := Reachable.keeps_backjump h hfree hc hne
  exact ⟨e, low, d, lesson, h, hfree, hd, (hall low d hd).1,
    fun minimisation => ⟨hrun minimisation, (htrims minimisation).1⟩⟩

end Engine

end ClauseLearning
