import ClauseLearning.Constraint.Normal
import ClauseLearning.Proofs.Settling
import Mathlib.Data.List.SplitBy

/-!
# Normal forms say the same

A normal form is taken at the root, where the true literals are facts. Under the valuations that
agree with the facts it says what the description says, and it is about unassigned variables only.

* `Normal.count_cancelPairs`: a complementary pair has one true literal.
* `Normal.oddGroups_spec`: a variable that occurs an even number of times does not matter.
* `Description.normalise_spec`: the normal form of every description of the library's own.
-/

namespace ClauseLearning

variable {κ : Type}

/-! ## Runs of equal elements -/

section

variable {α : Type} [DecidableEq α]

theorem eraseRepsLoop_eq (x : α) (xs acc : List α) :
    List.eraseRepsBy.loop (· == ·) x xs acc =
      acc.reverse ++ List.eraseRepsBy.loop (· == ·) x xs [] := by
  induction xs generalizing x acc with
  | nil => simp [List.eraseRepsBy.loop]
  | cons y ys ih =>
    by_cases hxy : x = y
    · simp only [List.eraseRepsBy.loop, hxy, beq_self_eq_true]
      exact ih y acc
    · have hb : (x == y) = false := by simpa using hxy
      simp only [List.eraseRepsBy.loop, hb]
      rw [ih y (x :: acc), ih y [x]]
      simp

theorem eraseReps_cons (x : α) (xs : List α) :
    (x :: xs).eraseReps = List.eraseRepsBy.loop (· == ·) x xs [] := rfl

theorem eraseReps_cons_cons (x y : α) (xs : List α) :
    (x :: y :: xs).eraseReps =
      if x = y then (y :: xs).eraseReps else x :: (y :: xs).eraseReps := by
  rw [eraseReps_cons, eraseReps_cons, List.eraseRepsBy.loop.eq_def]
  by_cases hxy : x = y
  · simp [hxy]
  · have hb : (x == y) = false := by simpa using hxy
    simp only [hb, if_neg hxy]
    rw [eraseRepsLoop_eq]
    rfl

theorem mem_eraseReps {x : α} {xs : List α} : x ∈ xs.eraseReps ↔ x ∈ xs := by
  induction xs with
  | nil => exact Iff.rfl
  | cons y ys ih =>
    cases ys with
    | nil => exact Iff.rfl
    | cons z zs =>
      rw [eraseReps_cons_cons]
      by_cases hyz : y = z
      · rw [if_pos hyz, ih, hyz]
        simp
      · rw [if_neg hyz, List.mem_cons, ih]
        exact List.mem_cons.symm

end

theorem Literal.code_eq (l : Literal) :
    l.code = 2 * l.var + if l.isPositive then 0 else 1 :=
  congrArg Literal.code l.make_var_isPositive.symm

/-- Without its repetitions a sorted list is strictly sorted. -/
theorem pairwise_eraseReps {ls : List Literal} (h : ls.Pairwise fun l m => l.code ≤ m.code) :
    ls.eraseReps.Pairwise fun l m => l.code < m.code := by
  induction ls with
  | nil => exact List.Pairwise.nil
  | cons l ls ih =>
    obtain ⟨hl, hrest⟩ := List.pairwise_cons.mp h
    cases ls with
    | nil => exact List.pairwise_singleton _ _
    | cons m ms =>
      rw [eraseReps_cons_cons]
      split
      · exact ih hrest
      · rename_i hlm
        refine List.pairwise_cons.mpr ⟨fun k hk => ?_, ih hrest⟩
        have hle := hl m List.mem_cons_self
        have hne : l.code ≠ m.code := fun hc => hlm (by cases l; cases m; simp_all)
        rcases List.mem_cons.mp (mem_eraseReps.mp hk) with rfl | hk
        · omega
        · have := (List.pairwise_cons.mp hrest).1 k hk
          omega

namespace Normal

def Holds (ν : Valuation) : Normal κ → Prop
  | .satisfied => True
  | .unsatisfiable => False
  | .units ls => ∀ l ∈ ls, l.holds ν = true
  | .constraint k => k.Holds ν

/-- What is attached is about unassigned variables and was told of nothing. -/
def WellFormed (a : Assignment) : Normal κ → Prop
  | .satisfied => True
  | .unsatisfiable => True
  | .units ls => ∀ l ∈ ls, l.Known a.cells.size
  | .constraint k => k.WellFormed a.cells.size ∧ k.falsified = 0 ∧ k.Fresh a.trues

/-- The normal form of a statement about valuations, given what is assigned. -/
structure Represents (a : Assignment) (k : Normal κ) (P : Valuation → Prop) : Prop where
  wellFormed : k.WellFormed a
  holds_iff : ∀ ν : Valuation, (∀ l ∈ a.trues, l.holds ν = true) → (k.Holds ν ↔ P ν)

theorem sort_perm (ls : List Literal) : (sort ls).Perm ls := List.mergeSort_perm _ _

theorem pairwise_sort (ls : List Literal) : (sort ls).Pairwise fun l m => l.code ≤ m.code := by
  have h := @List.pairwise_mergeSort _ Literal.le
    (fun l m k hlm hmk => by
      simp only [Literal.le, decide_eq_true_eq] at hlm hmk ⊢
      omega)
    (fun l m => by
      simp only [Literal.le, Bool.or_eq_true, decide_eq_true_eq]
      omega) ls
  exact h.imp fun hlm => of_decide_eq_true hlm

/-! ## Clauses -/

theorem exists_complement {ls : List Literal} (h : hasComplement ls = true) :
    ∃ l ∈ ls, -l ∈ ls := by
  induction ls with
  | nil => cases h
  | cons l ls ih =>
    cases ls with
    | nil => cases h
    | cons m ms =>
      simp only [hasComplement, Bool.or_eq_true, beq_iff_eq] at h
      rcases h with rfl | h
      · refine ⟨-m, List.mem_cons_self, ?_⟩
        rw [Literal.negate_negate]
        exact List.mem_cons_of_mem _ List.mem_cons_self
      · obtain ⟨k, hk, hnk⟩ := ih h
        exact ⟨k, List.mem_cons_of_mem _ hk, List.mem_cons_of_mem _ hnk⟩

/-- Two literals of one variable are neighbours in a strictly sorted list. -/
theorem nodup_var_of_not_hasComplement {ls : List Literal}
    (hs : ls.Pairwise fun l m => l.code < m.code) (h : hasComplement ls = false) :
    (ls.map Literal.var).Nodup := by
  induction ls with
  | nil => exact List.nodup_nil
  | cons l ls ih =>
    obtain ⟨hl, hrest⟩ := List.pairwise_cons.mp hs
    cases ls with
    | nil => exact List.pairwise_singleton _ _
    | cons m ms =>
      simp only [hasComplement, Bool.or_eq_false_iff, beq_eq_false_iff_ne, ne_eq] at h
      refine List.nodup_cons.mpr ⟨fun hmem => ?_, ih hrest h.2⟩
      obtain ⟨k, hk, hkv⟩ := List.mem_map.mp hmem
      have hlk := hl k hk
      have hlm := hl m List.mem_cons_self
      have hmk : m.code ≤ k.code := by
        rcases List.mem_cons.mp hk with rfl | hk
        · exact Nat.le_refl _
        · exact Nat.le_of_lt ((List.pairwise_cons.mp hrest).1 k hk)
      have hcl := l.code_eq
      have hck := k.code_eq
      rw [hkv] at hck
      have hlp : l.isPositive = true := by
        by_contra hp
        simp only [hp] at hcl
        simp only [if_false] at hcl
        split at hck
        · omega
        · omega
      have hkp : k.isPositive = false := by
        by_contra hp
        simp only [hlp, if_true] at hcl
        have hp' : k.isPositive = true := by simpa using hp
        simp only [hp', if_true] at hck
        omega
      simp only [hlp, if_true, Nat.add_zero] at hcl
      simp only [hkp, Bool.false_eq_true, if_false] at hck
      have hmk' : m = k := by
        have : m.code = k.code := by omega
        cases m
        cases k
        simp_all
      refine h.1 (Literal.ext_var ?_ ?_)
      · rw [Literal.var_negate, hmk', hkv]
      · rw [Literal.isPositive_negate, hmk', hkp, hlp]
        rfl

variable {a : Assignment}

theorem ofClause_spec (h : a.Consistent) {ls : List Literal}
    (hk : ∀ l ∈ ls, l.Known a.cells.size) :
    (ofClause a ls : Normal κ).Represents a fun ν => ∃ l ∈ ls, l.holds ν = true := by
  unfold ofClause
  by_cases hany : ls.any a.isSatisfied = true
  · rw [if_pos hany]
    obtain ⟨l, hl, hs⟩ := List.any_eq_true.mp hany
    refine ⟨trivial, fun ν hν => ⟨fun _ => ⟨l, hl, hν l ((h.isSatisfied_iff l).mp hs)⟩,
      fun _ => trivial⟩⟩
  · rw [if_neg hany]
    have hnone : ∀ l ∈ ls, l ∉ a.trues := by
      intro l hl hs
      exact hany (List.any_eq_true.mpr ⟨l, hl, (h.isSatisfied_iff l).mpr hs⟩)
    have hsorted := pairwise_eraseReps (pairwise_sort (ls.filter fun l => !a.isFalsified l))
    have hmem : ∀ l, l ∈ (sort (ls.filter fun l => !a.isFalsified l)).eraseReps ↔
        l ∈ ls ∧ -l ∉ a.trues := by
      intro l
      rw [mem_eraseReps, (sort_perm _).mem_iff, List.mem_filter, ← h.isFalsified_iff]
      simp
    generalize (sort (ls.filter fun l => !a.isFalsified l)).eraseReps = rest at hsorted hmem
    have hiff : ∀ ν : Valuation, (∀ l ∈ a.trues, l.holds ν = true) →
        ((∃ l ∈ rest, l.holds ν = true) ↔ ∃ l ∈ ls, l.holds ν = true) := by
      intro ν hν
      constructor
      · rintro ⟨l, hl, hlν⟩
        exact ⟨l, ((hmem l).mp hl).1, hlν⟩
      · rintro ⟨l, hl, hlν⟩
        refine ⟨l, (hmem l).mpr ⟨hl, fun hn => ?_⟩, hlν⟩
        have := hν _ hn
        rw [Literal.holds_negate, hlν] at this
        cases this
    have hfresh : ∀ l ∈ rest, l.var ∉ a.trues.map Literal.var := by
      intro l hl hv
      obtain ⟨hmem', hn⟩ := (hmem l).mp hl
      rcases Literal.mem_or_negate_mem hv with hs | hs
      · exact hnone l hmem' hs
      · exact hn hs
    dsimp only
    by_cases hcomp : hasComplement rest = true
    · rw [if_pos hcomp]
      obtain ⟨l, hl, hn⟩ := exists_complement hcomp
      refine ⟨trivial, fun ν hν => ⟨fun _ => (hiff ν hν).mp ?_, fun _ => trivial⟩⟩
      cases hlν : l.holds ν with
      | true => exact ⟨l, hl, hlν⟩
      | false => exact ⟨-l, hn, by rw [Literal.holds_negate, hlν]; rfl⟩
    · rw [if_neg hcomp]
      have hnodup := nodup_var_of_not_hasComplement hsorted (by simpa using hcomp)
      match rest with
      | [] => exact ⟨trivial, fun ν hν => by simpa [Holds] using hiff ν hν⟩
      | [l] =>
        refine ⟨fun m hm => hk m ((hmem m).mp hm).1, fun ν hν => ?_⟩
        rw [← hiff ν hν]
        simp [Holds]
      | l :: m :: rest =>
        exact ⟨⟨⟨hnodup, fun k hk' => hk k ((hmem k).mp hk').1⟩, rfl, hfresh⟩, hiff⟩

/-! ## Cardinality constraints -/

/-- The sorted literals of one variable: the positive ones come first. -/
theorem group_eq {group : List Literal} (hs : group.Pairwise fun l m => l.code ≤ m.code) {v : Nat}
    (hv : ∀ l ∈ group, l.var = v) :
    ∃ p n, group = List.replicate p (Literal.make v true) ++
      List.replicate n (Literal.make v false) := by
  induction group with
  | nil => exact ⟨0, 0, rfl⟩
  | cons l ls ih =>
    obtain ⟨hl, hrest⟩ := List.pairwise_cons.mp hs
    obtain ⟨p, n, hls⟩ := ih hrest fun m hm => hv m (List.mem_cons_of_mem _ hm)
    have hlv := hv l List.mem_cons_self
    cases hp : l.isPositive with
    | true =>
      refine ⟨p + 1, n, ?_⟩
      have hl' : l = Literal.make v true := by rw [← hlv, ← hp, Literal.make_var_isPositive]
      rw [hls, hl', List.replicate_succ]
      rfl
    | false =>
      have hl' : l = Literal.make v false := by rw [← hlv, ← hp, Literal.make_var_isPositive]
      cases p with
      | zero =>
        refine ⟨0, n + 1, ?_⟩
        rw [hls, hl', List.replicate_succ]
        rfl
      | succ p =>
        exfalso
        have hle := hl (Literal.make v true) (by simp [hls])
        rw [hl'] at hle
        simp only [Literal.make, if_true, Bool.false_eq_true, if_false] at hle
        omega

/-- The literals of one variable in a sorted list: of the two polarities only the surplus is
left. -/
theorem cancelPairs_replicate (v p n : Nat) :
    cancelPairs (List.replicate p (Literal.make v true) ++
        List.replicate n (Literal.make v false)) =
      (min p n, List.replicate (p - n) (Literal.make v true) ++
        List.replicate (n - p) (Literal.make v false)) := by
  have hpos : (List.replicate p (Literal.make v true) ++
      List.replicate n (Literal.make v false)).countP (·.isPositive) = p := by
    simp [List.countP_append, List.countP_replicate]
  have hneg : (List.replicate p (Literal.make v true) ++
      List.replicate n (Literal.make v false)).length - p = n := by simp
  simp only [cancelPairs, hpos, hneg]
  split
  · rename_i hle
    rw [List.take_append_of_le_length (by simp), List.take_replicate, Nat.min_eq_right hle,
      Nat.min_eq_left (Nat.sub_le p n), Nat.sub_eq_zero_of_le hle, List.replicate_zero,
      List.append_nil]
  · rename_i hlt
    have hle : p ≤ n := by omega
    rw [List.drop_append, List.drop_replicate, List.drop_replicate, List.length_append,
      List.length_replicate, List.length_replicate, Nat.min_eq_left hle, Nat.sub_eq_zero_of_le hle]
    have h₁ : p - (p + n - (n - p)) = 0 := by omega
    have h₂ : n - (p + n - (n - p) - p) = n - p := by omega
    rw [h₁, h₂]

theorem mem_of_mem_cancelPairs {group : List Literal} {l : Literal}
    (h : l ∈ (cancelPairs group).2) : l ∈ group := by
  simp only [cancelPairs] at h
  split at h
  · exact List.mem_of_mem_take h
  · exact List.mem_of_mem_drop h

/-- Of a complementary pair exactly one literal is true. -/
theorem count_cancelPairs (ν : Valuation) (v p n : Nat) :
    let group := List.replicate p (Literal.make v true) ++
      List.replicate n (Literal.make v false)
    ν.count group = (cancelPairs group).1 + ν.count (cancelPairs group).2 := by
  have hcount : ∀ p n, ν.count (List.replicate p (Literal.make v true) ++
      List.replicate n (Literal.make v false)) = if ν v then p else n := by
    intro p n
    simp only [Valuation.count, List.countP_append, List.countP_replicate, Literal.holds,
      Literal.var_make, Literal.isPositive_make]
    cases ν v <;> simp
  simp only [cancelPairs_replicate, hcount]
  split <;> omega

/-- The literals of a sorted list with one variable are next to each other. -/
theorem group_of_mem_splitBy {ls : List Literal} (hs : ls.Pairwise fun l m => l.code ≤ m.code)
    {group : List Literal} (hg : group ∈ ls.splitBy fun l m => l.var == m.var) :
    ∃ v p n, group = List.replicate p (Literal.make v true) ++
      List.replicate n (Literal.make v false) := by
  have hsorted : group.Pairwise fun l m => l.code ≤ m.code := by
    refine hs.sublist ?_
    rw [← List.flatten_splitBy (fun l m => l.var == m.var) ls]
    exact List.sublist_flatten_of_mem hg
  have hvar : group.Pairwise fun l m => l.var = m.var :=
    List.isChain_iff_pairwise.mp
      ((List.isChain_of_mem_splitBy hg).imp fun l m hlm => beq_iff_eq.mp hlm)
  cases group with
  | nil => exact ⟨0, 0, 0, rfl⟩
  | cons k ks =>
    refine ⟨k.var, group_eq hsorted fun l hl => ?_⟩
    rcases List.mem_cons.mp hl with rfl | hl
    · rfl
    · exact ((List.pairwise_cons.mp hvar).1 l hl).symm

/-- Groups of literals lose their complementary pairs. -/
theorem count_groups {groups : List (List Literal)} {pairs : List Literal → Nat × List Literal}
    {ν : Valuation}
    (h : ∀ g ∈ groups, ν.count g = (pairs g).1 + ν.count (pairs g).2) :
    ν.count groups.flatten = (groups.map pairs).foldr (fun c n => c.1 + n) 0 +
      ν.count ((groups.map pairs).map (·.2)).flatten := by
  induction groups with
  | nil => rfl
  | cons g gs ih =>
    have hg := h g List.mem_cons_self
    have hgs := ih fun g' hg' => h g' (List.mem_cons_of_mem _ hg')
    simp only [Valuation.count, List.map_cons, List.flatten_cons, List.countP_append,
      List.foldr_cons] at hg hgs ⊢
    omega

/-- What is counted is true for sure or has no value. -/
theorem count_eq (h : a.Consistent) {ν : Valuation} (hν : ∀ l ∈ a.trues, l.holds ν = true)
    (ls : List Literal) :
    ν.count ls = ls.countP a.isSatisfied + ν.count (ls.filter a.isUnassigned) := by
  induction ls with
  | nil => rfl
  | cons l ls ih =>
    simp only [Valuation.count] at ih ⊢
    by_cases hv : l.var ∈ a.trues.map Literal.var
    · have hun : a.isUnassigned l = false := by
        rw [Bool.eq_false_iff]
        exact fun hu => (h.isUnassigned_iff l).mp hu hv
      rcases Literal.mem_or_negate_mem hv with hl | hl
      · have hs := (h.isSatisfied_iff l).mpr hl
        simp only [List.countP_cons, List.filter_cons, hs, hun, hν l hl, if_true,
          Bool.false_eq_true, if_false]
        omega
      · have hs : a.isSatisfied l = false := by
          rw [Bool.eq_false_iff]
          exact fun hs => h.not_mem_of_negate_mem hl ((h.isSatisfied_iff l).mp hs)
        have hlν : l.holds ν = false := by
          have := hν _ hl
          rw [Literal.holds_negate] at this
          simpa using this
        simp only [List.countP_cons, List.filter_cons, hs, hun, hlν, Bool.false_eq_true, if_false]
        omega
    · have hun := (h.isUnassigned_iff l).mpr hv
      have hs := Assignment.not_isSatisfied_of_isUnassigned hun
      simp only [List.countP_cons, List.filter_cons, hs, hun, Bool.false_eq_true, if_false, if_true]
      omega

/-- What is left of the literals without a value when complementary pairs cancel out. The pairs and
the literals that are true already are counted apart. -/
theorem cancelPairs_spec (h : a.Consistent) {ls : List Literal} {groups : List (List Literal)}
    (hgroups : (sort (ls.filter a.isUnassigned)).splitBy (fun l m => l.var == m.var) = groups) :
    (∀ l ∈ ((groups.map cancelPairs).map (·.2)).flatten, l ∈ ls ∧ a.isUnassigned l = true) ∧
      ∀ ν : Valuation, (∀ l ∈ a.trues, l.holds ν = true) → ν.count ls =
        ls.countP a.isSatisfied + (groups.map cancelPairs).foldr (fun c n => c.1 + n) 0 +
          ν.count ((groups.map cancelPairs).map (·.2)).flatten := by
  have hflat : groups.flatten.Perm (ls.filter a.isUnassigned) := by
    rw [← hgroups, List.flatten_splitBy]
    exact sort_perm _
  have hgroup : ∀ g ∈ groups, ∀ ν : Valuation,
      ν.count g = (cancelPairs g).1 + ν.count (cancelPairs g).2 := by
    intro g hg ν
    rw [← hgroups] at hg
    obtain ⟨v, p, n, rfl⟩ := group_of_mem_splitBy (pairwise_sort _) hg
    exact count_cancelPairs ν v p n
  refine ⟨fun l hl => ?_, fun ν hν => ?_⟩
  · obtain ⟨rest, hrest, hlg⟩ := List.mem_flatten.mp hl
    obtain ⟨c, hc, rfl⟩ := List.mem_map.mp hrest
    obtain ⟨g, hg, rfl⟩ := List.mem_map.mp hc
    exact List.mem_filter.mp (hflat.mem_iff.mp
      (List.mem_flatten.mpr ⟨g, hg, mem_of_mem_cancelPairs hlg⟩))
  · have hperm : ν.count groups.flatten = ν.count (ls.filter a.isUnassigned) := hflat.countP_eq _
    rw [count_eq h hν ls, ← hperm, count_groups fun g hg => hgroup g hg ν, Nat.add_assoc]

theorem ofAtLeast_spec (h : a.Consistent) {ls : List Literal} {degree : Nat}
    (hk : ∀ l ∈ ls, l.Known a.cells.size) :
    (ofAtLeast a ls degree : Normal κ).Represents a fun ν => degree ≤ ν.count ls := by
  unfold ofAtLeast
  dsimp only
  generalize hgroups :
    (sort (ls.filter a.isUnassigned)).splitBy (fun l m => l.var == m.var) = groups
  obtain ⟨hmem, hcount⟩ := cancelPairs_spec h hgroups
  generalize ((groups.map cancelPairs).map (·.2)).flatten = remaining at hmem hcount
  generalize ls.countP a.isSatisfied + (groups.map cancelPairs).foldr (fun c n => c.1 + n) 0 = given
    at hcount
  have hknown : ∀ l ∈ remaining, l.Known a.cells.size := fun l hl => hk l (hmem l hl).1
  split
  · rename_i hle
    refine ⟨trivial, fun ν hν => ⟨fun _ => ?_, fun _ => trivial⟩⟩
    have := hcount ν hν
    omega
  · rename_i hlt
    split
    · rename_i hfew
      refine ⟨trivial, fun ν hν => ⟨False.elim, fun hd => ?_⟩⟩
      have := hcount ν hν
      have : ν.count remaining ≤ remaining.length := List.countP_le_length
      show False
      omega
    · split
      · rename_i hall
        refine ⟨fun l hl => hknown l (mem_eraseReps.mp hl), fun ν hν => ?_⟩
        have hc := hcount ν hν
        have hle : ν.count remaining ≤ remaining.length := List.countP_le_length
        have hlen : ν.count remaining = remaining.length ↔ ∀ l ∈ remaining, l.holds ν = true :=
          List.countP_eq_length
        have hunits : (Normal.units remaining.eraseReps : Normal κ).Holds ν ↔
            ∀ l ∈ remaining, l.holds ν = true :=
          forall_congr' fun l => imp_congr_left mem_eraseReps
        rw [hunits, ← hlen]
        omega
      · split
        · rename_i hone
          obtain ⟨hwf, hiff⟩ := ofClause_spec (κ := κ) h hknown
          refine ⟨hwf, fun ν hν => ?_⟩
          have hpos : 0 < ν.count remaining ↔ ∃ l ∈ remaining, l.holds ν = true :=
            List.countP_pos_iff
          rw [hiff ν hν, ← hpos]
          have := hcount ν hν
          omega
        · refine ⟨⟨⟨?_, hknown⟩, rfl, fun l hl => ?_⟩, fun ν hν => ?_⟩
          · show degree - given ≤ remaining.length
            omega
          · exact (h.isUnassigned_iff l).mp (hmem l hl).2
          · have := hcount ν hν
            show degree - given ≤ ν.count remaining ↔ _
            omega

/-! ## Parity constraints -/

/-- A sorted list begins with all copies of its first number, which are its first group. -/
theorem exists_run {v : Nat} {tail : List Nat} (hs : (v :: tail).Pairwise (· ≤ ·)) :
    ∃ n rest, v :: tail = List.replicate (n + 1) v ++ rest ∧ (∀ u ∈ rest, v < u) ∧
      (v :: tail).splitBy (· == ·) = List.replicate (n + 1) v :: rest.splitBy (· == ·) := by
  have hrun : tail.takeWhile (· == v) = List.replicate (tail.takeWhile (· == v)).length v :=
    List.eq_replicate_of_mem fun u hu => beq_iff_eq.mp (List.all_eq_true.mp List.all_takeWhile u hu)
  generalize hn : (tail.takeWhile (· == v)).length = n at hrun
  generalize hrest : tail.dropWhile (· == v) = rest
  have hsplit : v :: tail = List.replicate (n + 1) v ++ rest := by
    rw [List.replicate_succ, ← hrun, ← hrest, List.cons_append, List.takeWhile_append_dropWhile]
  have hsorted := hs
  rw [hsplit] at hsorted
  obtain ⟨-, hsrest, hcross⟩ := List.pairwise_append.mp hsorted
  have hlt : ∀ u ∈ rest, v < u := by
    cases rest with
    | nil => exact nofun
    | cons w ws =>
      have hwv : w ≠ v := by
        have hhead := List.head?_dropWhile_not (· == v) tail
        rw [hrest] at hhead
        simpa using hhead
      have hvw : v ≤ w := hcross v (List.mem_replicate.mpr ⟨Nat.succ_ne_zero n, rfl⟩) w
        List.mem_cons_self
      have hstrict : v < w := Nat.lt_of_le_of_ne hvw hwv.symm
      exact List.forall_mem_cons.mpr ⟨hstrict, fun u hu =>
        Nat.lt_of_lt_of_le hstrict ((List.pairwise_cons.mp hsrest).1 u hu)⟩
  refine ⟨n, rest, hsplit, hlt, ?_⟩
  have hchain : (List.replicate (n + 1) v).IsChain fun x y => (x == y) = true :=
    List.isChain_iff_pairwise.mpr (List.pairwise_replicate.mpr (Or.inr rfl))
      |>.imp fun x y (hxy : x = y) => beq_iff_eq.mpr hxy
  have hne : List.replicate (n + 1) v ≠ [] := List.cons_ne_nil _ _
  rw [hsplit, List.splitBy_append, List.splitBy_of_isChain hne hchain]
  · rfl
  · intro x hx y hy
    have hxv := List.eq_of_mem_replicate (List.mem_of_mem_getLast? hx)
    have hvy := hlt y (List.mem_of_mem_head? hy)
    rw [hxv, beq_eq_false_iff_ne]
    exact Nat.ne_of_lt hvy

/-- Of a sorted list, one of each number that occurs an odd number of times. -/
theorem oddGroups_spec (n : Nat) : ∀ vs : List Nat, vs.length = n → vs.Pairwise (· ≤ ·) →
    let odds := (vs.splitBy (· == ·)).flatMap fun group =>
      if group.length % 2 = 1 then group.take 1 else []
    odds.Pairwise (· < ·) ∧ (∀ v ∈ odds, v ∈ vs) ∧
      ∀ f : Nat → Bool, odds.countP f % 2 = vs.countP f % 2 := by
  induction n using Nat.strongRecOn with
  | ind n ih =>
    intro vs hlen hs
    cases vs with
    | nil => exact ⟨List.Pairwise.nil, fun v hv => hv, fun f => rfl⟩
    | cons v tail =>
      obtain ⟨k, rest, hsplit, hlt, hgroups⟩ := exists_run hs
      have hshort : rest.length < n := by
        rw [← hlen, hsplit, List.length_append, List.length_replicate]
        omega
      have hsrest : rest.Pairwise (· ≤ ·) := by
        rw [hsplit] at hs
        exact (List.pairwise_append.mp hs).2.1
      obtain ⟨hpair, hmem, hcount⟩ := ih rest.length hshort rest rfl hsrest
      have hmem' : ∀ u, u ∈ rest → u ∈ v :: tail := fun u hu =>
        hsplit ▸ List.mem_append_right _ hu
      have hcount' : ∀ f : Nat → Bool,
          (v :: tail).countP f = (if f v = true then k + 1 else 0) + rest.countP f := fun f => by
        rw [hsplit, List.countP_append, List.countP_replicate]
      dsimp only
      rw [hgroups, List.flatMap_cons, List.length_replicate]
      by_cases hodd : (k + 1) % 2 = 1
      · rw [if_pos hodd, show (List.replicate (k + 1) v).take 1 = [v] from rfl]
        refine ⟨List.pairwise_cons.mpr ⟨fun u hu => hlt u (hmem u hu), hpair⟩,
          List.forall_mem_cons.mpr ⟨List.mem_cons_self, fun u hu => hmem' u (hmem u hu)⟩,
          fun f => ?_⟩
        have hc := hcount f
        rw [hcount' f, List.countP_append, List.countP_singleton]
        split <;> omega
      · rw [if_neg hodd, List.nil_append]
        refine ⟨hpair, fun u hu => hmem' u (hmem u hu), fun f => ?_⟩
        have hc := hcount f
        rw [hcount' f]
        split <;> omega

/-- A literal holds or not by its sign, by the fact about its variable, or by the variable. -/
theorem holds_parity (h : a.Consistent) {ν : Valuation} (hν : ∀ l ∈ a.trues, l.holds ν = true)
    (ls : List Literal) :
    ν.count ls % 2 = (ls.countP (·.isNegative) +
      ls.countP (fun l => a.isSatisfied (Literal.make l.var true)) +
      ((ls.filter a.isUnassigned).map (·.var)).countP ν) % 2 := by
  induction ls with
  | nil => rfl
  | cons l ls ih =>
    simp only [Valuation.count] at ih ⊢
    have hvalue : l.holds ν = (ν l.var == l.isPositive) := rfl
    have hneg : l.isNegative = !l.isPositive := rfl
    by_cases hun : a.isUnassigned l = true
    · have hs : a.isSatisfied (Literal.make l.var true) = false := by
        apply Assignment.not_isSatisfied_of_isUnassigned
        rw [Assignment.isUnassigned, Literal.var_make]
        exact hun
      simp only [List.countP_cons, List.filter_cons, hun, hs, if_true, List.map_cons, hvalue, hneg]
      cases ν l.var <;> cases l.isPositive <;> simp [-List.countP_map] <;> omega
    · have hs : a.isSatisfied (Literal.make l.var true) = ν l.var := by
        have hv : l.var ∈ a.trues.map Literal.var := by
          by_contra hv
          exact hun ((h.isUnassigned_iff l).mpr hv)
        have hmem := Parity.mem_iff_of_holds hv fun m hm _ => hν m hm
        rw [← hmem, Bool.eq_iff_iff, h.isSatisfied_iff, decide_eq_true_eq]
      simp only [List.countP_cons, List.filter_cons, hun, hs, Bool.false_eq_true, if_false, hvalue,
        hneg]
      cases ν l.var <;> cases l.isPositive <;> simp [-List.countP_map] <;> omega

/-- Only variables without a value that occur an odd number of times matter to the parity. -/
theorem oddVars_spec (h : a.Consistent) {ls : List Literal} {vars : List Nat}
    (hvars : ((ls.filter a.isUnassigned).map (·.var)).mergeSort (fun v w => decide (v ≤ w)) =
      vars) :
    let odd := (vars.splitBy (· == ·)).flatMap fun group =>
      if group.length % 2 = 1 then group.take 1 else []
    odd.Pairwise (· < ·) ∧
      (∀ v ∈ odd, ∃ l ∈ ls, l.var = v ∧ l.var ∉ a.trues.map Literal.var) ∧
      ∀ ν : Valuation, (∀ l ∈ a.trues, l.holds ν = true) →
        ν.count ls % 2 = (ls.countP (·.isNegative) +
          ls.countP (fun l => a.isSatisfied (Literal.make l.var true)) + odd.countP ν) % 2 := by
  have hperm : vars.Perm ((ls.filter a.isUnassigned).map (·.var)) := by
    rw [← hvars]
    exact List.mergeSort_perm _ _
  have hsorted : vars.Pairwise (· ≤ ·) := by
    rw [← hvars]
    have hle := @List.pairwise_mergeSort _ (fun v w : Nat => decide (v ≤ w))
      (fun u v w huv hvw => by
        simp only [decide_eq_true_eq] at huv hvw ⊢
        omega)
      (fun v w => by
        simp only [Bool.or_eq_true, decide_eq_true_eq]
        omega) ((ls.filter a.isUnassigned).map (·.var))
    exact hle.imp fun hvw => of_decide_eq_true hvw
  obtain ⟨hpair, hmem, hcount⟩ := oddGroups_spec vars.length vars rfl hsorted
  refine ⟨hpair, fun v hv => ?_, fun ν hν => ?_⟩
  · obtain ⟨l, hl, rfl⟩ := List.mem_map.mp (hperm.mem_iff.mp (hmem v hv))
    obtain ⟨hl, hun⟩ := List.mem_filter.mp hl
    exact ⟨l, hl, rfl, (h.isUnassigned_iff l).mp hun⟩
  · have hparity := holds_parity h hν ls
    rw [← hperm.countP_eq] at hparity
    have hodd := hcount ν
    omega

theorem ofParity_spec (h : a.Consistent) {ls : List Literal} {even : Bool}
    (hk : ∀ l ∈ ls, l.Known a.cells.size) :
    (ofParity a ls even : Normal κ).Represents a fun ν => (ν.count ls % 2 == 0) = even := by
  unfold ofParity
  dsimp only
  generalize hvars : ((ls.filter a.isUnassigned).map (·.var)).mergeSort
    (fun v w => decide (v ≤ w)) = vars
  obtain ⟨hpair, hmem, hcount⟩ := oddVars_spec h hvars
  generalize ((vars.splitBy (· == ·)).flatMap fun group =>
    if group.length % 2 = 1 then group.take 1 else []) = remaining at hpair hmem hcount
  generalize ls.countP (·.isNegative) +
    ls.countP (fun l => a.isSatisfied (Literal.make l.var true)) = flips at hcount
  have hholds : ∀ ν : Valuation, (∀ l ∈ a.trues, l.holds ν = true) →
      (((ν.count ls % 2 == 0) = even) ↔
        (remaining.countP ν % 2 == 1) = (even == (flips % 2 == 1))) := by
    intro ν hν
    rw [hcount ν hν, Nat.add_mod]
    rcases Nat.mod_two_eq_zero_or_one flips with hf | hf <;>
      rcases Nat.mod_two_eq_zero_or_one (remaining.countP ν) with hr | hr <;>
      cases even <;> simp [hf, hr]
  have hvar : ∀ v ∈ remaining, (v ≠ 0 ∧ v < a.cells.size) ∧ v ∉ a.trues.map Literal.var := by
    intro v hv
    obtain ⟨l, hl, rfl, hfree⟩ := hmem v hv
    exact ⟨hk l hl, hfree⟩
  match remaining with
  | [] =>
    dsimp only
    split
    · rename_i hodd
      refine ⟨trivial, fun ν hν => ?_⟩
      rw [hholds ν hν, hodd]
      simp [Holds]
    · rename_i hodd
      refine ⟨trivial, fun ν hν => ?_⟩
      have hodd' : (even == (flips % 2 == 1)) = false := by simpa using hodd
      rw [hholds ν hν, hodd']
      simp [Holds]
  | [v] =>
    refine ⟨fun l hl => ?_, fun ν hν => ?_⟩
    · rw [List.mem_singleton.mp hl]
      simpa [Literal.Known] using (hvar v List.mem_cons_self).1
    · rw [hholds ν hν]
      simp only [Holds, List.mem_singleton, forall_eq, Literal.holds, Literal.var_make,
        Literal.isPositive_make, beq_iff_eq, List.countP_singleton]
      cases ν v <;> simp
  | v :: w :: vs =>
    refine ⟨⟨⟨?_, fun u hu => (hvar u hu).1⟩, rfl, fun u hu => (hvar u hu).2⟩,
      fun ν hν => (hholds ν hν).symm⟩
    exact hpair.imp fun hlt => Nat.ne_of_lt hlt

end Normal

/-! ## Descriptions -/

namespace Description

/-- A constraint of the library's own over variables that the assignment has cells for. -/
def Known (size : Nat) : Description κ → Prop
  | .clause ls => ∀ l ∈ ls, l.Known size
  | .atLeast ls _ => ∀ l ∈ ls, l.Known size
  | .parity ls _ => ∀ l ∈ ls, l.Known size
  | .custom _ => False

theorem normalise_spec {a : Assignment} (h : a.Consistent) {d : Description κ}
    (hk : d.Known a.cells.size) : (d.normalise a).Represents a fun ν => d.Holds ν := by
  cases d with
  | clause ls => exact Normal.ofClause_spec h hk
  | atLeast ls degree => exact Normal.ofAtLeast_spec h hk
  | parity ls even => exact Normal.ofParity_spec h hk
  | custom c => exact hk.elim

/-- What is attached for a description leaves every choice. -/
theorem wellFormed_of_normalise {a : Assignment} (h : a.Consistent) {d : Description κ} {k : Kind κ}
    (hd : d.Known a.cells.size) (hk : d.normalise a = .constraint k) :
    k.WellFormed a.cells.size ∧ k.falsified = 0 ∧ k.Fresh a.trues := by
  have hwf := (normalise_spec h hd).wellFormed
  rwa [hk] at hwf

end Description

end ClauseLearning
