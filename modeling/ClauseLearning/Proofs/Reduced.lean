import ClauseLearning.Proofs.NormalForms

/-!
# Normal forms are reduced

A normal form says what its description says, and nothing is left in it that could be simplified:
all of its variables are open, no literal stands next to its negation, and it takes at least two
literals to decide it.

* `pairwise_splitBy`: of a sorted list, a later group has larger keys.
* `Normal.negate_not_mem_surplus`: what cancelling leaves of a sorted list.
* `Description.reduced_normalise`: the shape of every normal form.
* `Description.normalise_reduces`: meaning and shape, also of at-most and exactly constraints.
-/

namespace ClauseLearning

variable {κ : Type}

/-- The groups of a sorted list are sorted. -/
theorem pairwise_splitBy {α : Type} (key : α → Nat) {xs : List α}
    (h : xs.Pairwise fun x y => key x ≤ key y) :
    (xs.splitBy fun x y => key x == key y).Pairwise fun g g' =>
      ∀ x ∈ g, ∀ y ∈ g', key x < key y := by
  have hrefl : Std.Refl fun x y : α => key x ≤ key y := ⟨fun x => Nat.le_refl (key x)⟩
  have hchain := List.isChain_getLast_head_splitBy (fun x y => key x == key y) xs
  rw [← List.flatten_splitBy (fun x y => key x == key y) xs] at h
  generalize xs.splitBy (fun x y => key x == key y) = groups at h hchain
  induction groups with
  | nil => exact .nil
  | cons g gs ih =>
    rw [List.flatten_cons, List.pairwise_append] at h
    obtain ⟨hg, hgs, hcross⟩ := h
    refine List.pairwise_cons.mpr ⟨fun g' hg' x hx y hy => ?_, ih hgs hchain.tail⟩
    cases gs with
    | nil => cases hg'
    | cons k ks =>
      -- The last key of `g` differs from the first key of the next group, which bounds all others.
      obtain ⟨hgne, hkne, hdiffer⟩ := (List.isChain_cons_cons.mp hchain).1
      rw [List.flatten_cons] at hgs hcross
      have hlast : key x ≤ key (g.getLast hgne) := hg.rel_getLast hx
      have hle : key (g.getLast hgne) ≤ key (k.head hkne) :=
        hcross _ (List.getLast_mem hgne) _ (List.mem_append_left _ (List.head_mem hkne))
      have hne : key (g.getLast hgne) ≠ key (k.head hkne) := beq_eq_false_iff_ne.mp hdiffer
      have hhead : key (k.head hkne) ≤ key y := by
        rw [List.pairwise_append] at hgs
        rcases List.mem_cons.mp hg' with rfl | hg'
        · exact hgs.1.rel_head hy
        · exact hgs.2.2 _ (List.head_mem hkne) _ (List.mem_flatten.mpr ⟨g', hg', hy⟩)
      omega

namespace Normal

/-- There is nothing left to simplify. -/
def Reduced (a : Assignment) : Normal κ → Prop
  | .constraint (.clause c) => 2 ≤ c.literals.length ∧ (c.literals.map Literal.var).Nodup ∧
      ∀ l ∈ c.literals, a.isUnassigned l = true
  | .constraint (.cardinality c) => 2 ≤ c.degree ∧ c.degree < c.literals.length ∧
      (∀ l ∈ c.literals, -l ∉ c.literals) ∧ ∀ l ∈ c.literals, a.isUnassigned l = true
  | .constraint (.parity c) => 2 ≤ c.literals.length ∧ c.literals.Nodup ∧
      ∀ l ∈ c.literals, l.isPositive = true ∧ a.isUnassigned l = true
  | _ => True

/-! ## Cancelling -/

/-- What is left of one variable has one polarity. -/
theorem negate_not_mem_cancelPairs {l : Literal} (v p n : Nat)
    (h : l ∈ (cancelPairs (List.replicate p (Literal.make v true) ++
      List.replicate n (Literal.make v false))).2) :
    -l ∉ (cancelPairs (List.replicate p (Literal.make v true) ++
      List.replicate n (Literal.make v false))).2 := by
  rw [cancelPairs_replicate] at h ⊢
  have hopposite : ∀ b : Bool, l = Literal.make v b → -l = Literal.make v !b := by
    rintro b rfl
    exact Literal.ext_var (by simp) (by simp)
  simp only [List.mem_append, List.mem_replicate] at h ⊢
  rcases h with ⟨hp, rfl⟩ | ⟨hn, rfl⟩
  · rintro (⟨-, heq⟩ | ⟨hn, -⟩)
    · exact Literal.negate_ne _ heq
    · omega
  · rintro (⟨hp, -⟩ | ⟨-, heq⟩)
    · omega
    · exact Literal.negate_ne _ heq

/-- Of a sorted list, no literal is left together with its negation. -/
theorem negate_not_mem_surplus {ls : List Literal} (hs : ls.Pairwise fun l m => l.code ≤ m.code)
    {l : Literal}
    (h : l ∈ (((ls.splitBy fun l m => l.var == m.var).map cancelPairs).map (·.2)).flatten) :
    -l ∉ (((ls.splitBy fun l m => l.var == m.var).map cancelPairs).map (·.2)).flatten := by
  have hvars : ls.Pairwise fun l m => l.var ≤ m.var :=
    hs.imp fun hle => Nat.div_le_div_right hle
  have hgroups := pairwise_splitBy Literal.var hvars
  have hmem : ∀ k ∈ (((ls.splitBy fun l m => l.var == m.var).map cancelPairs).map (·.2)).flatten,
      ∃ g ∈ ls.splitBy fun l m => l.var == m.var, k ∈ (cancelPairs g).2 := by
    intro k hk
    obtain ⟨_, hrest, hkg⟩ := List.mem_flatten.mp hk
    obtain ⟨_, hc, rfl⟩ := List.mem_map.mp hrest
    obtain ⟨g, hg, rfl⟩ := List.mem_map.mp hc
    exact ⟨g, hg, hkg⟩
  intro hneg
  obtain ⟨g, hg, hlg⟩ := hmem l h
  obtain ⟨g', hg', hlg'⟩ := hmem (-l) hneg
  have hsame : g = g' := by
    by_contra hne
    have hdiffer : ∀ x ∈ g, ∀ y ∈ g', x.var ≠ y.var :=
      List.Pairwise.forall_of_forall_of_flip
        (R := fun g g' => g ≠ g' → ∀ x ∈ g, ∀ y ∈ g', x.var ≠ y.var)
        (fun _ _ hne => absurd rfl hne)
        (hgroups.imp fun hlt _ x hx y hy => Nat.ne_of_lt (hlt x hx y hy))
        (hgroups.imp fun hlt _ x hx y hy => Nat.ne_of_gt (hlt y hy x hx)) hg hg' hne
    exact hdiffer l (mem_of_mem_cancelPairs hlg) (-l) (mem_of_mem_cancelPairs hlg')
      (Literal.var_negate l).symm
  subst hsame
  obtain ⟨v, p, n, rfl⟩ := group_of_mem_splitBy hs hg
  exact negate_not_mem_cancelPairs v p n hlg hlg'

/-! ## Shapes -/

theorem ofClause_ne_cardinality (a : Assignment) (ls : List Literal) (c : Cardinality) :
    (ofClause a ls : Normal κ) ≠ .constraint (.cardinality c) := by
  unfold ofClause
  dsimp only
  split
  · exact nofun
  · split
    · exact nofun
    · split <;> exact nofun

theorem ofParity_ne_cardinality (a : Assignment) (ls : List Literal) (even : Bool)
    (c : Cardinality) : (ofParity a ls even : Normal κ) ≠ .constraint (.cardinality c) := by
  unfold ofParity
  dsimp only
  split
  · split <;> exact nofun
  · exact nofun
  · exact nofun

/-- A cardinality constraint takes more than one literal and fewer than all of them, and was told of
nothing. -/
theorem ofAtLeast_cardinality {a : Assignment} {ls : List Literal} {degree : Nat} {c : Cardinality}
    (h : (ofAtLeast a ls degree : Normal κ) = .constraint (.cardinality c)) :
    c.falsified = 0 ∧
      2 ≤ c.degree ∧ c.degree < c.literals.length ∧ ∀ l ∈ c.literals, -l ∉ c.literals := by
  unfold ofAtLeast at h
  dsimp only at h
  split at h
  · cases h
  · rename_i hgiven
    split at h
    · cases h
    · rename_i hfew
      split at h
      · cases h
      · rename_i hall
        split at h
        · exact absurd h (ofClause_ne_cardinality _ _ _)
        · rename_i hone
          cases h
          exact ⟨rfl, by dsimp only; omega, by dsimp only; omega,
            fun l hl => negate_not_mem_surplus (pairwise_sort _) hl⟩

end Normal

namespace Description

/-- What is made of a description was told of nothing. -/
theorem falsified_normalise {a : Assignment} {d : Description κ} {k : Kind κ}
    (h : d.normalise a = .constraint k) : k.falsified = 0 := by
  cases k with
  | cardinality c =>
    cases d with
    | clause ls => exact absurd h (Normal.ofClause_ne_cardinality _ _ _)
    | atLeast ls degree => exact (Normal.ofAtLeast_cardinality h).1
    | parity ls even => exact absurd h (Normal.ofParity_ne_cardinality _ _ _ _)
    | custom c => cases h
  | _ => rfl

/-- The shape of a normal form. -/
theorem reduced_normalise {a : Assignment} (h : a.Consistent) {d : Description κ}
    (hk : d.Known a.cells.size) : (d.normalise a).Reduced a := by
  have hopen : ∀ {l : Literal}, l.var ∉ a.trues.map Literal.var → a.isUnassigned l = true :=
    fun {l} hl => (h.isUnassigned_iff l).mpr hl
  have hwell := (normalise_spec h hk).wellFormed
  cases hn : d.normalise a with
  | satisfied => trivial
  | unsatisfiable => trivial
  | units ls => trivial
  | constraint k =>
    rw [hn] at hwell
    obtain ⟨hk', -, hfresh⟩ := hwell
    cases k with
    | clause c => exact ⟨Nat.le_add_left 2 _, hk'.1, fun l hl => hopen (hfresh l hl)⟩
    | cardinality c =>
      have hcard : 2 ≤ c.degree ∧ c.degree < c.literals.length ∧
          ∀ l ∈ c.literals, -l ∉ c.literals := by
        cases d with
        | clause ls => exact absurd hn (Normal.ofClause_ne_cardinality _ _ _)
        | atLeast ls degree => exact (Normal.ofAtLeast_cardinality hn).2
        | parity ls even => exact absurd hn (Normal.ofParity_ne_cardinality _ _ _ _)
        | custom c => exact hk.elim
      exact ⟨hcard.1, hcard.2.1, hcard.2.2, fun l hl => hopen (hfresh l hl)⟩
    | parity c =>
      refine ⟨?_, ?_, fun l hl => ?_⟩
      · rw [Parity.literals, List.length_map]
        exact Nat.le_add_left 2 _
      · refine List.Pairwise.map _ (fun v w hvw heq => hvw ?_) hk'.1
        rw [← Literal.var_make v true, heq, Literal.var_make]
      · obtain ⟨v, hv, rfl⟩ := List.mem_map.mp hl
        exact ⟨Literal.isPositive_make v true, hopen (by rw [Literal.var_make]; exact hfresh v hv)⟩
    | custom c => trivial

/-- A normal form means what its description means where the facts hold, for every kind of
constraint, and is reduced. -/
theorem normalise_reduces {a : Assignment} (h : a.Consistent) :
    (∀ d : Description κ, d.Known a.cells.size → (d.normalise a).Reduced a ∧
      ∀ ν : Valuation, (∀ l ∈ a.trues, l.holds ν = true) →
        ((d.normalise a).Holds ν ↔ d.Holds ν)) ∧
    ∀ (ls : List Literal) (degree : Nat), (∀ l ∈ ls, l.Known a.cells.size) →
      ∀ ν : Valuation, (∀ l ∈ a.trues, l.holds ν = true) →
        (((atMost ls degree : Description κ).normalise a).Holds ν ↔ ν.count ls ≤ degree) ∧
        (ν.count ls ≤ degree ↔ ls.length - degree ≤ ν.count (ls.map (-·))) ∧
        ((∀ d ∈ (exactly ls degree : List (Description κ)), (d.normalise a).Holds ν) ↔
          ν.count ls = degree) := by
  refine ⟨fun d hk => ⟨reduced_normalise h hk, (normalise_spec h hk).holds_iff⟩,
    fun ls degree hk ν hν => ?_⟩
  have hnegated : (atMost ls degree : Description κ).Known a.cells.size := by
    intro m hm
    obtain ⟨l, hl, rfl⟩ := List.mem_map.mp hm
    exact (hk l hl).negate
  have hmost : ((atMost ls degree : Description κ).normalise a).Holds ν ↔ ν.count ls ≤ degree :=
    ((normalise_spec h hnegated).holds_iff ν hν).trans (holds_atMost ν ls degree)
  have hleast : ((atLeast ls degree : Description κ).normalise a).Holds ν ↔
      degree ≤ ν.count ls :=
    (normalise_spec (d := .atLeast ls degree) h hk).holds_iff ν hν
  refine ⟨hmost, (holds_atMost (κ := κ) ν ls degree).symm, ?_⟩
  rw [exactly, List.forall_mem_cons, List.forall_mem_singleton, hleast, hmost]
  omega

/-- Variable 5 is true; a variable with both signs and two repetitions stand in the list. -/
theorem normalise_reduces_of_repetitions :
    let a := (Assignment.empty.grow 5).assign (.make 5 true) none
    let ls : List Literal := [.make 2 true, .make 1 true, .make 5 true, .make 1 false,
      .make 3 false, .make 1 true, .make 2 true, .make 4 true]
    ((atLeast ls 4 : Description Empty).normalise a).Reduced a ∧
    (∀ ν : Valuation, ν 5 = true →
      (((atLeast ls 4 : Description Empty).normalise a).Holds ν ↔ 4 ≤ ν.count ls)) ∧
    ∀ ν : Valuation, ν 5 = true →
      ((∀ d ∈ (exactly ls 9 : List (Description Empty)), (d.normalise a).Holds ν) ↔
        ν.count ls = 9) := by
  intro a ls
  have hempty : (Assignment.empty.grow 5).Consistent :=
    (Assignment.consistent_of_cells_none (fun v => rfl) rfl).grow 5
  have ha : a.Consistent := hempty.assign (by decide) none (by decide) (by decide) (by decide)
  have hk : ∀ l ∈ ls, l.var ≠ 0 ∧ l.var < a.cells.size := by decide
  have hfacts : ∀ ν : Valuation, ν 5 = true → ∀ l ∈ a.trues, l.holds ν = true := by
    intro ν hν l hl
    rw [List.mem_singleton.mp hl, Literal.holds, Literal.var_make, hν]
    rfl
  obtain ⟨hall, hcounts⟩ := normalise_reduces (κ := Empty) ha
  obtain ⟨hreduced, hholds⟩ := hall (.atLeast ls 4) hk
  exact ⟨hreduced, fun ν hν => hholds ν (hfacts ν hν),
    fun ν hν => (hcounts ls 9 hk ν (hfacts ν hν)).2.2⟩

end Description

end ClauseLearning
