import ClauseLearning.Proofs.Settling
import ClauseLearning.Proofs.Watching

/-!
# Visits

A constraint is visited when one of the literals it waits for became true. Whatever its kind, it
then acts in its own name only: it watches again, forces literals that it explains, and counts the
report if it counts any (`Kind.Visit`). If the visit succeeds the constraint has seen the literal;
if it does not, the trail violates the constraint.

* `Clause.visit_propagate`, `Cardinality.visit_propagate`, `Parity.visit_propagate`: the three
  kinds.
* `Constraint.visit_propagate`: a visit of any constraint that is well formed.
-/

namespace ClauseLearning

variable {κ : Type}

namespace Kind

/-- How many reports a visit makes the constraint count. -/
def tally : Kind κ → Nat
  | .cardinality _ => 1
  | _ => 0

theorem tally_le_one (k : Kind κ) : k.tally ≤ 1 := by
  cases k with
  | cardinality c => exact Nat.le_refl 1
  | clause c => exact Nat.zero_le 1
  | parity c => exact Nat.zero_le 1
  | custom c => exact Nat.zero_le 1

theorem Similar.tally_eq {k k' : Kind κ} (h : k.Similar k') : k'.tally = k.tally := by
  cases k <;> cases k' <;> first | rfl | exact h.elim

/-- Every watcher of a constraint that counts stands for one report. -/
theorem tally_mul_count_watched (k : Kind κ) (p : Literal) :
    k.tally * k.watched.count p = k.reports (-p) := by
  cases k with
  | cardinality c =>
    rw [tally, watched, reports, Nat.one_mul]
    induction c.literals with
    | nil => rfl
    | cons l ls ih =>
      have hiff : -l = p ↔ l = -p := by
        constructor
        · rintro rfl
          exact (Literal.negate_negate l).symm
        · rintro rfl
          exact Literal.negate_negate p
      simp only [List.map_cons, List.count_cons, ih, beq_iff_eq, hiff]
  | clause c => exact Nat.zero_mul _
  | parity c => exact Nat.zero_mul _
  | custom c => exact Nat.zero_mul _

/-- A cardinality constraint that counted as many false literals as there may be has no literal
without a value. -/
def Full (trues : List Literal) : Kind κ → Prop
  | .cardinality c => c.falsified = c.slack → ∀ l ∈ c.literals, l.var ∈ trues.map Literal.var
  | _ => True

/-- The constraint is about to be visited as `r` because `p` became true. One of its watchers of `p`
was taken out of the lists. -/
structure Due (r : Reference) (p : Literal) (k : Kind κ) (b : Board) : Prop where
  consistent : b.assignment.Consistent
  starts_le : ∀ m ∈ b.assignment.levelStarts.toList, m ≤ b.assignment.trues.length
  sized : b.watches.Sized b.assignment.cells.size
  wellFormed : k.WellFormed b.assignment.cells.size
  mem : p ∈ b.assignment.trues
  waits : p ∈ k.watched
  registered : ∀ l, l ≠ p → b.watches.numWatchers r l = k.watched.count l
  counted : ∀ c, k = .cardinality c → c.falsified + 1 ≤ numFalse b.assignment.trues c.literals

/-- What a visit leaves behind. -/
structure Visit (r : Reference) (p : Literal) (k : Kind κ) (b : Board) (ok : Bool) (k' : Kind κ)
    (b' : Board) : Prop where
  similar : k.Similar k'
  extension : b.assignment.Extension b'.assignment
  consistent : b'.assignment.Consistent
  /-- What is new on the trail was forced by the constraint. -/
  forced : ∀ {i l}, b.assignment.trues.length ≤ i → b'.assignment.trues[i]? = some l →
    b'.assignment.reason? l.var = some r ∧ k'.Explains (b'.assignment.trues.take i) l
  /-- What the constraint explained before it still explains. -/
  keeps : ∀ {before l}, (∀ m ∈ before, m ∈ b.assignment.trues) → l ∈ b.assignment.trues →
    k.Explains before l → k'.Explains before l
  sized : b'.watches.Sized b.assignment.cells.size
  registered : ∀ l, b'.watches.numWatchers r l + k.watched.count l =
    b.watches.numWatchers r l + k'.watched.count l + if l = p then 1 else 0
  others : ∀ q, q ≠ r → ∀ l, b'.watches.numWatchers q l = b.watches.numWatchers q l
  entries : ∀ {l e}, e ∈ b'.watches.watchersOf l → e ∈ b.watches.watchersOf l ∨
    e.constraint = r ∧ ∀ m ∈ e.blocker, k'.Blocks m
  numUndos : ∀ v q, b'.watches.numUndos v q =
    b.watches.numUndos v q + if v = p.var ∧ q = r then k.tally else 0
  notified : ∀ q, (b'.watches.notified q).length =
    (b.watches.notified q).length + if q = r then k.tally else 0
  falsified : k'.falsified = k.falsified + k.tally
  within : ok = true → k'.Within
  violated : ok = false → k'.Violated b'.assignment.trues
  /-- The literal does not matter to the part of the trail before it. -/
  still : ∀ {trues seen told}, (∀ x ∈ seen, x ∈ b.assignment.trues) → p ∉ seen →
    k.Settled trues seen told → k'.Settled trues seen told
  settles : ok = true → k.tally = 0 → ∀ {seen told}, (∀ x ∈ seen, x ∈ b.assignment.trues) →
    k.Settled b.assignment.trues seen told → k'.Settled b'.assignment.trues (seen ++ [p]) told

/-- A visit may begin by putting the literals into another order. -/
theorem Visit.of_reordered {r : Reference} {p : Literal} {k d k' : Kind κ} {b b' : Board}
    {ok : Bool} (h : d.Visit r p b ok k' b') (hsim : k.Similar d)
    (hwatched : ∀ l, k.watched.count l = d.watched.count l) (htally : k.tally = d.tally)
    (hfalsified : k.falsified = d.falsified)
    (hsettled : ∀ {trues seen told}, k.Settled trues seen told → d.Settled trues seen told)
    (hexplains : ∀ {before l}, (∀ m ∈ before, m ∈ b.assignment.trues) → l ∈ b.assignment.trues →
      k.Explains before l → d.Explains before l) : k.Visit r p b ok k' b' where
  similar := hsim.trans h.similar
  extension := h.extension
  consistent := h.consistent
  forced := h.forced
  keeps := fun hb hl he => h.keeps hb hl (hexplains hb hl he)
  sized := h.sized
  registered := fun l => by rw [hwatched]; exact h.registered l
  others := h.others
  entries := h.entries
  numUndos := fun v q => by rw [htally]; exact h.numUndos v q
  notified := fun q => by rw [htally]; exact h.notified q
  falsified := by rw [htally, hfalsified]; exact h.falsified
  within := h.within
  violated := h.violated
  still := fun {_ _ _} hs hp hk => h.still hs hp (hsettled hk)
  settles := fun hok ht {_ _} hs hk => h.settles hok (htally ▸ ht) hs (hsettled hk)

/-- What a visit does to the lists of watchers. -/
structure Rewatches (r : Reference) (p : Literal) (k k' : Kind κ) (n : Nat) (w w' : Watches) :
    Prop where
  sized : w'.Sized n
  registered : ∀ l, w'.numWatchers r l + k.watched.count l =
    w.numWatchers r l + k'.watched.count l + if l = p then 1 else 0
  others : ∀ q, q ≠ r → ∀ l, w'.numWatchers q l = w.numWatchers q l
  entries : ∀ {l e}, e ∈ w'.watchersOf l → e ∈ w.watchersOf l ∨
    e.constraint = r ∧ ∀ m ∈ e.blocker, k'.Blocks m

/-- The constraint asks to be visited again when `p` becomes true. -/
theorem Rewatches.stay {r : Reference} {p : Literal} {k k' : Kind κ} {n : Nat} {w : Watches}
    {blocker : Option Literal} (hs : w.Sized n) (hp : p.var < n) (hwatched : k'.watched = k.watched)
    (hblocks : ∀ m ∈ blocker, k'.Blocks m) : Rewatches r p k k' n w (w.add p ⟨r, blocker⟩) where
  sized := hs.add _ _
  registered := by
    intro l
    rw [Watches.numWatchers_add hs hp, hwatched]
    by_cases hl : p = l
    · subst hl
      simp only [and_self, if_true]
      exact Nat.add_right_comm _ _ _
    · have hlp : ¬ l = p := fun h => hl h.symm
      simp only [hl, hlp, false_and, if_false, Nat.add_zero]
  others := by
    intro q hq l
    have hr : ¬ (p = l ∧ r = q) := fun h => hq h.2.symm
    rw [Watches.numWatchers_add hs hp, if_neg hr, Nat.add_zero]
  entries := by
    intro l e he
    rcases Watches.mem_watchersOf_add hs hp he with he | rfl
    · exact Or.inl he
    · exact Or.inr ⟨rfl, hblocks⟩

end Kind

theorem Board.enqueue_eq (r : Option Reference) (l : Literal) (b : Board) :
    b.enqueue r l = ((b.assignment.enqueue l r).1, ⟨(b.assignment.enqueue l r).2, b.watches⟩) := rfl

/-! ## Clauses -/

namespace Clause

variable {c : Clause} {p : Literal}

theorem faceFalse_literals_perm (c : Clause) (l : Literal) :
    c.literals.Perm (c.faceFalse l).literals := by
  unfold faceFalse
  split
  · exact List.Perm.swap _ _ _
  · exact List.Perm.refl _

/-- The literal that became false comes second, and it does not come first too. -/
theorem second_faceFalse (hnodup : (c.literals.map Literal.var).Nodup)
    (hp : p ∈ (Kind.clause c : Kind κ).watched) :
    (c.faceFalse (-p)).second = -p ∧ (c.faceFalse (-p)).first ≠ -p := by
  simp only [Kind.watched, List.mem_cons, List.not_mem_nil, or_false] at hp
  have hne : c.first.var ≠ c.second.var := by
    simp only [literals, List.map_cons, List.nodup_cons, List.mem_cons, not_or] at hnodup
    exact hnodup.1.1
  unfold faceFalse
  split
  · rename_i hfirst
    refine ⟨hfirst, fun hsecond => hne ?_⟩
    rw [hfirst, ← hsecond]
  · rename_i hfirst
    refine ⟨?_, hfirst⟩
    rcases hp with rfl | rfl
    · exact absurd (Literal.negate_negate _).symm hfirst
    · exact (Literal.negate_negate _).symm

section

variable {r : Reference} {d : Clause} {a : Assignment} {w : Watches}

/-- A visit that keeps the watches: the first literal is true, or the only one that is left. -/
theorem visit_stay (h : (Kind.clause d : Kind κ).Due r p ⟨a, w⟩) {ok : Bool} {a' : Assignment}
    (he : a.Enqueued d.first (some r) ok a')
    (hfalse : (∀ m ∈ d.second :: d.rest, -m ∈ a.trues) ∨ a' = a ∧ ok = true) :
    (Kind.clause d : Kind κ).Visit r p ⟨a, w⟩ ok (.clause d)
      ⟨a', w.add p ⟨r, some d.first⟩⟩ := by
  have hmem : d.first ∈ d.literals := List.mem_cons_self
  have hblocks : ∀ m ∈ some d.first, (Kind.clause d : Kind κ).Blocks m := by
    intro m hm
    cases hm
    exact hmem
  have hwatches : Kind.Rewatches r p (.clause d) (.clause d : Kind κ) _ w _ :=
    .stay h.sized (h.consistent.var_lt h.mem) rfl hblocks
  exact {
    similar := .refl _
    extension := he.extension
    consistent := he.consistent
    forced := by
      intro i l hi hl
      obtain ⟨rfl, htake, hreason⟩ := he.fresh hi hl
      refine ⟨hreason, rfl, ?_⟩
      rcases hfalse with hfalse | ⟨rfl, -⟩
      · rw [htake]
        exact hfalse
      · rw [List.getElem?_eq_none hi] at hl
        cases hl
    keeps := fun _ _ h => h
    sized := hwatches.sized
    registered := hwatches.registered
    others := hwatches.others
    entries := hwatches.entries
    numUndos := fun v q => by simp [Kind.tally]; rfl
    notified := fun q => by simp [Kind.tally]; rfl
    falsified := rfl
    within := fun _ => trivial
    violated := by
      intro hok
      obtain ⟨hf, rfl⟩ := he.falsified hok
      rcases hfalse with hfalse | ⟨-, htrue⟩
      · intro l hl
        rcases List.mem_cons.mp hl with rfl | hl
        · exact hf
        · exact hfalse l hl
      · rw [hok] at htrue
        cases htrue
    still := fun _ _ h => h
    settles := fun hok _ {_ _} _ _ _ _ _ => ⟨d.first, hmem, he.mem hok⟩ }

theorem rewatches_exchange {n : Nat} (hs : w.Sized n) {l : Literal} {rest : List Literal}
    (hl : (-l).var < n) (hsecond : d.second = -p) :
    Kind.Rewatches r p (.clause d) (.clause ⟨d.first, l, rest⟩ : Kind κ) n w
      (w.add (-l) ⟨r, some d.first⟩) where
  sized := hs.add _ _
  registered := by
    intro m
    rw [Watches.numWatchers_add hs hl]
    simp only [Kind.watched, hsecond, Literal.negate_negate, List.count_cons, List.count_nil,
      beq_iff_eq, eq_comm (b := m), and_true]
    omega
  others := by
    intro q hq m
    have hr : ¬ (-l = m ∧ r = q) := fun h => hq h.2.symm
    rw [Watches.numWatchers_add hs hl, if_neg hr, Nat.add_zero]
  entries := by
    intro m e he
    rcases Watches.mem_watchersOf_add hs hl he with he | rfl
    · exact Or.inl he
    · refine Or.inr ⟨rfl, ?_⟩
      intro x hx
      cases hx
      exact List.mem_cons_self

/-- A visit that watches another literal in the place of the one that became false. -/
theorem visit_exchange (h : (Kind.clause d : Kind κ).Due r p ⟨a, w⟩) (hsecond : d.second = -p)
    (hfirst : d.first ≠ -p) (hopen : d.first ∉ a.trues) {l : Literal} {rest : List Literal}
    (hperm : (l :: rest).Perm (d.second :: d.rest)) (hl : -l ∉ a.trues) :
    (Kind.clause d : Kind κ).Visit r p ⟨a, w⟩ true (.clause ⟨d.first, l, rest⟩)
      ⟨a, w.add (-l) ⟨r, some d.first⟩⟩ := by
  have hlmem : l ∈ d.literals := List.mem_cons_of_mem _ (hperm.mem_iff.mp List.mem_cons_self)
  have hwatches : Kind.Rewatches r p (.clause d) (.clause ⟨d.first, l, rest⟩ : Kind κ) _ w _ :=
    rewatches_exchange h.sized (h.wellFormed.2 l hlmem).negate.2 hsecond
  have hsim : d.literals.Perm (Clause.mk d.first l rest).literals := (hperm.cons _).symm
  -- What was seen are literals of the trail, and `l` is not false there.
  have hsettled : ∀ {trues seen told}, (∀ x ∈ seen, x ∈ a.trues) →
      (Kind.clause d : Kind κ).Settled trues seen told →
      (Kind.clause ⟨d.first, l, rest⟩ : Kind κ).Settled trues seen told := by
    intro trues seen told hseen hset x hx hxs
    simp only [List.mem_cons, List.not_mem_nil, or_false] at hx
    rcases hx with rfl | rfl
    · obtain ⟨y, hy, hyt⟩ := hset d.first List.mem_cons_self hxs
      exact ⟨y, hsim.mem_iff.mp hy, hyt⟩
    · exact absurd (hseen _ hxs) hl
  exact {
    similar := hsim
    extension := .refl a
    consistent := h.consistent
    forced := by
      intro i m hi hm
      have hnone : a.trues[i]? = none := List.getElem?_eq_none hi
      rw [show a.trues[i]? = some m from hm] at hnone
      cases hnone
    keeps := fun _ hm he => absurd (he.1 ▸ hm) hopen
    sized := hwatches.sized
    registered := hwatches.registered
    others := hwatches.others
    entries := hwatches.entries
    numUndos := fun v q => by simp [Kind.tally]; rfl
    notified := fun q => by simp [Kind.tally]; rfl
    falsified := rfl
    within := fun _ => trivial
    violated := nofun
    still := fun hseen _ => hsettled hseen
    settles := by
      intro _ _ seen told hseen hset x hx hxs
      refine hsettled hseen hset x hx ?_
      rcases List.mem_append.mp hxs with hxs | hxs
      · exact hxs
      · exfalso
        have hxp := List.mem_singleton.mp hxs
        simp only [List.mem_cons, List.not_mem_nil, or_false] at hx
        rcases hx with rfl | rfl
        · apply hfirst
          rw [← hxp, Literal.negate_negate]
        · exact hl (hxp ▸ h.mem) }

/-- A visit of a clause whose false watch is the second one. -/
theorem visit_of_faced (h : (Kind.clause d : Kind κ).Due r p ⟨a, w⟩) (hsecond : d.second = -p)
    (hfirst : d.first ≠ -p) {ok : Bool} {d' : Clause} {b' : Board}
    (hd : c.faceFalse (-p) = d) (hrun : c.propagate r p ⟨a, w⟩ = (ok, d', b')) :
    (Kind.clause d : Kind κ).Visit r p ⟨a, w⟩ ok (.clause d') b' := by
  have hc : a.Consistent := h.consistent
  simp only [propagate, hd, Board.enqueue_eq, Board.watch] at hrun
  split at hrun
  · rename_i hsat
    cases hrun
    exact visit_stay h (.of_mem hc ((hc.isSatisfied_iff _).mp hsat)) (Or.inr ⟨rfl, rfl⟩)
  · rename_i hsat
    rw [hc.isSatisfied_iff] at hsat
    split at hrun
    · rename_i l rest hex
      cases hrun
      refine visit_exchange h hsecond hfirst hsat (exchange?_perm hex) ?_
      have hfree := exchange?_holds hex
      rw [Bool.not_eq_true'] at hfree
      rw [← hc.isFalsified_iff, hfree]
      exact Bool.false_ne_true
    · rename_i hex
      cases hrun
      have hfk := h.wellFormed.2 d.first List.mem_cons_self
      refine visit_stay h (Assignment.enqueued hc h.starts_le hfk.1 hfk.2 (some r)) (Or.inl ?_)
      intro m hm
      rcases List.mem_cons.mp hm with rfl | hm
      · rw [hsecond, Literal.negate_negate]
        exact h.mem
      · have hfalse := exchange?_eq_none.mp hex m hm
        rw [Bool.not_eq_false'] at hfalse
        exact (hc.isFalsified_iff m).mp hfalse

end

theorem visit_propagate {r : Reference} {b : Board} (h : (Kind.clause c : Kind κ).Due r p b) :
    (Kind.clause c : Kind κ).Visit r p b (c.propagate r p b).1 (.clause (c.propagate r p b).2.1)
      (c.propagate r p b).2.2 := by
  obtain ⟨hsecond, hfirst⟩ := second_faceFalse (κ := κ) h.wellFormed.1 h.waits
  have hperm := faceFalse_literals_perm c (-p)
  have hcases : c.faceFalse (-p) = c ∨
      c.first = -p ∧ c.faceFalse (-p) = ⟨c.second, c.first, c.rest⟩ := by
    unfold faceFalse
    split
    · rename_i hf
      exact Or.inr ⟨hf, rfl⟩
    · exact Or.inl rfl
  have hwatched : ∀ l, (Kind.clause c : Kind κ).watched.count l =
      (Kind.clause (c.faceFalse (-p)) : Kind κ).watched.count l := by
    intro l
    rcases hcases with heq | ⟨-, heq⟩
    · rw [heq]
    · rw [heq]
      exact (List.Perm.swap _ _ _).count_eq l
  have hdue : (Kind.clause (c.faceFalse (-p)) : Kind κ).Due r p b := by
    refine ⟨h.consistent, h.starts_le, h.sized, ?_, h.mem, ?_, fun l hl => ?_, ?_⟩
    · have hsimilar : (Kind.clause c : Kind κ).Similar (.clause (c.faceFalse (-p))) := hperm
      exact hsimilar.wellFormed h.wellFormed
    · rw [← List.count_pos_iff, ← hwatched, List.count_pos_iff]
      exact h.waits
    · rw [← hwatched]
      exact h.registered l hl
    · intro k hk
      cases hk
  refine Kind.Visit.of_reordered (d := .clause (c.faceFalse (-p)))
    (visit_of_faced hdue hsecond hfirst rfl rfl) hperm hwatched rfl rfl ?_ ?_
  · intro trues seen told hset
    rcases hcases with heq | ⟨-, heq⟩
    · rw [heq]
      exact hset
    · rw [heq]
      intro w hw hws
      obtain ⟨l, hl, hlt⟩ := hset w ((List.Perm.swap _ _ _).mem_iff.mp hw) hws
      exact ⟨l, (List.Perm.swap _ _ _).mem_iff.mp hl, hlt⟩
  · intro before l hb hl he
    rcases hcases with heq | ⟨hf, -⟩
    · rw [heq]
      exact he
    · -- The first literal of a clause that explains it is true, and `-p` is not.
      exfalso
      have hlp : l = -p := he.1.symm.trans hf
      exact h.consistent.functional.not_mem_negate h.mem (hlp ▸ hl)

end Clause

/-! ## Cardinality constraints -/

namespace Cardinality

variable {r : Reference} {p : Literal} {c : Cardinality} {b : Board}

/-- Forcing literals only makes some of them true, for the given reason. -/
theorem force_spec (r : Reference) (w : Watches) (ls : List Literal) {a : Assignment}
    (ha : a.Consistent) (hs : ∀ m ∈ a.levelStarts.toList, m ≤ a.trues.length)
    (hk : ∀ l ∈ ls, l.Known a.cells.size) :
    ∃ a', ls.foldl (fun b l =>
        if b.assignment.isUnassigned l then (b.enqueue (some r) l).2 else b) (⟨a, w⟩ : Board) =
        ⟨a', w⟩ ∧ a.Extension a' ∧ a'.Consistent ∧
      (∀ {i l}, a.trues.length ≤ i → a'.trues[i]? = some l → a'.reason? l.var = some r ∧ l ∈ ls) ∧
      ∀ l ∈ ls, l.var ∈ a'.trues.map Literal.var := by
  induction ls generalizing a with
  | nil =>
    refine ⟨a, rfl, .refl a, ha, ?_, fun l hl => by cases hl⟩
    intro i l hi hl
    rw [List.getElem?_eq_none hi] at hl
    cases hl
  | cons l ls ih =>
    have hkl := hk l List.mem_cons_self
    have hks : ∀ m ∈ ls, m.Known a.cells.size := fun m hm => hk m (List.mem_cons_of_mem _ hm)
    rw [List.foldl_cons]
    by_cases hu : a.isUnassigned l = true
    · have he := Assignment.enqueued ha hs hkl.1 hkl.2 (some r)
      obtain ⟨a', hfold, hext, hcon, hnew, hall⟩ := ih he.consistent
        (fun m hm => Nat.le_trans (hs m (he.extension.starts ▸ hm)) he.extension.length_le)
        (fun m hm => by rw [he.extension.size]; exact hks m hm)
      refine ⟨a', ?_, he.extension.trans hext, hcon, ?_, ?_⟩
      · rw [if_pos hu]
        exact hfold
      · intro i m hi hm
        by_cases hlt : i < (a.enqueue l (some r)).2.trues.length
        · rw [hext.getElem? hlt] at hm
          obtain ⟨rfl, -, hreason⟩ := he.fresh hi hm
          refine ⟨?_, List.mem_cons_self⟩
          rw [hext.reason?_eq he.consistent (List.mem_of_getElem? hm)]
          exact hreason
        · obtain ⟨hreason, hmem⟩ := hnew (Nat.le_of_not_lt hlt) hm
          exact ⟨hreason, List.mem_cons_of_mem _ hmem⟩
      · intro m hm
        rcases List.mem_cons.mp hm with rfl | hm
        · exact hext.mem_map_var he.mem_map_var
        · exact hall m hm
    · obtain ⟨a', hfold, hext, hcon, hnew, hall⟩ := ih ha hs hks
      refine ⟨a', ?_, hext, hcon, ?_, ?_⟩
      · rw [if_neg hu]
        exact hfold
      · intro i m hi hm
        obtain ⟨hreason, hmem⟩ := hnew hi hm
        exact ⟨hreason, List.mem_cons_of_mem _ hmem⟩
      · intro m hm
        rcases List.mem_cons.mp hm with rfl | hm
        · rw [ha.isUnassigned_iff, Classical.not_not] at hu
          exact hext.mem_map_var hu
        · exact hall m hm

/-- A visit counts one report. -/
theorem visit_counted {a a' : Assignment} {w : Watches}
    (h : (Kind.cardinality c : Kind κ).Due r p ⟨a, w⟩) {ok : Bool} (hext : a.Extension a')
    (hcon : a'.Consistent)
    (hnew : ∀ {i l}, a.trues.length ≤ i → a'.trues[i]? = some l →
      a'.reason? l.var = some r ∧ l ∈ c.literals ∧ c.falsified + 1 = c.slack)
    (hok : ok = true ↔ c.falsified + 1 ≤ c.slack) :
    (Kind.cardinality c : Kind κ).Visit r p ⟨a, w⟩ ok
      (.cardinality { c with falsified := c.falsified + 1 })
      ⟨a', (w.add p ⟨r, none⟩).addUndo p.var r⟩ := by
  have hs : w.Sized a.cells.size := h.sized
  have hpv : p.var < a.cells.size := h.consistent.var_lt h.mem
  have hcount : c.falsified + 1 ≤ numFalse a.trues c.literals := h.counted c rfl
  have hundos : p.var < (w.add p ⟨r, none⟩).undos.size := by
    rw [(hs.add _ _).undos]
    exact hpv
  have hwatches : Kind.Rewatches r p (.cardinality c)
      (.cardinality { c with falsified := c.falsified + 1 } : Kind κ) _ w (w.add p ⟨r, none⟩) :=
    .stay hs hpv rfl nofun
  exact {
    similar := ⟨rfl, rfl⟩
    extension := hext
    consistent := hcon
    forced := by
      intro i l hi hl
      obtain ⟨hreason, hmem, hslack⟩ := hnew hi hl
      refine ⟨hreason, hmem, ?_⟩
      have hle : numFalse a.trues c.literals ≤ numFalse (a'.trues.take i) c.literals := by
        apply numFalse_mono
        intro m hm
        rw [← List.take_append_drop a.trues.length (a'.trues.take i), List.take_take,
          Nat.min_eq_left hi, hext.take (Nat.le_refl _), List.take_length]
        exact List.mem_append_left _ hm
      have hfull : c.slack ≤ numFalse a.trues c.literals := by omega
      exact Nat.le_trans hfull hle
    keeps := fun _ _ he => he
    sized := hwatches.sized.addUndo _ _
    registered := hwatches.registered
    others := hwatches.others
    entries := hwatches.entries
    numUndos := fun v q => Watches.numUndos_addUndo hundos r q v
    notified := by
      intro q
      have hlen := Watches.length_notified_addUndo hundos r q
      simp only [eq_comm (a := r)] at hlen
      exact hlen
    falsified := rfl
    within := hok.mp
    violated := by
      intro hfalse
      have hnot : ¬ c.falsified + 1 ≤ c.slack := fun hle => by
        rw [hok.mpr hle] at hfalse
        cases hfalse
      have hle : numFalse a.trues c.literals ≤ numFalse a'.trues c.literals :=
        numFalse_mono (fun l hl => hext.mem hl) c.literals
      show c.slack < numFalse a'.trues c.literals
      omega
    still := fun _ _ hset => hset
    settles := nofun }

/-- Every visit counts the report; what becomes true depends on how many there are. -/
theorem visit_propagate (h : (Kind.cardinality c : Kind κ).Due r p b) :
    (Kind.cardinality c : Kind κ).Visit r p b (c.propagate r p b).1
      (.cardinality (c.propagate r p b).2.1) (c.propagate r p b).2.2 := by
  obtain ⟨a, w⟩ := b
  have hc : a.Consistent := h.consistent
  have hnone : ∀ {i l}, a.trues.length ≤ i → a.trues[i]? = some l →
      a.reason? l.var = some r ∧ l ∈ c.literals ∧ c.falsified + 1 = c.slack :=
    fun hi hl => absurd (List.getElem?_eq_some_iff.mp hl).1 (Nat.not_lt_of_le hi)
  by_cases hconflict : c.slack < c.falsified + 1
  · have hrun : c.propagate r p ⟨a, w⟩ = (false, { c with falsified := c.falsified + 1 },
        ⟨a, (w.add p ⟨r, none⟩).addUndo p.var r⟩) := by
      simp only [propagate, Board.watch, Board.registerUndo]
      exact if_pos hconflict
    rw [hrun]
    exact visit_counted h (.refl a) hc hnone ⟨nofun, fun hle => by omega⟩
  · by_cases hforce : c.falsified + 1 = c.slack
    · obtain ⟨a', hfold, hext, hcon, hnew, -⟩ := force_spec r ((w.add p ⟨r, none⟩).addUndo p.var r)
        c.literals hc h.starts_le h.wellFormed.2
      have hrun : c.propagate r p ⟨a, w⟩ = (true, { c with falsified := c.falsified + 1 },
          ⟨a', (w.add p ⟨r, none⟩).addUndo p.var r⟩) := by
        simp only [propagate, Board.watch, Board.registerUndo]
        refine (if_neg hconflict).trans ((if_pos hforce).trans ?_)
        rw [force, hfold]
      rw [hrun]
      refine visit_counted h hext hcon (fun hi hl => ?_) ⟨fun _ => by omega, fun _ => rfl⟩
      exact ⟨(hnew hi hl).1, (hnew hi hl).2, hforce⟩
    · have hrun : c.propagate r p ⟨a, w⟩ = (true, { c with falsified := c.falsified + 1 },
          ⟨a, (w.add p ⟨r, none⟩).addUndo p.var r⟩) := by
        simp only [propagate, Board.watch, Board.registerUndo]
        exact (if_neg hconflict).trans (if_neg hforce)
      rw [hrun]
      exact visit_counted h (.refl a) hc hnone ⟨fun _ => by omega, fun _ => rfl⟩

/-- The last report that may be counted forces whatever is left. -/
theorem full_propagate (h : (Kind.cardinality c : Kind κ).Due r p b) {ok : Bool} {c' : Cardinality}
    {b' : Board} (hrun : c.propagate r p b = (ok, c', b')) (hok : ok = true)
    (hfull : c'.falsified = c'.slack) :
    ∀ l ∈ c'.literals, l.var ∈ b'.assignment.trues.map Literal.var := by
  obtain ⟨a, w⟩ := b
  obtain ⟨a', hfold, -, -, -, hall⟩ := force_spec r ((w.add p ⟨r, none⟩).addUndo p.var r)
    c.literals h.consistent h.starts_le h.wellFormed.2
  simp only [propagate, Board.watch, Board.registerUndo] at hrun
  split at hrun
  · cases hrun
    cases hok
  · split at hrun
    · cases hrun
      intro l hl
      rw [force, hfold]
      exact hall l hl
    · rename_i hne
      cases hrun
      exact absurd hfull hne

end Cardinality

/-! ## Parity constraints -/

namespace Parity

variable {c : Parity} {p : Literal}

/-- A variable has two literals. -/
theorem count_literals (x l : Literal) : (if x = l then 1 else 0) + (if -x = l then 1 else 0) =
    if l.var = x.var then 1 else 0 := by
  by_cases hx : x = l
  · subst hx
    rw [if_pos rfl, if_neg (Literal.negate_ne x), if_pos rfl]
  · by_cases hn : -x = l
    · subst hn
      rw [if_neg hx, if_pos rfl, if_pos (Literal.var_negate x)]
    · have hvar : ¬ l.var = x.var := by
        intro hvar
        have hmem : l ∈ [x] ∨ -l ∈ [x] := Literal.mem_or_negate_mem (by simp [hvar])
        rcases hmem with hm | hm
        · exact hx (List.mem_singleton.mp hm).symm
        · apply hn
          rw [← List.mem_singleton.mp hm, Literal.negate_negate]
      rw [if_neg hx, if_neg hn, if_neg hvar]

/-- A parity constraint waits for both literals of its first two variables. -/
theorem count_watched (c : Parity) (l : Literal) :
    (Kind.parity c : Kind κ).watched.count l =
      (if l.var = c.first then 1 else 0) + if l.var = c.second then 1 else 0 := by
  have hfirst := count_literals (Literal.make c.first true) l
  have hsecond := count_literals (Literal.make c.second true) l
  rw [Literal.var_make] at hfirst hsecond
  simp only [Kind.watched, List.count_cons, List.count_nil, beq_iff_eq]
  omega

theorem faceAssigned_vars_perm (c : Parity) (v : Nat) : c.vars.Perm (c.faceAssigned v).vars := by
  unfold faceAssigned
  split
  · exact List.Perm.swap _ _ _
  · exact List.Perm.refl _

theorem odd_faceAssigned (c : Parity) (v : Nat) : (c.faceAssigned v).odd = c.odd := by
  unfold faceAssigned
  split
  · rfl
  · rfl

theorem second_faceAssigned (hnodup : c.vars.Nodup) (hp : p ∈ (Kind.parity c : Kind κ).watched) :
    (c.faceAssigned p.var).second = p.var ∧ (c.faceAssigned p.var).first ≠ p.var := by
  have hcount := List.count_pos_iff.mpr hp
  rw [count_watched] at hcount
  have hne : c.first ≠ c.second := by
    simp only [vars, List.nodup_cons, List.mem_cons, not_or] at hnodup
    exact hnodup.1.1
  unfold faceAssigned
  split
  · rename_i hfirst
    exact ⟨hfirst, fun hsecond => hne (hfirst.trans hsecond.symm)⟩
  · rename_i hfirst
    refine ⟨?_, hfirst⟩
    have hpf : ¬ p.var = c.first := fun h => hfirst h.symm
    rw [if_neg hpf] at hcount
    by_contra hsecond
    rw [if_neg fun h => hsecond h.symm] at hcount
    omega

theorem isRight_perm {c d : Parity} (hperm : c.vars.Perm d.vars) (hodd : c.odd = d.odd)
    (ts : List Literal) : d.IsRight ts ↔ c.IsRight ts := by
  rw [IsRight, IsRight, hperm.countP_eq, hodd]

/-- What a parity constraint explains depends on the set of its variables only. -/
theorem explains_perm {c d : Parity} (hperm : c.vars.Perm d.vars) (hodd : c.odd = d.odd)
    {before : List Literal} {l : Literal} (h : (Kind.parity c : Kind κ).Explains before l) :
    (Kind.parity d : Kind κ).Explains before l :=
  ⟨hperm.mem_iff.mp h.1, fun v hv => h.2.1 v (hperm.mem_iff.mpr hv),
    (isRight_perm hperm hodd _).mpr h.2.2⟩

/-- The parity once the first variable has a value, in terms of the true variables behind it. -/
theorem countP_odd_iff {a : Assignment} (ha : a.Consistent) {ts : List Literal}
    (hts : Functional ts) (hsub : ∀ l ∈ a.trues, l ∈ ts)
    (hrest : ∀ v ∈ c.second :: c.rest, v ∈ a.trues.map Literal.var) {positive : Bool}
    (hfirst : Literal.make c.first positive ∈ ts) :
    (c.vars.countP (fun v => decide (Literal.make v true ∈ ts)) % 2 == 1) =
      (positive != ((c.second :: c.rest).countP
        (fun v => a.isSatisfied (Literal.make v true)) % 2 == 1)) := by
  have hcount : (c.second :: c.rest).countP (fun v => decide (Literal.make v true ∈ ts)) =
      (c.second :: c.rest).countP (fun v => a.isSatisfied (Literal.make v true)) := by
    apply List.countP_congr
    intro v hv
    rw [decide_eq_true_eq, mem_make_congr hts hsub (hrest v hv), ha.isSatisfied_iff]
  have hvalue : Literal.make c.first true ∈ ts ↔ positive = true := by
    constructor
    · intro hm
      have heq := hts _ hm _ hfirst (by rw [Literal.var_make, Literal.var_make])
      rw [← Literal.isPositive_make c.first positive, ← heq, Literal.isPositive_make]
    · rintro rfl
      exact hfirst
  rw [vars, List.countP_cons, hcount]
  generalize (c.second :: c.rest).countP _ = n
  cases positive with
  | true =>
    simp only [hvalue, decide_true, if_true]
    rcases Nat.mod_two_eq_zero_or_one n with h | h <;> simp [Nat.add_mod, h]
  | false =>
    simp only [hvalue, Bool.false_eq_true, decide_false, if_false, Nat.add_zero]
    rcases Nat.mod_two_eq_zero_or_one n with h | h <;> simp [h]

section

variable {r : Reference} {d : Parity} {a : Assignment} {w : Watches}

/-- The lists of both literals of `p` lose a watcher, those of both literals of `v` get one. -/
theorem rewatches_exchange {n : Nat} (hs : w.Sized n) (hp : p.var < n) (hsecond : d.second = p.var)
    {v : Nat} {rest : List Nat} (hv : v < n) (hlisted : 1 ≤ w.numWatchers r (-p)) :
    Kind.Rewatches r p (.parity d) (.parity ⟨d.first, v, rest, d.odd⟩ : Kind κ) n w
      (((w.remove (-p) r).add (Literal.make v true) ⟨r, none⟩).add
        (-Literal.make v true) ⟨r, none⟩) := by
  have hvlt : (Literal.make v true).var < n := by rwa [Literal.var_make]
  have hnvlt : (-Literal.make v true).var < n := by rwa [Literal.var_negate]
  have hnpv : (-p).var < n := by rwa [Literal.var_negate]
  have hs₁ := hs.remove (-p) r
  have hs₂ := hs₁.add (Literal.make v true) ⟨r, none⟩
  have hlists : ∀ q l, (((w.remove (-p) r).add (Literal.make v true) ⟨r, none⟩).add
      (-Literal.make v true) ⟨r, none⟩).numWatchers q l =
      w.numWatchers q l - (if -p = l ∧ r = q then 1 else 0) +
        (if Literal.make v true = l ∧ r = q then 1 else 0) +
        (if -Literal.make v true = l ∧ r = q then 1 else 0) := by
    intro q l
    rw [Watches.numWatchers_add hs₂ hnvlt, Watches.numWatchers_add hs₁ hvlt,
      Watches.numWatchers_remove hs hnpv]
  refine ⟨hs₂.add _ _, fun l => ?_, fun q hq l => ?_, fun {l e} he => ?_⟩
  · have hboth := count_literals (Literal.make v true) l
    have hsign := count_literals p l
    have hpos : -p = l → 1 ≤ w.numWatchers r l := fun hl => hl ▸ hlisted
    rw [Literal.var_make] at hboth
    rw [hlists, count_watched, count_watched, hsecond, ← hboth, ← hsign]
    simp only [and_true, eq_comm (a := l)]
    by_cases hnp : -p = l
    · have := hpos hnp
      simp only [hnp, if_true]
      omega
    · simp only [hnp, if_false]
      omega
  · have hr : ¬ r = q := fun h => hq h.symm
    simp only [hlists, hr, and_false, if_false, Nat.add_zero, Nat.sub_zero]
  · rcases Watches.mem_watchersOf_add hs₂ hnvlt he with he | rfl
    · rcases Watches.mem_watchersOf_add hs₁ hvlt he with he | rfl
      · exact Or.inl (Watches.mem_watchersOf_remove hs hnpv he)
      · exact Or.inr ⟨rfl, nofun⟩
    · exact Or.inr ⟨rfl, nofun⟩

/-- A visit that watches a variable without a value in the place of the one that was assigned. -/
theorem visit_exchange (h : (Kind.parity d : Kind κ).Due r p ⟨a, w⟩) (hsecond : d.second = p.var)
    (hfirst : d.first ≠ p.var) {v : Nat} {rest : List Nat}
    (hperm : (v :: rest).Perm (d.second :: d.rest)) (hv : v ∉ a.trues.map Literal.var) :
    (Kind.parity d : Kind κ).Visit r p ⟨a, w⟩ true (.parity ⟨d.first, v, rest, d.odd⟩)
      ⟨a, ((w.remove (-p) r).add (Literal.make v true) ⟨r, none⟩).add
        (-Literal.make v true) ⟨r, none⟩⟩ := by
  have hvmem : v ∈ d.vars := List.mem_cons_of_mem _ (hperm.mem_iff.mp List.mem_cons_self)
  have hsim : d.vars.Perm (Parity.mk d.first v rest d.odd).vars := (hperm.cons _).symm
  have hlisted : 1 ≤ w.numWatchers r (-p) := by
    have hreg := h.registered (-p) (Literal.negate_ne p)
    rw [count_watched, Literal.var_negate, hsecond, if_pos rfl] at hreg
    exact hreg ▸ Nat.le_add_left _ _
  have hwatches : Kind.Rewatches r p (.parity d) (.parity ⟨d.first, v, rest, d.odd⟩ : Kind κ)
      _ w _ :=
    rewatches_exchange h.sized (h.consistent.var_lt h.mem) hsecond
      (h.wellFormed.2 v hvmem).2 hlisted
  -- What was seen are literals of the trail, and `v` has no value there.
  have hsettled : ∀ {trues seen told}, (∀ x ∈ seen, x ∈ a.trues) →
      (Kind.parity d : Kind κ).Settled trues seen told →
      (Kind.parity ⟨d.first, v, rest, d.odd⟩ : Kind κ).Settled trues seen told := by
    intro trues seen told hseen hset u hu hus
    simp only [List.mem_cons, List.not_mem_nil, or_false] at hu
    rcases hu with rfl | rfl
    · obtain ⟨hall, hright⟩ := hset d.first List.mem_cons_self hus
      exact ⟨fun u hu => hall u (hsim.mem_iff.mpr hu), (isRight_perm hsim rfl _).mpr hright⟩
    · obtain ⟨x, hx, rfl⟩ := List.mem_map.mp hus
      exact absurd (List.mem_map_of_mem (hseen x hx)) hv
  exact {
    similar := ⟨hsim, rfl⟩
    extension := .refl a
    consistent := h.consistent
    forced := fun hi hl => absurd (List.getElem?_eq_some_iff.mp hl).1 (Nat.not_lt_of_le hi)
    keeps := fun _ _ he => explains_perm hsim rfl he
    sized := hwatches.sized
    registered := hwatches.registered
    others := hwatches.others
    entries := hwatches.entries
    numUndos := fun v q => by simp [Kind.tally]; rfl
    notified := fun q => by simp [Kind.tally]; rfl
    falsified := rfl
    within := fun _ => trivial
    violated := nofun
    still := fun hseen _ => hsettled hseen
    settles := by
      intro _ _ seen told hseen hset u hu hus
      refine hsettled hseen hset u hu ?_
      rw [List.map_append] at hus
      rcases List.mem_append.mp hus with hus | hus
      · exact hus
      · exfalso
        have hup : u = p.var := by simpa using hus
        simp only [List.mem_cons, List.not_mem_nil, or_false] at hu
        rcases hu with rfl | rfl
        · exact hfirst hup
        · exact hv (hup ▸ List.mem_map_of_mem h.mem) }

/-- With the implied literal the parity is right. -/
theorem isRight_of_implied_mem (ha : a.Consistent)
    (hrest : ∀ v ∈ d.second :: d.rest, v ∈ a.trues.map Literal.var) {ts : List Literal}
    (hts : Functional ts) (hsub : ∀ l ∈ a.trues, l ∈ ts) (hmem : d.implied a ∈ ts) :
    d.IsRight ts := by
  rw [IsRight, countP_odd_iff ha hts hsub hrest hmem]
  cases d.odd <;> simp

/-- With its negation it is not. -/
theorem not_isRight_of_negate_implied_mem (ha : a.Consistent)
    (hrest : ∀ v ∈ d.second :: d.rest, v ∈ a.trues.map Literal.var)
    (hmem : -d.implied a ∈ a.trues) : ¬ d.IsRight a.trues := by
  have hneg : -d.implied a = Literal.make d.first (!(d.implied a).isPositive) := by
    apply Literal.ext_var
    · rw [Literal.var_negate, implied, Literal.var_make, Literal.var_make]
    · rw [Literal.isPositive_negate, Literal.isPositive_make]
  rw [hneg] at hmem
  rw [IsRight, countP_odd_iff ha ha.functional (fun _ h => h) hrest hmem, implied,
    Literal.isPositive_make]
  cases d.odd <;> simp

/-- A visit that makes the implied literal true. -/
theorem visit_implied (h : (Kind.parity d : Kind κ).Due r p ⟨a, w⟩)
    (hrest : ∀ v ∈ d.second :: d.rest, v ∈ a.trues.map Literal.var) {ok : Bool} {a' : Assignment}
    (he : a.Enqueued (d.implied a) (some r) ok a') :
    (Kind.parity d : Kind κ).Visit r p ⟨a, w⟩ ok (.parity d) ⟨a', w.add p ⟨r, none⟩⟩ := by
  have hc : a.Consistent := h.consistent
  have himplied : (d.implied a).var = d.first := Literal.var_make _ _
  have hall : ∀ {ts : List Literal}, (∀ l ∈ a.trues, l.var ∈ ts.map Literal.var) →
      d.first ∈ ts.map Literal.var → ∀ v ∈ d.vars, v ∈ ts.map Literal.var := by
    intro ts hsub hfirst v hv
    rcases List.mem_cons.mp hv with rfl | hv
    · exact hfirst
    · obtain ⟨x, hx, rfl⟩ := List.mem_map.mp (hrest v hv)
      exact hsub x hx
  have hwatches : Kind.Rewatches r p (.parity d) (.parity d : Kind κ) _ w (w.add p ⟨r, none⟩) :=
    .stay h.sized (hc.var_lt h.mem) rfl nofun
  exact {
    similar := .refl _
    extension := he.extension
    consistent := he.consistent
    forced := by
      intro i l hi hl
      obtain ⟨rfl, htake, hreason⟩ := he.fresh hi hl
      have hfresh : (d.implied a).var ∉ a.trues.map Literal.var := by
        intro hmem
        obtain ⟨m, hm, hvar⟩ := List.mem_map.mp hmem
        exact he.consistent.var_ne_of_mem_take hl (htake.symm ▸ hm) hvar
      refine ⟨hreason, ?_⟩
      show (Kind.parity d : Kind κ).Explains (a'.trues.take i) (d.implied a)
      rw [htake]
      refine ⟨himplied ▸ List.mem_cons_self, fun v hv hne => ?_, ?_⟩
      · rcases List.mem_cons.mp hv with rfl | hv
        · exact absurd himplied.symm hne
        · exact hrest v hv
      · exact isRight_of_implied_mem hc hrest (hc.functional.cons hfresh)
          (fun x hx => List.mem_cons_of_mem _ hx) List.mem_cons_self
    keeps := fun _ _ he => he
    sized := hwatches.sized
    registered := hwatches.registered
    others := hwatches.others
    entries := hwatches.entries
    numUndos := fun v q => by simp [Kind.tally]; rfl
    notified := fun q => by simp [Kind.tally]; rfl
    falsified := rfl
    within := fun _ => trivial
    violated := by
      intro hok
      obtain ⟨hfalse, rfl⟩ := he.falsified hok
      refine ⟨hall (fun l hl => List.mem_map_of_mem hl) ?_,
        not_isRight_of_negate_implied_mem hc hrest hfalse⟩
      exact List.mem_map.mpr ⟨_, hfalse, by rw [Literal.var_negate, himplied]⟩
    still := fun _ _ hk => hk
    settles := by
      intro hok _ seen told _ _ u _ _
      have hsub : ∀ l ∈ a.trues, l ∈ a'.trues := fun l hl => he.extension.mem hl
      refine ⟨hall (fun l hl => List.mem_map_of_mem (hsub l hl)) ?_,
        isRight_of_implied_mem hc hrest he.consistent.functional hsub (he.mem hok)⟩
      exact List.mem_map.mpr ⟨_, he.mem hok, himplied⟩ }

/-- A visit of a parity constraint whose second variable is the one that was assigned. -/
theorem visit_of_faced (h : (Kind.parity d : Kind κ).Due r p ⟨a, w⟩) (hsecond : d.second = p.var)
    (hfirst : d.first ≠ p.var) {ok : Bool} {d' : Parity} {b' : Board}
    (hd : c.faceAssigned p.var = d) (hrun : c.propagate r p ⟨a, w⟩ = (ok, d', b')) :
    (Kind.parity d : Kind κ).Visit r p ⟨a, w⟩ ok (.parity d') b' := by
  have hc : a.Consistent := h.consistent
  simp only [propagate, hd, Board.enqueue_eq, Board.watch, Board.unwatch, watchBoth] at hrun
  split at hrun
  · rename_i v rest hex
    cases hrun
    refine visit_exchange h hsecond hfirst (Clause.exchange?_perm hex) ?_
    have hfree := Clause.exchange?_holds hex
    rw [Bool.not_eq_true'] at hfree
    rw [← hc.isAssigned_iff, hfree]
    exact Bool.false_ne_true
  · rename_i hex
    cases hrun
    have hfk := h.wellFormed.2 d.first List.mem_cons_self
    have himplied : (d.implied a).var = d.first := Literal.var_make _ _
    refine visit_implied h ?_ (Assignment.enqueued hc h.starts_le (himplied ▸ hfk.1)
      (himplied ▸ hfk.2) (some r))
    intro v hv
    rcases List.mem_cons.mp hv with rfl | hv
    · rw [hsecond]
      exact List.mem_map_of_mem h.mem
    · have hassigned := Clause.exchange?_eq_none.mp hex v hv
      rw [Bool.not_eq_false'] at hassigned
      exact (hc.isAssigned_iff v).mp hassigned

end

theorem visit_propagate {r : Reference} {b : Board} (h : (Kind.parity c : Kind κ).Due r p b) :
    (Kind.parity c : Kind κ).Visit r p b (c.propagate r p b).1 (.parity (c.propagate r p b).2.1)
      (c.propagate r p b).2.2 := by
  obtain ⟨hsecond, hfirst⟩ := second_faceAssigned (κ := κ) h.wellFormed.1 h.waits
  have hperm := faceAssigned_vars_perm c p.var
  have hodd := odd_faceAssigned c p.var
  have hcases : c.faceAssigned p.var = c ∨
      c.faceAssigned p.var = { c with first := c.second, second := c.first } := by
    unfold faceAssigned
    split
    · exact Or.inr rfl
    · exact Or.inl rfl
  have hwatched : ∀ l, (Kind.parity c : Kind κ).watched.count l =
      (Kind.parity (c.faceAssigned p.var) : Kind κ).watched.count l := by
    intro l
    rw [count_watched, count_watched]
    rcases hcases with heq | heq
    · rw [heq]
    · rw [heq]
      exact Nat.add_comm _ _
  have hsim : (Kind.parity c : Kind κ).Similar (.parity (c.faceAssigned p.var)) :=
    ⟨hperm, hodd.symm⟩
  have hdue : (Kind.parity (c.faceAssigned p.var) : Kind κ).Due r p b := by
    refine ⟨h.consistent, h.starts_le, h.sized, hsim.wellFormed h.wellFormed, h.mem, ?_,
      fun l hl => ?_, ?_⟩
    · rw [← List.count_pos_iff, ← hwatched, List.count_pos_iff]
      exact h.waits
    · rw [← hwatched]
      exact h.registered l hl
    · intro k hk
      cases hk
  refine Kind.Visit.of_reordered (visit_of_faced hdue hsecond hfirst rfl rfl) hsim hwatched rfl
    rfl ?_ fun _ _ he => explains_perm hperm hodd.symm he
  intro trues seen told hset w hw hws
  have hwc : w ∈ [c.first, c.second] := by
    rcases hcases with heq | heq
    · rwa [heq] at hw
    · rw [heq] at hw
      exact (List.Perm.swap _ _ _).mem_iff.mp hw
  obtain ⟨hall, hright⟩ := hset w hwc hws
  exact ⟨fun v hv => hall v (hperm.mem_iff.mpr hv), (isRight_perm hperm hodd.symm _).mpr hright⟩

end Parity

/-! ## All kinds -/

theorem Constraint.visit_propagate [CustomConstraint κ] {r : Reference} {p : Literal} {b : Board}
    {c : Constraint κ} (h : c.kind.Due r p b) {ok : Bool} {c' : Constraint κ} {b' : Board}
    (hrun : c.propagate r p b = (ok, c', b')) :
    c'.metadata = c.metadata ∧ c.kind.Visit r p b ok c'.kind b' := by
  obtain ⟨k, metadata⟩ := c
  cases k with
  | clause k =>
    cases hrun
    exact ⟨rfl, k.visit_propagate h⟩
  | cardinality k =>
    cases hrun
    exact ⟨rfl, k.visit_propagate h⟩
  | parity k =>
    cases hrun
    exact ⟨rfl, k.visit_propagate h⟩
  | custom k => exact h.wellFormed.elim

theorem Constraint.full_propagate [CustomConstraint κ] {r : Reference} {p : Literal} {b : Board}
    {c : Constraint κ} (h : c.kind.Due r p b) {ok : Bool} {c' : Constraint κ} {b' : Board}
    (hrun : c.propagate r p b = (ok, c', b')) (hok : ok = true) :
    c'.kind.Full b'.assignment.trues := by
  obtain ⟨k, metadata⟩ := c
  cases k with
  | clause k =>
    cases hrun
    trivial
  | cardinality k =>
    cases hrun
    exact k.full_propagate h rfl hok
  | parity k =>
    cases hrun
    trivial
  | custom k => exact h.wellFormed.elim

end ClauseLearning
