import ClauseLearning.Proofs.Entailment

/-!
# Literals and constraints that come in

A literal comes in as a decision, as a fact, or as the first literal of a learned clause; a
constraint comes in at the root or is learned. Neither takes anything away, and no notification is
missed by it: a constraint that comes in at the root waits for unassigned literals only, and a
learned clause is asked to be settled by nobody.

* `WellFormed.extend`: literals that are explained may become true.
* `attach_spec`, `learn_spec`: what a state gains by a constraint.
* `Gains.admits`, `Gains.upToDate`: a valuation of the new constraint is still admitted, and what
  was settled still is.
-/

namespace ClauseLearning

variable {κ : Type}

/-! ## Slots -/

theorem Reference.ext_slot {r q : Reference} (h : r.slot = q.slot) : r = q := by
  cases r
  cases q
  simp_all

namespace Arena

/-- A constraint is put into an empty slot, and the others stay. -/
theorem allocate_spec {s : Arena κ} (h : s.Tidy) (c : Constraint κ) :
    s.get? (s.allocate c).1 = none ∧ (s.allocate c).2.Tidy ∧
      ∀ q, (s.allocate c).2.get? q = if q = (s.allocate c).1 then some c else s.get? q := by
  obtain ⟨slots, recycled⟩ := s
  cases recycled with
  | nil =>
    have hget : ∀ q : Reference, (⟨slots.push (some c), []⟩ : Arena κ).get? q =
        if q = ⟨slots.size⟩ then some c else (⟨slots, []⟩ : Arena κ).get? q := by
      intro q
      by_cases hq : q = ⟨slots.size⟩
      · simp [hq, get?]
      · have hs : q.slot ≠ slots.size := fun hs => hq (Reference.ext_slot hs)
        rw [if_neg hq, get?, get?, Array.getElem?_push, if_neg hs]
    refine ⟨by simp [allocate, get?], ⟨List.nodup_nil, ?_, ?_⟩, hget⟩
    · intro r hr
      cases hr
    · intro r hr
      cases hr
  | cons r recycled =>
    have hmem : r ∈ r :: recycled := List.mem_cons_self
    have hlt : r.slot < slots.size := h.lt r hmem
    have hget : ∀ q : Reference,
        (⟨slots.setIfInBounds r.slot (some c), recycled⟩ : Arena κ).get? q =
        if q = r then some c else (⟨slots, r :: recycled⟩ : Arena κ).get? q := by
      intro q
      by_cases hq : q = r
      · simp [hq, get?, hlt]
      · have hs : r.slot ≠ q.slot := fun hs => hq (Reference.ext_slot hs).symm
        simp [hq, get?, hs]
    obtain ⟨hnot, hnodup⟩ := List.nodup_cons.mp h.nodup
    refine ⟨h.dead r hmem, ⟨hnodup, fun q hq => ?_, fun q hq => ?_⟩, hget⟩
    · have hne : q ≠ r := fun he => hnot (he ▸ hq)
      rw [show (Arena.allocate c ⟨slots, r :: recycled⟩).2 =
        (⟨slots.setIfInBounds r.slot (some c), recycled⟩ : Arena κ) from rfl, hget, if_neg hne]
      exact h.dead q (List.mem_cons_of_mem _ hq)
    · show q.slot < (slots.setIfInBounds r.slot (some c)).size
      rw [Array.size_setIfInBounds]
      exact h.lt q (List.mem_cons_of_mem _ hq)

theorem Tidy.set {s : Arena κ} (h : s.Tidy) {r : Reference} {c₀ : Constraint κ}
    (hr : s.get? r = some c₀) (c : Constraint κ) : (s.set r c).Tidy := by
  refine ⟨h.nodup, fun q hq => ?_, fun q hq => ?_⟩
  · exact get?_set_eq_none hr c (h.dead q hq)
  · have hlt := h.lt q hq
    simpa [Arena.set] using hlt

/-- What was put into a slot may be changed at once. -/
theorem set_allocate_spec {s : Arena κ} (h : s.Tidy) (c c' : Constraint κ) :
    ((s.allocate c).2.set (s.allocate c).1 c').Tidy ∧
      ∀ q, ((s.allocate c).2.set (s.allocate c).1 c').get? q =
        if q = (s.allocate c).1 then some c' else s.get? q := by
  obtain ⟨-, htidy, hget⟩ := allocate_spec h c
  have hself : (s.allocate c).2.get? (s.allocate c).1 = some c := by rw [hget, if_pos rfl]
  refine ⟨htidy.set hself c', fun q => ?_⟩
  rw [get?_set hself, hget]
  split <;> rfl

end Arena

namespace LearnedDatabase.Lists

variable {d : LearnedDatabase} {s s' : Arena κ} {r : Reference} {c : Constraint κ}

/-- What comes into an empty slot was not listed. -/
theorem ne_of_dead (h : d.Lists s) (hdead : s.get? r = none) :
    ∀ q ∈ d.references.toList, q ≠ r := by
  rintro q hq rfl
  obtain ⟨c, hc, -⟩ := h.learned q hq
  rw [hdead] at hc
  cases hc

theorem join (h : d.Lists s) (hdead : s.get? r = none)
    (hget : ∀ q, s'.get? q = if q = r then some c else s.get? q) : d.Lists s' := by
  refine ⟨h.nodup, fun q hq => ?_⟩
  rw [hget, if_neg (h.ne_of_dead hdead q hq)]
  exact h.learned q hq

/-- A learned clause that comes in is listed last. -/
theorem push (h : d.Lists s) (hdead : s.get? r = none)
    (hget : ∀ q, s'.get? q = if q = r then some c else s.get? q) (hc : c.metadata.learned = true) :
    ({ d with references := d.references.push r } : LearnedDatabase).Lists s' := by
  have hne := h.ne_of_dead hdead
  refine ⟨?_, fun q hq => ?_⟩
  · show (d.references.push r).toList.Nodup
    rw [Array.toList_push, List.nodup_append]
    refine ⟨h.nodup, List.pairwise_singleton _ _, fun q hq q' hq' => ?_⟩
    rw [List.mem_singleton.mp hq']
    exact hne q hq
  · have hq : q ∈ (d.references.push r).toList := hq
    rw [Array.toList_push] at hq
    rcases List.mem_append.mp hq with hq | hq
    · rw [hget, if_neg (hne q hq)]
      exact h.learned q hq
    · exact ⟨c, by rw [hget, if_pos (List.mem_singleton.mp hq)], hc⟩

end LearnedDatabase.Lists

/-! ## First watches -/

/-- The constraint `r` got the watchers it asks for when it is attached. -/
structure Kind.Attached (r : Reference) (k : Kind κ) (w w' : Watches) : Prop where
  sized : ∀ {n}, w.Sized n → w'.Sized n
  numWatchers : ∀ q l, w'.numWatchers q l =
    w.numWatchers q l + if q = r then k.watched.count l else 0
  entries : ∀ {l e}, e ∈ w'.watchersOf l →
    e ∈ w.watchersOf l ∨ (e.constraint = r ∧ ∀ m ∈ e.blocker, k.Blocks m)
  undos : w'.undos = w.undos

namespace Watches

/-- Adds a watcher of `r` to each of some lists, with a blocker. -/
def addAll (r : Reference) (es : List (Literal × Option Literal)) (w : Watches) : Watches :=
  es.foldl (fun w e => w.add e.1 ⟨r, e.2⟩) w

theorem undos_addAll (r : Reference) (es : List (Literal × Option Literal)) (w : Watches) :
    (w.addAll r es).undos = w.undos := by
  induction es generalizing w with
  | nil => rfl
  | cons e es ih => exact ih (w.add e.1 ⟨r, e.2⟩)

theorem Sized.addAll {w : Watches} {n : Nat} (h : w.Sized n) (r : Reference)
    (es : List (Literal × Option Literal)) : (w.addAll r es).Sized n := by
  induction es generalizing w with
  | nil => exact h
  | cons e es ih => exact ih (h.add e.1 ⟨r, e.2⟩)

variable {n : Nat} {r : Reference} {es : List (Literal × Option Literal)}

theorem numWatchers_addAll {w : Watches} (h : w.Sized n) (hes : ∀ e ∈ es, e.1.var < n)
    (q : Reference) (l : Literal) : (w.addAll r es).numWatchers q l =
      w.numWatchers q l + if q = r then (es.map Prod.fst).count l else 0 := by
  induction es generalizing w with
  | nil => simp [Watches.addAll]
  | cons e es ih =>
    have hadd := numWatchers_add h (hes e List.mem_cons_self) ⟨r, e.2⟩ q l
    have hrest := ih (h.add e.1 ⟨r, e.2⟩) fun e' he => hes e' (List.mem_cons_of_mem _ he)
    show ((w.add e.1 ⟨r, e.2⟩).addAll r es).numWatchers q l = _
    rw [hrest, hadd, List.map_cons, List.count_cons]
    by_cases hq : q = r
    · subst hq
      by_cases hl : e.1 = l
      · simp only [hl, and_self, if_true, beq_self_eq_true]
        omega
      · simp [hl]
    · have hr : ¬ r = q := fun h => hq h.symm
      simp [hq, hr]

theorem mem_watchersOf_addAll {w : Watches} (h : w.Sized n) (hes : ∀ e ∈ es, e.1.var < n)
    {l : Literal} {e : Watcher} (he : e ∈ (w.addAll r es).watchersOf l) :
    e ∈ w.watchersOf l ∨ (e.constraint = r ∧ ∃ x ∈ es, e.blocker = x.2) := by
  induction es generalizing w with
  | nil => exact Or.inl he
  | cons x es ih =>
    rcases ih (h.add x.1 ⟨r, x.2⟩) (fun y hy => hes y (List.mem_cons_of_mem _ hy)) he with
      he | ⟨hr, y, hy, hb⟩
    · rcases mem_watchersOf_add h (hes x List.mem_cons_self) he with he | rfl
      · exact Or.inl he
      · exact Or.inr ⟨rfl, x, List.mem_cons_self, rfl⟩
    · exact Or.inr ⟨hr, y, List.mem_cons_of_mem _ hy, hb⟩

theorem attached_addAll {w : Watches} (h : w.Sized n) {k : Kind κ} (hes : ∀ e ∈ es, e.1.var < n)
    (hcount : es.map Prod.fst = k.watched) (hblocks : ∀ e ∈ es, ∀ m ∈ e.2, k.Blocks m) :
    k.Attached r w (w.addAll r es) := by
  refine ⟨fun hs => hs.addAll r es, fun q l => ?_, fun he => ?_, undos_addAll r es w⟩
  · rw [numWatchers_addAll h hes, hcount]
  · rcases mem_watchersOf_addAll h hes he with he | ⟨hr, x, hx, hb⟩
    · exact Or.inl he
    · exact Or.inr ⟨hr, fun m hm => hblocks x hx m (hb ▸ hm)⟩

end Watches

theorem Cardinality.attach_eq (r : Reference) (c : Cardinality) (a : Assignment) (w : Watches) :
    c.attach r ⟨a, w⟩ = ⟨a, w.addAll r (c.literals.map fun l => (-l, none))⟩ := by
  unfold Cardinality.attach
  generalize c.literals = ls
  induction ls generalizing w with
  | nil => rfl
  | cons l ls ih => exact ih (w.add (-l) ⟨r, none⟩)

theorem Clause.attached {c : Clause} {a : Assignment} {w : Watches} (hs : w.Sized a.cells.size)
    (hw : (Kind.clause c : Kind κ).WellFormed a.cells.size) (r : Reference) :
    ∃ w', c.attach r ⟨a, w⟩ = ⟨a, w'⟩ ∧ (Kind.clause c : Kind κ).Attached r w w' := by
  have hfirst : c.first ∈ c.literals := List.mem_cons_self
  have hsecond : c.second ∈ c.literals := List.mem_cons_of_mem _ List.mem_cons_self
  refine ⟨w.addAll r [(-c.first, some c.second), (-c.second, some c.first)], rfl,
    Watches.attached_addAll hs (fun e he => ?_) rfl fun e he m hm => ?_⟩
  · rcases List.mem_pair.mp he with rfl | rfl
    · rw [Literal.var_negate]
      exact (hw.2 _ hfirst).2
    · rw [Literal.var_negate]
      exact (hw.2 _ hsecond).2
  · rcases List.mem_pair.mp he with rfl | rfl
    · cases hm
      exact hsecond
    · cases hm
      exact hfirst

/-- A constraint of the library's own is attached as it is. -/
theorem Constraint.attach_spec [CustomConstraint κ] {c : Constraint κ} {a : Assignment}
    {w : Watches} (hs : w.Sized a.cells.size) (hw : c.kind.WellFormed a.cells.size)
    (r : Reference) :
    ∃ w', c.attach r ⟨a, w⟩ = (true, c, ⟨a, w'⟩) ∧ c.kind.Attached r w w' := by
  obtain ⟨k, metadata⟩ := c
  cases k with
  | clause k =>
    obtain ⟨w', hrun, hattached⟩ := Clause.attached hs hw r
    exact ⟨w', by simp only [Constraint.attach, hrun], hattached⟩
  | cardinality k =>
    refine ⟨w.addAll r (k.literals.map fun l => (-l, none)),
      by simp only [Constraint.attach, Cardinality.attach_eq],
      Watches.attached_addAll hs (fun e he => ?_) ?_ fun e he m hm => ?_⟩
    · obtain ⟨l, hl, rfl⟩ := List.mem_map.mp he
      rw [Literal.var_negate]
      exact (hw.2 l hl).2
    · simp [Kind.watched, Function.comp_def]
    · obtain ⟨l, -, rfl⟩ := List.mem_map.mp he
      cases hm
  | parity k =>
    have hfirst := hw.2 k.first List.mem_cons_self
    have hsecond := hw.2 k.second (List.mem_cons_of_mem _ List.mem_cons_self)
    refine ⟨w.addAll r [(Literal.make k.first true, none), (-Literal.make k.first true, none),
      (Literal.make k.second true, none), (-Literal.make k.second true, none)], rfl,
      Watches.attached_addAll hs (fun e he => ?_) rfl fun e he m hm => ?_⟩
    · simp only [List.mem_cons, List.not_mem_nil, or_false] at he
      rcases he with rfl | rfl | rfl | rfl
      · simpa using hfirst.2
      · simpa using hfirst.2
      · simpa using hsecond.2
      · simpa using hsecond.2
    · simp only [List.mem_cons, List.not_mem_nil, or_false] at he
      rcases he with rfl | rfl | rfl | rfl <;> cases hm
  | custom k => exact hw.elim

/-! ## Literals in -/

namespace Arena.OnBoard

variable {s : Arena κ} {a : Assignment} {w : Watches} {head : Nat}

/-- Literals that are explained may become true. -/
theorem extend (h : s.OnBoard ⟨a, w⟩ head) {a' : Assignment} (he : a.Extension a')
    (hc : a'.Consistent) (hhead : head ≤ a.trues.length)
    (hnew : ∀ {i l r}, a.trues.length ≤ i → a'.trues[i]? = some l → a'.reason? l.var = some r →
      ∃ c, s.get? r = some c ∧ c.kind.Explains (a'.trues.take i) l) :
    s.OnBoard ⟨a', w⟩ head := by
  have hsize : a'.cells.size = a.cells.size := he.size
  refine ⟨hc, ?_, fun {r c} hr => ?_, ?_, h.watched, h.entries, h.counted, fun {v r} hu => ?_⟩
  · show w.Sized a'.cells.size
    rw [hsize]
    exact h.sized
  · show c.kind.WellFormed a'.cells.size
    rw [hsize]
    exact h.wellFormed hr
  · intro i l r hl hr
    by_cases hi : i < a.trues.length
    · have hl' : a.trues[i]? = some l := by rw [← he.getElem? hi]; exact hl
      have hreason : a.reason? l.var = some r := by
        rw [← he.reason?_eq h.consistent (List.mem_of_getElem? hl')]
        exact hr
      have htake : a'.trues.take i = a.trues.take i := he.take (Nat.le_of_lt hi)
      obtain ⟨c, hc, hexp⟩ := h.explained hl' hreason
      exact ⟨c, hc, htake ▸ hexp⟩
    · exact hnew (Nat.le_of_not_lt hi) hl hr
  · obtain ⟨c, hc, x, hx, hrest⟩ := h.reported hu
    have htake : a'.trues.take head = a.trues.take head := he.take hhead
    exact ⟨c, hc, x, by rw [htake]; exact hx, hrest⟩

/-- A constraint without reports may join the others in an empty slot. -/
theorem join (h : s.OnBoard ⟨a, w⟩ head) {s' : Arena κ} {w' : Watches} {r : Reference}
    {c : Constraint κ} (hdead : s.get? r = none)
    (hget : ∀ q, s'.get? q = if q = r then some c else s.get? q)
    (hw : c.kind.WellFormed a.cells.size) (hf : c.kind.falsified = 0)
    (hattached : c.kind.Attached r w w') : s'.OnBoard ⟨a, w'⟩ head := by
  have hundos : ∀ v q, w'.numUndos v q = w.numUndos v q := by
    intro v q
    simp only [Watches.numUndos, Watches.undosOf, hattached.undos]
  have hkeep : ∀ {q d}, s.get? q = some d → s'.get? q = some d := by
    intro q d hd
    rw [hget, if_neg]
    · exact hd
    · rintro rfl
      rw [hdead] at hd
      cases hd
  refine ⟨h.consistent, hattached.sized h.sized, ?_, ?_, ?_, ?_, ?_, ?_⟩
  · intro q d hd
    rw [hget] at hd
    split at hd
    · cases hd
      exact hw
    · exact h.wellFormed hd
  · intro i l q hl hr
    obtain ⟨d, hd, he⟩ := h.explained hl hr
    exact ⟨d, hkeep hd, he⟩
  · intro q d hd l
    show w'.numWatchers q l = _
    rw [hattached.numWatchers]
    rw [hget] at hd
    by_cases hq : q = r
    · rw [if_pos hq] at hd
      cases hd
      have hzero : w.numWatchers q l = 0 := h.numWatchers_of_dead (hq ▸ hdead) l
      rw [hzero, if_pos hq, Nat.zero_add]
    · rw [if_neg hq] at hd
      rw [if_neg hq, Nat.add_zero]
      exact h.watched hd l
  · intro l e he
    rcases hattached.entries he with he | ⟨hr, hb⟩
    · obtain ⟨d, hd, hb⟩ := h.entries he
      exact ⟨d, hkeep hd, hb⟩
    · exact ⟨c, by rw [hget, if_pos hr], hb⟩
  · intro q d hd
    show (w'.notified q).length = _
    have hperm := Watches.notified_perm_of_numUndos (r := q) fun v => hundos v q
    rw [hperm.length_eq]
    rw [hget] at hd
    by_cases hq : q = r
    · rw [if_pos hq] at hd
      cases hd
      rw [hf, List.length_eq_zero_iff, List.eq_nil_iff_forall_not_mem]
      intro v hv
      have hcount := Watches.count_notified w q v
      have hzero : w.numUndos v q = 0 := h.numUndos_of_dead (hq ▸ hdead) v
      rw [hzero, List.count_eq_zero] at hcount
      exact hcount hv
    · rw [if_neg hq] at hd
      exact h.counted hd
  · intro v q hu
    have hu' : w.numUndos v q ≠ 0 := by
      rw [← hundos]
      exact hu
    obtain ⟨d, hd, x, hx, hxv, hle⟩ := h.reported hu'
    refine ⟨d, hkeep hd, x, hx, hxv, ?_⟩
    show w'.numUndos v q ≤ _
    rw [hundos]
    exact hle

end Arena.OnBoard

namespace SearchState

theorem isAssigned_of_extension {a b : Assignment} (h : a.Extension b) {v : Nat}
    (hv : b.isAssigned v = false) : a.isAssigned v = false := by
  cases hc : a.cell? v with
  | none => simp [Assignment.isAssigned, hc]
  | some c =>
    rw [Assignment.isAssigned, h.cell hc] at hv
    cases hv

/-- More literals are true, and the constraints are the same ones. -/
structure Extends (s s' : SearchState κ) : Prop where
  extension : s.assignment.Extension s'.assignment
  watches : s'.board.watches = s.board.watches
  arena : s'.arena = s.arena
  order : s'.order = s.order
  head : s'.head = s.head
  learned : s'.learned = s.learned

theorem WellFormed.extend {s s' : SearchState κ} (h : s.WellFormed) (he : s.Extends s')
    (hc : s'.assignment.Consistent)
    (hnew : ∀ {i l r}, s.assignment.trues.length ≤ i → s'.assignment.trues[i]? = some l →
      s'.assignment.reason? l.var = some r →
      ∃ c, s.arena.get? r = some c ∧ c.kind.Explains (s'.assignment.trues.take i) l) :
    s'.WellFormed := by
  obtain ⟨⟨a, w⟩, arena, learned, order, head⟩ := s
  obtain ⟨⟨a', w'⟩, arena', learned', order', head'⟩ := s'
  obtain ⟨hext, rfl, rfl, rfl, rfl, rfl⟩ := he
  have hext : a.Extension a' := hext
  refine ⟨h.onBoard.extend hext hc h.head_le hnew, hext.layered h.layered,
    Nat.le_trans h.head_le hext.length_le, fun m hm => h.starts_le m ?_, h.tidy, h.lists, ?_, ?_⟩
  · show m ∈ a.levelStarts.toList
    rw [← hext.starts]
    exact hm
  · show order'.WellFormed a'.cells.size
    rw [hext.size]
    exact h.order
  · exact fun v hv hd hn => h.offers v hv hd (isAssigned_of_extension hext hn)

theorem UpToDate.extend {s s' : SearchState κ} (h : s.UpToDate) (hw : s.WellFormed)
    (he : s.Extends s') (hc : s'.assignment.Consistent) : s'.UpToDate := by
  obtain ⟨⟨a, w⟩, arena, learned, order, head⟩ := s
  obtain ⟨⟨a', w'⟩, arena', learned', order', head'⟩ := s'
  obtain ⟨hext, rfl, rfl, rfl, rfl, rfl⟩ := he
  have hext : a.Extension a' := hext
  have hle : head' ≤ a.trues.length := hw.head_le
  refine ⟨fun m hm => ?_, fun r c hr hl => ?_⟩
  · have hm' : m ∈ a.levelStarts.toList := by
      rw [← hext.starts]
      exact hm
    have htake : a'.trues.take m = a.trues.take m := hext.take (hw.layered.le_length m hm')
    show arena'.Settles w' (a'.trues.take m) (a'.trues.take m)
    rw [htake]
    exact h.grounded m hm'
  · have htake : a'.trues.take head' = a.trues.take head' := hext.take hle
    show c.kind.Settled a'.trues (a'.trues.take head') _
    rw [htake]
    exact (h.settles r c hr hl).mono hc.functional fun l hl => hext.mem hl

theorem Extends.retains {s s' : SearchState κ} (he : s.Extends s') (hw : s.WellFormed) :
    s.Retains s' := by
  refine .of_agree ?_ fun _ hl => he.extension.roots_subset hw.layered hl
  rw [he.arena]
  exact .refl _

/-- What a literal does that becomes true without a reason, or is true or false already. -/
theorem enqueue_spec {s : SearchState κ} (h : s.WellFormed) {l : Literal}
    (hk : l.Known s.assignment.cells.size) :
    s.Extends (s.enqueue l).2 ∧ (s.enqueue l).2.WellFormed ∧
      s.assignment.Enqueued l none (s.enqueue l).1 (s.enqueue l).2.assignment := by
  obtain ⟨⟨a, w⟩, arena, learned, order, head⟩ := s
  have hq : a.Enqueued l none (a.enqueue l none).1 (a.enqueue l none).2 :=
    Assignment.enqueued h.onBoard.consistent h.layered.le_length hk.1 hk.2 none
  have he : (⟨⟨a, w⟩, arena, learned, order, head⟩ : SearchState κ).Extends
      ((⟨⟨a, w⟩, arena, learned, order, head⟩ : SearchState κ).enqueue l).2 :=
    ⟨hq.extension, rfl, rfl, rfl, rfl, rfl⟩
  refine ⟨he, h.extend he hq.consistent fun hi hm hr => ?_, hq⟩
  have hnone := (hq.fresh hi hm).2.2
  rw [show (SearchState.enqueue l ⟨⟨a, w⟩, arena, learned, order, head⟩).2.assignment =
    (a.enqueue l none).2 from rfl, hnone] at hr
  cases hr

/-- A fact that the valuation satisfies, or a decision, asks for nothing. -/
theorem Admits.enqueue {s : SearchState κ} {ν : Valuation} (h : s.Admits ν) (hw : s.WellFormed)
    {l : Literal} (hk : l.Known s.assignment.cells.size)
    (hl : s.decisionLevel = 0 → l.holds ν = true) : (s.enqueue l).2.Admits ν := by
  obtain ⟨he, hw', hq⟩ := enqueue_spec hw hk
  refine ⟨fun hc => h.holds (he.arena ▸ hc), fun m hm hr => ?_⟩
  rcases he.extension.mem_roots hw.layered hm with hm' | ⟨i, hi, hget⟩
  · refine h.facts m hm' ?_
    rw [← hr, he.extension.reason?_eq hw.onBoard.consistent (Assignment.mem_trues_of_mem_roots hm')]
  · obtain ⟨rfl, -, -⟩ := hq.fresh hi hget
    refine hl ?_
    obtain ⟨j, hj, hlevel⟩ := (Assignment.mem_roots_iff hw'.layered).mp hm
    have hij := hw'.onBoard.consistent.getElem?_inj hj hget rfl
    subst hij
    rw [he.extension.levelAt_eq, Assignment.levelAt_eq_decisionLevel] at hlevel
    · exact hlevel
    · exact fun k hk => Nat.le_trans (hw.layered.le_length k hk) hi

/-! ## Levels -/

theorem WellFormed.openLevel {s : SearchState κ} (h : s.WellFormed)
    (hhead : s.head = s.assignment.trues.length) : s.openLevel.WellFormed := by
  obtain ⟨⟨a, w⟩, arena, learned, order, head⟩ := s
  have hhead : head = a.trues.length := hhead
  have hb : arena.OnBoard ⟨a, w⟩ head := h.onBoard
  refine ⟨⟨hb.consistent.openLevel, hb.sized, hb.wellFormed, hb.explained, hb.watched, hb.entries,
    hb.counted, hb.reported⟩, h.layered.openLevel, h.head_le, fun m hm => ?_, h.tidy, h.lists,
    h.order, h.offers⟩
  have hm' : m ∈ a.openLevel.levelStarts.toList := hm
  rw [Assignment.levelStarts_openLevel] at hm'
  rcases List.mem_append.mp hm' with hm' | hm'
  · exact h.starts_le m hm'
  · rw [List.mem_singleton.mp hm', ← hhead]
    exact Nat.le_refl _

theorem UpToDate.openLevel {s : SearchState κ} (h : s.UpToDate)
    (hhead : s.head = s.assignment.trues.length) : s.openLevel.UpToDate := by
  obtain ⟨⟨a, w⟩, arena, learned, order, head⟩ := s
  have hhead : head = a.trues.length := hhead
  have hs : arena.Settles w a.trues (a.trues.take head) := h.settles
  refine ⟨fun m hm => ?_, h.settles⟩
  have hm' : m ∈ a.openLevel.levelStarts.toList := hm
  rw [Assignment.levelStarts_openLevel] at hm'
  rcases List.mem_append.mp hm' with hm' | hm'
  · exact h.grounded m hm'
  · rw [hhead, List.take_length] at hs
    rw [List.mem_singleton.mp hm']
    show arena.Settles w (a.trues.take a.trues.length) (a.trues.take a.trues.length)
    rw [List.take_length]
    exact hs

theorem roots_openLevel {s : SearchState κ} (h : s.WellFormed) :
    s.openLevel.assignment.roots = s.assignment.roots := by
  obtain ⟨⟨a, w⟩, arena, learned, order, head⟩ := s
  show a.trues.take (a.openLevel.startOfLevel 1) = a.trues.take (a.startOfLevel 1)
  rw [Assignment.startOfLevel, Assignment.startOfLevel, ← Array.getElem?_toList,
    ← Array.getElem?_toList, Assignment.levelStarts_openLevel]
  cases hs : a.levelStarts.toList with
  | nil => simp [Assignment.size_trail]
  | cons m ms => rfl

theorem Retains.openLevel {s : SearchState κ} (h : s.WellFormed) : s.Retains s.openLevel := by
  refine .of_agree ?_ fun l hl => by rwa [roots_openLevel h]
  obtain ⟨⟨a, w⟩, arena, learned, order, head⟩ := s
  exact .refl _

theorem Admits.openLevel {s : SearchState κ} {ν : Valuation} (h : s.Admits ν) (hw : s.WellFormed) :
    s.openLevel.Admits ν := by
  have hroots := roots_openLevel hw
  obtain ⟨⟨a, w⟩, arena, learned, order, head⟩ := s
  refine ⟨h.holds, fun l hl hr => h.facts l ?_ hr⟩
  rwa [hroots] at hl

/-! ## Constraints in -/

/-- The constraint `c` came in as `r`, and it alone forced what became true. -/
structure Gains (r : Reference) (c : Constraint κ) (s s' : SearchState κ) : Prop where
  extension : s.assignment.Extension s'.assignment
  dead : s.arena.get? r = none
  get : ∀ q, s'.arena.get? q = if q = r then some c else s.arena.get? q
  undos : s'.board.watches.undos = s.board.watches.undos
  order : s'.order = s.order
  head : s'.head = s.head
  forced : ∀ {i l}, s.assignment.trues.length ≤ i → s'.assignment.trues[i]? = some l →
    s'.assignment.reason? l.var = some r

namespace Gains

variable {r : Reference} {c : Constraint κ} {s s' : SearchState κ} (h : s.Gains r c s')
include h

theorem kept {q : Reference} {d : Constraint κ} (hd : s.arena.get? q = some d) :
    s'.arena.get? q = some d := by
  rw [h.get, if_neg]
  · exact hd
  · rintro rfl
    rw [h.dead] at hd
    cases hd

theorem self : s'.arena.get? r = some c := by rw [h.get, if_pos rfl]

theorem cases {q : Reference} {d : Constraint κ} (hd : s'.arena.get? q = some d) :
    (q = r ∧ d = c) ∨ s.arena.get? q = some d := by
  rw [h.get] at hd
  split at hd
  · cases hd
    exact Or.inl ⟨by assumption, rfl⟩
  · exact Or.inr hd

theorem retains (hw : s.WellFormed) : s.Retains s' :=
  ⟨fun _ hl => h.extension.roots_subset hw.layered hl,
    fun {_ d} hd _ => Or.inl ⟨d, h.kept hd, .refl _, .refl _⟩⟩

theorem admits (hw : s.WellFormed) {ν : Valuation} (ha : s.Admits ν) (hc : c.kind.Holds ν) :
    s'.Admits ν := by
  refine ⟨fun hd => ?_, fun l hl hr => ?_⟩
  · rcases h.cases hd with ⟨-, rfl⟩ | hd
    · exact hc
    · exact ha.holds hd
  · rcases h.extension.mem_roots hw.layered hl with hl | ⟨i, hi, hget⟩
    · refine ha.facts l hl ?_
      rw [← hr, h.extension.reason?_eq hw.onBoard.consistent (Assignment.mem_trues_of_mem_roots hl)]
    · rw [h.forced hi hget] at hr
      cases hr

theorem numUndos_eq (v : Nat) (q : Reference) :
    s'.board.watches.numUndos v q = s.board.watches.numUndos v q := by
  simp only [Watches.numUndos, Watches.undosOf, h.undos]

/-- A learned constraint, or one that nothing was decided of, leaves everything settled. -/
theorem settles (hw : s.WellFormed)
    (hnew : c.metadata.learned = true ∨ c.kind.Fresh s.assignment.trues)
    {us trues seen : List Literal} (hf : Functional trues) (hus : ∀ l ∈ us, l ∈ trues)
    (hseen : ∀ l ∈ seen, l ∈ s.assignment.trues) (hs : s.arena.Settles s.board.watches us seen) :
    s'.arena.Settles s'.board.watches trues seen := by
  intro q d hd hl
  rcases h.cases hd with ⟨rfl, rfl⟩ | hd
  · rcases hnew with hnew | hnew
    · rw [hl] at hnew
      cases hnew
    · refine Kind.settled_of_fresh (hnew.subset hseen) fun x _ => ?_
      rw [h.numUndos_eq]
      exact hw.onBoard.numUndos_of_dead h.dead x.var
  · refine ((hs q d hd hl).mono hf hus).congr_told fun x _ => ?_
    exact h.numUndos_eq x.var q

theorem upToDate (hw : s.WellFormed) (hw' : s'.WellFormed) (hu : s.UpToDate)
    (hnew : c.metadata.learned = true ∨ c.kind.Fresh s.assignment.trues) : s'.UpToDate := by
  refine ⟨fun m hm => ?_, ?_⟩
  · rw [h.extension.starts] at hm
    rw [h.extension.take (hw.layered.le_length m hm)]
    have hsub : ∀ l ∈ s.assignment.trues.take m, l ∈ s.assignment.trues := fun l hl =>
      List.mem_of_mem_take hl
    refine h.settles hw hnew (fun l hl k hk hv => ?_) (fun l hl => hl) hsub (hu.grounded m hm)
    exact hw.onBoard.consistent.eq_of_var (hsub l hl) (hsub k hk) hv
  · rw [h.head, h.extension.take hw.head_le]
    exact h.settles hw hnew hw'.onBoard.consistent.functional (fun l hl => h.extension.mem hl)
      (fun l hl => List.mem_of_mem_take hl) hu.settles

end Gains

/-- A constraint of the library's own is attached and violated by nothing. -/
theorem attach_spec [CustomConstraint κ] {s s' : SearchState κ} (h : s.WellFormed)
    {c : Constraint κ}
    (hk : c.kind.WellFormed s.assignment.cells.size) (hf : c.kind.falsified = 0) {r : Reference}
    {ok : Bool} (hrun : s.attach c = (r, ok, s')) :
    ok = true ∧ s'.WellFormed ∧ s.Gains r c s' ∧ s'.assignment = s.assignment ∧
      s'.learned = s.learned := by
  obtain ⟨⟨a, w⟩, arena, learned, order, head⟩ := s
  have hdead : arena.get? (arena.allocate c).1 = none := (Arena.allocate_spec h.tidy c).1
  have hb : arena.OnBoard ⟨a, w⟩ head := h.onBoard
  obtain ⟨w', hattach, hattached⟩ :=
    Constraint.attach_spec (a := a) (w := w) hb.sized hk (arena.allocate c).1
  simp only [attach, hattach, Prod.mk.injEq] at hrun
  obtain ⟨rfl, rfl, rfl⟩ := hrun
  obtain ⟨htidy, hget⟩ := Arena.set_allocate_spec h.tidy c c
  refine ⟨rfl, ⟨hb.join hdead hget hk hf hattached, h.layered, h.head_le, h.starts_le,
    htidy, h.lists.join hdead hget, h.order, h.offers⟩, ?_, rfl, rfl⟩
  exact ⟨.refl _, hdead, hget, hattached.undos, rfl, rfl,
    fun hi hl => (false_of_getElem? hi hl).elim⟩

/-- A learned clause is entered and forces its first literal, if that has no value yet. -/
theorem learn_spec {s : SearchState κ} (h : s.WellFormed) {k : Clause} {m : Metadata} {lbd : Nat}
    (hk : (Kind.clause k : Kind κ).WellFormed s.assignment.cells.size) (hm : m.learned = true)
    (hrest : ∀ l ∈ k.second :: k.rest, -l ∈ s.assignment.trues) :
    ∃ r c, c.kind = .clause k ∧ m.Similar c.metadata ∧ (s.learn k m lbd).WellFormed ∧
      s.Gains r c (s.learn k m lbd) ∧
      ∀ l ∈ (s.learn k m lbd).assignment.trues, l = k.first ∨ l ∈ s.assignment.trues := by
  obtain ⟨⟨a, w⟩, arena, learned, order, head⟩ := s
  have hb : arena.OnBoard ⟨a, w⟩ head := h.onBoard
  have hdead := (Arena.allocate_spec h.tidy (⟨.clause k, m⟩ : Constraint κ)).1
  have hplaced := Arena.set_allocate_spec h.tidy (⟨.clause k, m⟩ : Constraint κ)
  generalize hr : (arena.allocate (⟨.clause k, m⟩ : Constraint κ)).1 = r at hdead hplaced
  generalize harena : (arena.allocate (⟨.clause k, m⟩ : Constraint κ)).2 = arena₁ at hplaced
  obtain ⟨w', hattach, hattached⟩ := Clause.attached (κ := κ) (a := a) (w := w) hb.sized hk r
  have hfirst : k.first.Known a.cells.size := hk.2 _ List.mem_cons_self
  have hq : a.Enqueued k.first (some r) (a.enqueue k.first (some r)).1
      (a.enqueue k.first (some r)).2 :=
    Assignment.enqueued hb.consistent h.layered.le_length hfirst.1 hfirst.2 (some r)
  have hsim := similar_add learned r lbd (Kind.clause k : Kind κ) m
  have hkind : (learned.add r lbd (⟨.clause k, m⟩ : Constraint κ)).1.kind = .clause k := rfl
  generalize hc : (learned.add r lbd (⟨.clause k, m⟩ : Constraint κ)).1 = c at hsim hkind
  obtain ⟨htidy, hget⟩ := hplaced c
  have hlearn : SearchState.learn k m lbd ⟨⟨a, w⟩, arena, learned, order, head⟩ =
      ⟨⟨(a.enqueue k.first (some r)).2, w'⟩, arena₁.set r c,
        { learned with references := learned.references.push r }, order, head⟩ := by
    simp only [SearchState.learn, hr, harena, hattach, Board.enqueue_eq, hc]
    rfl
  rw [hlearn]
  have hboard : (arena₁.set r c).OnBoard ⟨a, w'⟩ head := by
    refine hb.join hdead hget ?_ ?_ ?_
    · rw [hkind]
      exact hk
    · rw [hkind]
      rfl
    · rw [hkind]
      exact hattached
  refine ⟨r, c, hkind, hsim, ⟨?_, hq.extension.layered h.layered,
    Nat.le_trans h.head_le hq.extension.length_le, fun n hn => h.starts_le n ?_, htidy,
    h.lists.push hdead hget (hsim.learned.trans hm), ?_, ?_⟩, ⟨hq.extension, hdead, hget,
    hattached.undos, rfl, rfl, fun hi hl => (hq.fresh hi hl).2.2⟩, fun l hl => hq.mem_cases hl⟩
  · refine hboard.extend hq.extension hq.consistent h.head_le fun {i l q} hi hl hreason => ?_
    obtain ⟨rfl, htake, hforced⟩ := hq.fresh hi hl
    rw [hforced] at hreason
    cases hreason
    refine ⟨c, by rw [hget, if_pos rfl], ?_⟩
    rw [hkind, htake]
    exact ⟨rfl, hrest⟩
  · show n ∈ a.levelStarts.toList
    rw [← hq.extension.starts]
    exact hn
  · show order.WellFormed (a.enqueue k.first (some r)).2.cells.size
    rw [hq.extension.size]
    exact h.order
  · exact fun v hv hd hn => h.offers v hv hd (isAssigned_of_extension hq.extension hn)

end SearchState

end ClauseLearning
