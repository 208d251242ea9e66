import ClauseLearning.Proofs.Invariant

/-!
# Propagation

While the watchers of a literal are notified one after the other, the invariant holds of the state
with the remaining watchers put back (`Notifying`). A visit keeps that, so does the walk through the
watchers, and so does the walk along the trail. None of them takes anything back
(`SearchState.Follows`).

* `visit_spec`: one constraint is notified.
* `notify_spec`: one literal is notified of.
* `propagate_spec`: in the end everything was notified of, or a constraint is violated.
-/

namespace ClauseLearning

variable {κ : Type} [CustomConstraint κ]

/-- Of what succeeds in two steps, both steps succeed. -/
theorem ok_of_bind {ε α β : Type} {x : Except ε α} {f : α → Except ε β} {b : β}
    (h : x >>= f = .ok b) : ∃ a, x = .ok a ∧ f a = .ok b := by
  cases x with
  | error e => cases h
  | ok a => exact ⟨a, rfl, h⟩

/-- A step that succeeded is over. -/
theorem ok_bind {ε α β : Type} (a : α) (f : α → Except ε β) : (.ok a >>= f) = f a := rfl

/-- Two steps that succeed make one that succeeds. -/
theorem exists_ok_bind {ε α β : Type} {x : Except ε α} {f : α → Except ε β}
    (hx : ∃ a, x = .ok a) (hf : ∀ a, x = .ok a → ∃ b, f a = .ok b) : ∃ b, x >>= f = .ok b := by
  obtain ⟨a, rfl⟩ := hx
  exact hf a rfl

/-- If the computation fails, then with one of these faults. -/
def FailsWith {α : Type} (F : Fault → Prop) (x : Except Fault α) : Prop :=
  ∀ fault, x = .error fault → F fault

namespace FailsWith

variable {α β : Type} {F G : Fault → Prop}

theorem ok (a : α) : FailsWith F (.ok a) := nofun

theorem error {fault : Fault} (h : F fault) : FailsWith F (.error fault : Except Fault α) :=
  fun _ heq => Except.error.inj heq ▸ h

theorem bind {x : Except Fault α} {f : α → Except Fault β} (hx : FailsWith F x)
    (hf : ∀ a, x = .ok a → FailsWith F (f a)) : FailsWith F (x >>= f) := by
  cases x with
  | error fault => exact .error (hx fault rfl)
  | ok a => exact hf a rfl

theorem imp {x : Except Fault α} (hx : FailsWith F x) (h : ∀ fault, F fault → G fault) :
    FailsWith G x :=
  fun fault heq => h fault (hx fault heq)

end FailsWith

/-- Every constraint that was not learned is settled on what was seen. -/
def Arena.Settles (s : Arena κ) (w : Watches) (trues seen : List Literal) : Prop :=
  ∀ r c, s.get? r = some c → c.metadata.learned = false →
    c.kind.Settled trues seen fun v => w.numUndos v r

namespace SearchState

/-- Literals were made true and constraints moved their watches; the first `m` literals matter to
both states in the same way. -/
structure Follows (m : Nat) (s s' : SearchState κ) : Prop where
  extension : s.assignment.Extension s'.assignment
  agree : s.arena.Agree s'.arena
  references : s'.learned.references = s.learned.references
  order : s'.order = s.order
  head_le : s.head ≤ s'.head
  /-- Everything that became true has a reason. -/
  reasoned : ∀ {i l}, s.assignment.trues.length ≤ i → s'.assignment.trues[i]? = some l →
    ∃ r, s'.assignment.reason? l.var = some r
  told : ∀ x ∈ s.assignment.trues.take m, ∀ r,
    s'.board.watches.numUndos x.var r = s.board.watches.numUndos x.var r
  still : ∀ n, n ≤ m →
    s.arena.Settles s.board.watches (s.assignment.trues.take n) (s.assignment.trues.take n) →
    s'.arena.Settles s'.board.watches (s.assignment.trues.take n) (s.assignment.trues.take n)

omit [CustomConstraint κ] in
theorem Follows.refl (m : Nat) (s : SearchState κ) : s.Follows m s :=
  ⟨.refl _, .refl _, rfl, rfl, Nat.le_refl _,
    fun hi hl => (false_of_getElem? hi hl).elim, fun _ _ _ => rfl, fun _ _ h => h⟩

omit [CustomConstraint κ] in
theorem Follows.trans {m : Nat} {s₁ s₂ s₃ : SearchState κ} (h : s₁.Follows m s₂)
    (hc : s₂.assignment.Consistent) (hm : m ≤ s₁.assignment.trues.length)
    (h' : s₂.Follows m s₃) : s₁.Follows m s₃ := by
  have htake : ∀ n, n ≤ m → s₂.assignment.trues.take n = s₁.assignment.trues.take n :=
    fun n hn => h.extension.take (Nat.le_trans hn hm)
  refine ⟨h.extension.trans h'.extension, h.agree.trans h'.agree,
    h'.references.trans h.references, h'.order.trans h.order, Nat.le_trans h.head_le h'.head_le,
    ?_, ?_, ?_⟩
  · intro i l hi hl
    by_cases hlt : i < s₂.assignment.trues.length
    · rw [h'.extension.getElem? hlt] at hl
      obtain ⟨r, hr⟩ := h.reasoned hi hl
      exact ⟨r, by rw [h'.extension.reason?_eq hc (List.mem_of_getElem? hl), hr]⟩
    · exact h'.reasoned (Nat.le_of_not_lt hlt) hl
  · intro x hx r
    rw [h'.told x (htake m (Nat.le_refl m) ▸ hx), h.told x hx]
  · intro n hn hs
    have hs' := h'.still n hn
    rw [htake n hn] at hs'
    exact hs' (h.still n hn hs)

/-- The watchers in `ws` are still to be notified that `p` became true. -/
structure Notifying (s : SearchState κ) (p : Literal) (ws : List Watcher) : Prop where
  onBoard : s.arena.OnBoard ⟨s.assignment, s.board.watches.append p ws⟩ s.head
  layered : s.assignment.Layered
  mem : p ∈ s.assignment.trues.take s.head
  reports : ∀ {r c}, s.arena.get? r = some c → s.board.watches.numUndos p.var r +
    c.kind.tally * ws.countP (fun e => decide (e.constraint = r)) = c.kind.reports (-p)

/-- The constraint is settled on what was seen before `p`, and on `p` too if it has no watcher left
to be notified. -/
def SettledOn (s : SearchState κ) (p : Literal) (ws : List Watcher) (seen : List Literal)
    (r : Reference) (c : Constraint κ) : Prop :=
  c.kind.Settled s.assignment.trues seen (fun v => s.board.watches.numUndos v r) ∧
    (ws.countP (fun e => decide (e.constraint = r)) = 0 →
      c.kind.Settled s.assignment.trues (seen ++ [p]) fun v => s.board.watches.numUndos v r)

/-- Constraints are settled on what was seen before `p`, and on `p` too if they have no watcher left
to be notified. -/
def SettledBut (s : SearchState κ) (p : Literal) (ws : List Watcher) (seen : List Literal) : Prop :=
  ∀ r c, s.arena.get? r = some c → c.metadata.learned = false →
    c.kind.Settled s.assignment.trues seen (fun v => s.board.watches.numUndos v r) ∧
      (ws.countP (fun e => decide (e.constraint = r)) = 0 →
        c.kind.Settled s.assignment.trues (seen ++ [p]) fun v => s.board.watches.numUndos v r)

/-! ## One constraint -/

omit [CustomConstraint κ] in
theorem similar_protect (d : LearnedDatabase) (m : Metadata) : m.Similar (d.protect m) := by
  unfold LearnedDatabase.protect
  split
  · exact ⟨rfl, rfl, rfl, rfl⟩
  · exact .refl m

omit [CustomConstraint κ] in
theorem similar_add (d : LearnedDatabase) (r : Reference) (lbd : Nat) (k : Kind κ) (m : Metadata) :
    m.Similar (d.add r lbd (⟨k, m⟩ : Constraint κ)).1.metadata :=
  (⟨rfl, rfl, rfl, rfl⟩ : m.Similar { m with lbd, activity := m.activity + d.increment }).trans
    (similar_protect d _)

omit [CustomConstraint κ] in
theorem references_measure (d : LearnedDatabase) (a : Assignment) (ls : List Literal) :
    (d.measure a ls).2.references = d.references := rfl

theorem onPropagation_spec (d : LearnedDatabase) (a : Assignment) (c : Constraint κ) :
    (d.onPropagation a c).1.kind = c.kind ∧ c.metadata.Similar (d.onPropagation a c).1.metadata ∧
      (d.onPropagation a c).2.references = d.references := by
  unfold LearnedDatabase.onPropagation
  split
  · rcases hmeasure : d.measure a c.literals with ⟨lbd, d'⟩
    have href : d'.references = d.references := by
      rw [← references_measure d a c.literals, hmeasure]
    dsimp only
    split
    · have hsim := similar_protect d' { c.metadata with lbd }
      exact ⟨rfl, ⟨hsim.learned, hsim.age, hsim.restricted, hsim.handle⟩, href⟩
    · exact ⟨rfl, .refl _, href⟩
  · exact ⟨rfl, .refl _, rfl⟩

/-- A visit notifies the constraint and may measure it again. -/
theorem visit_eq {p : Literal} {r : Reference} {n : Nat} {s s' : SearchState κ} {ok : Bool}
    (h : visit p r n s = .ok (ok, s')) :
    ∃ c c' c'' b', s.arena.get? r = some c ∧ c.propagate r p s.board = (ok, c', b') ∧
      c''.kind = c'.kind ∧ c'.metadata.Similar c''.metadata ∧ s'.board = b' ∧
      s'.arena = s.arena.set r c'' ∧ s'.learned.references = s.learned.references ∧
      s'.order = s.order ∧ s'.head = s.head := by
  obtain ⟨board, arena, learned, order, head⟩ := s
  simp only [visit] at h
  obtain ⟨c, hc, h⟩ := ok_of_bind h
  rw [Arena.get_eq_ok] at hc
  split at h
  · rename_i c' b' hprop
    cases h
    exact ⟨c, c', c', b', hc, hprop, rfl, .refl _, rfl, rfl, rfl, rfl, rfl⟩
  · rename_i c' b' hprop
    split at h
    · cases h
      obtain ⟨hk, hm, hr⟩ := onPropagation_spec learned b'.assignment c'
      exact ⟨c, c', _, b', hc, hprop, hk, hm, rfl, rfl, hr, rfl, rfl⟩
    · cases h
      exact ⟨c, c', c', b', hc, hprop, rfl, .refl _, rfl, rfl, rfl, rfl, rfl⟩

end SearchState

namespace Arena.OnBoard

omit [CustomConstraint κ]

variable {s : Arena κ} {a a' : Assignment} {w w' : Watches} {head : Nat} {p : Literal}
  {e : Watcher} {ws : List Watcher} {c c' : Constraint κ} {ok : Bool}

/-! ### A visit of one constraint

The constraint is replaced in the arena by what the visit made of it, and the board by what the
visit left of that; the watchers that are still to be notified are put back. -/

section

variable (h : s.OnBoard ⟨a, w.append p (e :: ws)⟩ head) (hc : s.get? e.constraint = some c)
  (hv : c.kind.Visit e.constraint p ⟨a, w⟩ ok c'.kind ⟨a', w'⟩)
include h hc hv

theorem explained_visit {i : Nat} {l : Literal} {r : Reference} (hl : a'.trues[i]? = some l)
    (hr : a'.reason? l.var = some r) :
    ∃ d, (s.set e.constraint c').get? r = some d ∧ d.kind.Explains (a'.trues.take i) l := by
  by_cases hi : i < a.trues.length
  · have hl' : a.trues[i]? = some l := (hv.extension.getElem? hi).symm.trans hl
    have htake : a'.trues.take i = a.trues.take i := hv.extension.take (Nat.le_of_lt hi)
    have hreason : a.reason? l.var = some r := by
      rw [← hv.extension.reason?_eq h.consistent (List.mem_of_getElem? hl')]
      exact hr
    obtain ⟨d, hd, he⟩ := h.explained hl' hreason
    obtain ⟨d', hd', he'⟩ := exists_get?_set hc
      (P := fun d d' => d.kind.Explains (a.trues.take i) l → d'.kind.Explains (a.trues.take i) l)
      (hv.keeps (fun m hm => List.mem_of_mem_take hm) (List.mem_of_getElem? hl'))
      (fun _ he => he) hd
    exact ⟨d', hd', htake ▸ he' he⟩
  · obtain ⟨hreason, he⟩ := hv.forced (Nat.le_of_not_lt hi) hl
    have hre : r = e.constraint := Option.some.inj (hr.symm.trans hreason)
    exact ⟨c', by rw [get?_set hc, if_pos hre], he⟩

theorem watched_visit (hp : p ∈ a.trues) {r : Reference} {d : Constraint κ}
    (hd : (s.set e.constraint c').get? r = some d) (l : Literal) :
    (w'.append p ws).numWatchers r l = d.kind.watched.count l := by
  have hpv : p.var < a.cells.size := h.consistent.var_lt hp
  have hcons : (e :: ws).countP (fun x => decide (x.constraint = r)) =
      ws.countP (fun x => decide (x.constraint = r)) + if r = e.constraint then 1 else 0 := by
    rw [List.countP_cons]
    simp only [decide_eq_true_eq, eq_comm (b := r)]
  have hold : ∀ {c₀}, s.get? r = some c₀ →
      w.numWatchers r l + (if p = l then
        ws.countP (fun x => decide (x.constraint = r)) + if r = e.constraint then 1 else 0
        else 0) = c₀.kind.watched.count l := by
    intro c₀ hc₀
    rw [← h.watched hc₀ l, ← hcons]
    exact (Watches.numWatchers_append h.sized.of_append hpv _ _ _).symm
  rw [get?_set hc] at hd
  rw [Watches.numWatchers_append hv.sized hpv]
  by_cases hr : r = e.constraint
  · rw [if_pos hr] at hd
    cases hd
    subst hr
    have hreg : w'.numWatchers e.constraint l + c.kind.watched.count l =
        w.numWatchers e.constraint l + c'.kind.watched.count l + if l = p then 1 else 0 :=
      hv.registered l
    have hold := hold hc
    simp only [if_true, eq_comm (a := p)] at hold ⊢
    split at hold
    · rename_i hlp
      rw [if_pos hlp] at hreg ⊢
      omega
    · rename_i hlp
      rw [if_neg hlp] at hreg ⊢
      omega
  · rw [if_neg hr] at hd
    have hold := hold hd
    rw [if_neg hr, Nat.add_zero] at hold
    rw [hv.others r hr l]
    exact hold

theorem entries_visit (hp : p ∈ a.trues) {l : Literal} {x : Watcher}
    (hx : x ∈ (w'.append p ws).watchersOf l) :
    ∃ d, (s.set e.constraint c').get? x.constraint = some d ∧ ∀ m ∈ x.blocker, d.kind.Blocks m := by
  have hpv : p.var < a.cells.size := h.consistent.var_lt hp
  have hold : x ∈ (w.append p (e :: ws)).watchersOf l →
      ∃ d, (s.set e.constraint c').get? x.constraint = some d ∧
        ∀ m ∈ x.blocker, d.kind.Blocks m := by
    intro hx
    obtain ⟨d, hd, hb⟩ := h.entries hx
    obtain ⟨d', hd', hb'⟩ := exists_get?_set hc
      (P := fun d d' => ∀ m, d.kind.Blocks m → d'.kind.Blocks m) (fun _ => hv.similar.blocks)
      (fun _ _ hb => hb) hd
    exact ⟨d', hd', fun m hm => hb' m (hb m hm)⟩
  rw [Watches.watchersOf_append h.sized.of_append hpv] at hold
  have hnew : x ∈ w'.watchersOf l →
      ∃ d, (s.set e.constraint c').get? x.constraint = some d ∧
        ∀ m ∈ x.blocker, d.kind.Blocks m := by
    intro hx
    rcases hv.entries hx with hx | ⟨hq, hb⟩
    · apply hold
      split
      · exact List.mem_append_left _ hx
      · exact hx
    · exact ⟨c', by rw [get?_set hc, if_pos hq], hb⟩
  rw [Watches.watchersOf_append hv.sized hpv] at hx
  split at hx
  · rename_i hpl
    rcases List.mem_append.mp hx with hx | hx
    · exact hnew hx
    · apply hold
      rw [if_pos hpl]
      exact List.mem_append_right _ (List.mem_cons_of_mem _ hx)
  · exact hnew hx

theorem counted_visit {r : Reference} {d : Constraint κ}
    (hd : (s.set e.constraint c').get? r = some d) : (w'.notified r).length = d.kind.falsified := by
  have hnotified : (w'.notified r).length =
      (w.notified r).length + if r = e.constraint then c.kind.tally else 0 := hv.notified r
  rw [get?_set hc] at hd
  by_cases hr : r = e.constraint
  · rw [if_pos hr] at hd
    cases hd
    subst hr
    have hcounted : (w.notified e.constraint).length = c.kind.falsified := h.counted hc
    rw [hnotified, hv.falsified, hcounted, if_pos rfl]
  · rw [if_neg hr] at hd
    rw [hnotified, if_neg hr, Nat.add_zero]
    exact h.counted hd

theorem reported_visit (hp : p ∈ a.trues.take head)
    (hle : w.numUndos p.var e.constraint + c.kind.tally ≤ c.kind.reports (-p)) {v : Nat}
    {r : Reference} (hu : w'.numUndos v r ≠ 0) :
    ∃ d, (s.set e.constraint c').get? r = some d ∧ ∃ x ∈ a.trues.take head,
      x.var = v ∧ w'.numUndos v r ≤ d.kind.reports (-x) := by
  have hundos : w'.numUndos v r =
      w.numUndos v r + if v = p.var ∧ r = e.constraint then c.kind.tally else 0 := hv.numUndos v r
  by_cases hvr : v = p.var ∧ r = e.constraint
  · obtain ⟨rfl, rfl⟩ := hvr
    refine ⟨c', by rw [get?_set hc, if_pos rfl], p, hp, rfl, ?_⟩
    rw [hundos, if_pos ⟨rfl, rfl⟩, hv.similar.reports_eq]
    exact hle
  · rw [if_neg hvr, Nat.add_zero] at hundos
    have hu' : (w.append p (e :: ws)).numUndos v r ≠ 0 := fun h => hu (hundos.trans h)
    obtain ⟨d, hd, x, hx, hxv, hxle⟩ := h.reported hu'
    obtain ⟨d', hd', hreports⟩ := exists_get?_set hc
      (P := fun d d' => d'.kind.reports (-x) = d.kind.reports (-x)) (hv.similar.reports_eq _)
      (fun _ => rfl) hd
    exact ⟨d', hd', x, hx, hxv, hundos ▸ hreports ▸ hxle⟩

/-- A visit of one constraint keeps the board and the arena together. -/
theorem visit (hp : p ∈ a.trues.take head) (hhead : head ≤ a.trues.length)
    (hle : w.numUndos p.var e.constraint + c.kind.tally ≤ c.kind.reports (-p)) :
    (s.set e.constraint c').OnBoard ⟨a', w'.append p ws⟩ head := by
  have hsize : a'.cells.size = a.cells.size := hv.extension.size
  have hpt : p ∈ a.trues := List.mem_of_mem_take hp
  refine ⟨hv.consistent, ?_, fun {r d} hd => ?_, h.explained_visit hc hv, h.watched_visit hc hv hpt,
    h.entries_visit hc hv hpt, h.counted_visit hc hv, fun {v r} hu => ?_⟩
  · show (w'.append p ws).Sized a'.cells.size
    rw [hsize]
    exact hv.sized.append _ _
  · show d.kind.WellFormed a'.cells.size
    rw [hsize]
    rw [get?_set hc] at hd
    split at hd
    · cases hd
      exact hv.similar.wellFormed (h.wellFormed hc)
    · exact h.wellFormed hd
  · have htake : a'.trues.take head = a.trues.take head := hv.extension.take hhead
    show ∃ d, (s.set e.constraint c').get? r = some d ∧ ∃ x ∈ a'.trues.take head,
      x.var = v ∧ w'.numUndos v r ≤ d.kind.reports (-x)
    rw [htake]
    exact h.reported_visit hc hv hp hle hu

end

/-- One more report than the constraint counted still stands for a false literal. -/
theorem falsified_lt (h : s.OnBoard ⟨a, w⟩ head) (hp : p ∈ a.trues) {r : Reference}
    {k : Cardinality} {m : Metadata} (hc : s.get? r = some ⟨.cardinality k, m⟩)
    (hle : w.numUndos p.var r + 1 ≤ k.literals.count (-p)) :
    k.falsified + 1 ≤ numFalse a.trues k.literals := by
  have hpv : p.var < w.undos.size := by
    rw [h.sized.undos]
    exact h.consistent.var_lt hp
  have hcounted : (w.notified r).length = k.falsified := h.counted hc
  have hlen := Watches.length_notified_addUndo hpv r r
  rw [if_pos rfl, hcounted] at hlen
  rw [← hlen]
  refine Watches.length_notified_le h.consistent.functional fun v hv => ?_
  rw [Watches.numUndos_addUndo hpv] at hv ⊢
  by_cases hvp : v = p.var
  · subst hvp
    refine ⟨p, hp, rfl, ?_⟩
    rw [if_pos ⟨rfl, rfl⟩]
    exact hle
  · rw [if_neg fun h => hvp h.1, Nat.add_zero] at hv ⊢
    obtain ⟨d, hd, x, hx, hxv, hxle⟩ := h.reported hv
    rw [hc] at hd
    cases hd
    exact ⟨x, List.mem_of_mem_take hx, hxv, hxle⟩

end Arena.OnBoard

namespace SearchState

variable {s s' : SearchState κ} {p : Literal} {e : Watcher} {ws : List Watcher} {m n : Nat}

omit [CustomConstraint κ] in
theorem Notifying.numUndos_add_le (h : s.Notifying p (e :: ws)) {c : Constraint κ}
    (hc : s.arena.get? e.constraint = some c) :
    s.board.watches.numUndos p.var e.constraint + c.kind.tally ≤ c.kind.reports (-p) := by
  have hreports := h.reports hc
  rw [List.countP_cons, decide_eq_true rfl, if_pos rfl, Nat.mul_add, Nat.mul_one] at hreports
  omega

omit [CustomConstraint κ] in
theorem Notifying.due (h : s.Notifying p (e :: ws)) {c : Constraint κ}
    (hc : s.arena.get? e.constraint = some c) : c.kind.Due e.constraint p s.board := by
  have hb := h.onBoard
  have hpt : p ∈ s.assignment.trues := List.mem_of_mem_take h.mem
  have hpv : p.var < s.assignment.cells.size := hb.consistent.var_lt hpt
  have hsized : s.board.watches.Sized s.assignment.cells.size := hb.sized.of_append
  have hwatched : ∀ l, s.board.watches.numWatchers e.constraint l +
      (if p = l then (e :: ws).countP (fun x => decide (x.constraint = e.constraint)) else 0) =
      c.kind.watched.count l := by
    intro l
    rw [← hb.watched hc l]
    exact (Watches.numWatchers_append hsized hpv _ _ _).symm
  refine ⟨hb.consistent, h.layered.le_length, hsized, hb.wellFormed hc, hpt, ?_, ?_, ?_⟩
  · rw [← List.count_pos_iff, ← hwatched p, if_pos rfl, List.countP_cons, decide_eq_true rfl,
      if_pos rfl]
    omega
  · intro l hl
    rw [← hwatched l, if_neg fun h => hl h.symm, Nat.add_zero]
  · intro k hk
    obtain ⟨kind, metadata⟩ := c
    subst hk
    refine Arena.OnBoard.falsified_lt (s := s.arena)
      (w := s.board.watches.append p (e :: ws)) (a := s.assignment) hb hpt hc ?_
    exact h.numUndos_add_le hc

/-! ### What a visit keeps -/

omit [CustomConstraint κ] in
/-- A constraint that has no watcher of the newest literal left counted every false literal. -/
theorem Notifying.falsified_eq (h : s.Notifying p ws) {seen : List Literal}
    (hseen : s.assignment.trues.take s.head = seen ++ [p]) {r : Reference} {k : Cardinality}
    {m : Metadata} (hc : s.arena.get? r = some ⟨.cardinality k, m⟩)
    (hnone : ws.countP (fun x => decide (x.constraint = r)) = 0)
    (htold : ∀ x ∈ seen, s.board.watches.numUndos x.var r = k.literals.count (-x)) :
    (∀ x ∈ seen ++ [p], s.board.watches.numUndos x.var r = k.literals.count (-x)) ∧
      k.falsified = numFalse (seen ++ [p]) k.literals := by
  have hcon := h.onBoard.consistent
  have hrep := h.reports hc
  rw [hnone, Nat.mul_zero, Nat.add_zero] at hrep
  have hall : ∀ x ∈ seen ++ [p],
      s.board.watches.numUndos x.var r = k.literals.count (-x) := by
    intro x hx
    rcases List.mem_append.mp hx with hx | hx
    · exact htold x hx
    · rw [List.mem_singleton.mp hx]
      exact hrep
  have hcounted : (s.board.watches.notified r).length = k.falsified := h.onBoard.counted hc
  have hfun : Functional (seen ++ [p]) := by
    intro x hx y hy hxy
    rw [← hseen] at hx hy
    exact hcon.functional x (List.mem_of_mem_take hx) y (List.mem_of_mem_take hy) hxy
  refine ⟨hall, ?_⟩
  rw [← Watches.length_notified_eq hfun hall fun v hv =>
    h.onBoard.numUndos_eq_zero (by rw [hseen]; exact hv) r]
  exact hcounted.symm

/-- One constraint was notified that `p` became true; `c` is what it was and `c'` what it is now. -/
structure Visited (s : SearchState κ) (p : Literal) (r : Reference) (ok : Bool)
    (s' : SearchState κ) (c c' : Constraint κ) : Prop where
  found : s.arena.get? r = some c
  arena : s'.arena = s.arena.set r c'
  head : s'.head = s.head
  references : s'.learned.references = s.learned.references
  order : s'.order = s.order
  metadata : c.metadata.Similar c'.metadata
  visit : c.kind.Visit r p s.board ok c'.kind s'.board
  full : ok = true → c'.kind.Full s'.assignment.trues

theorem Notifying.visited (h : s.Notifying p (e :: ws)) {ok : Bool}
    (hrun : visit p e.constraint n s = .ok (ok, s')) :
    ∃ c c', s.Visited p e.constraint ok s' c c' := by
  obtain ⟨c, c', c'', b', hc, hprop, hkind, hmeta, hb, harena, hrefs, horder, hhead⟩ :=
    visit_eq hrun
  obtain ⟨hmeta', hv⟩ := Constraint.visit_propagate (h.due hc) hprop
  have hfull := Constraint.full_propagate (h.due hc) hprop
  rw [← hkind, ← hb] at hv hfull
  exact ⟨c, c'', hc, harena, hhead, hrefs, horder, hmeta' ▸ hmeta, hv, hfull⟩

namespace Visited

variable {r : Reference} {ok : Bool} {c c' : Constraint κ}

omit [CustomConstraint κ]

theorem get? (hv : s.Visited p r ok s' c c') (q : Reference) :
    s'.arena.get? q = if q = r then some c' else s.arena.get? q := by
  rw [hv.arena]
  exact Arena.get?_set hv.found c' q

theorem onBoard (hv : s.Visited p e.constraint ok s' c c') (h : s.Notifying p (e :: ws))
    (hhead : s.head ≤ s.assignment.trues.length) :
    s'.arena.OnBoard ⟨s'.assignment, s'.board.watches.append p ws⟩ s'.head := by
  rw [hv.arena, hv.head]
  exact h.onBoard.visit hv.found hv.visit h.mem hhead (h.numUndos_add_le hv.found)

/-- What others than `p` were reported for is as before. -/
theorem told (hv : s.Visited p r ok s' c c') (hcon : s.assignment.Consistent)
    (hp : p ∈ s.assignment.trues) {x : Literal} (hx : x ∈ s.assignment.trues) (hxp : x ≠ p)
    (q : Reference) : s'.board.watches.numUndos x.var q = s.board.watches.numUndos x.var q := by
  have hundos : s'.board.watches.numUndos x.var q = s.board.watches.numUndos x.var q + _ :=
    hv.visit.numUndos x.var q
  rw [hundos, if_neg, Nat.add_zero]
  rintro ⟨hxv, -⟩
  exact hxp (hcon.eq_of_var hx hp hxv)

theorem notifying (hv : s.Visited p e.constraint ok s' c c') (h : s.Notifying p (e :: ws))
    (hhead : s.head ≤ s.assignment.trues.length) : s'.Notifying p ws := by
  refine ⟨hv.onBoard h hhead, hv.visit.extension.layered h.layered, ?_, ?_⟩
  · have htake : s'.assignment.trues.take s.head = s.assignment.trues.take s.head :=
      hv.visit.extension.take hhead
    rw [hv.head, htake]
    exact h.mem
  · intro q d hd
    have hundos : s'.board.watches.numUndos p.var q = s.board.watches.numUndos p.var q + _ :=
      hv.visit.numUndos p.var q
    rw [hv.get?] at hd
    rw [hundos]
    by_cases hq : q = e.constraint
    · rw [if_pos hq] at hd
      cases hd
      have hold := h.reports hv.found
      rw [List.countP_cons, decide_eq_true rfl, if_pos rfl, Nat.mul_add, Nat.mul_one] at hold
      rw [if_pos ⟨rfl, hq⟩, hv.visit.similar.reports_eq, hv.visit.similar.tally_eq, hq]
      omega
    · rw [if_neg hq] at hd
      have hold := h.reports hd
      rw [List.countP_cons, decide_eq_false fun h => hq h.symm] at hold
      rw [if_neg fun h => hq h.2]
      simpa using hold

/-- The visited constraint is settled as far as its remaining watchers allow. -/
theorem settledOn_self (hv : s.Visited p e.constraint true s' c c')
    (h : s.Notifying p (e :: ws)) (hhead : s.head ≤ s.assignment.trues.length)
    {seen : List Literal} (hseen : s.assignment.trues.take s.head = seen ++ [p])
    (hset : s.SettledOn p (e :: ws) seen e.constraint c) :
    s'.SettledOn p ws seen e.constraint c' := by
  have hcon := h.onBoard.consistent
  have hpt : p ∈ s.assignment.trues := List.mem_of_mem_take h.mem
  have hsub : ∀ x ∈ seen, x ∈ s.assignment.trues := fun x hx =>
    List.mem_of_mem_take (hseen ▸ List.mem_append_left [p] hx)
  have hpseen : p ∉ seen := by
    have hnodup := hcon.nodup_trues.sublist (List.take_sublist s.head _)
    rw [hseen, List.nodup_append] at hnodup
    exact fun hmem => hnodup.2.2 p hmem p (by simp) rfl
  have hcongr : ∀ x ∈ seen, s'.board.watches.numUndos x.var e.constraint =
      s.board.watches.numUndos x.var e.constraint := fun x hx =>
    hv.told hcon hpt (hsub x hx) (fun hxp => hpseen (hxp ▸ hx)) e.constraint
  have hbefore : c'.kind.Settled s'.assignment.trues seen
      (fun v => s'.board.watches.numUndos v e.constraint) :=
    ((hv.visit.still hsub hpseen hset.1).mono hv.visit.consistent.functional
      fun l hl => hv.visit.extension.mem hl).congr_told hcongr
  refine ⟨hbefore, fun hnone => ?_⟩
  by_cases htally : c.kind.tally = 0
  · have hsame : (fun v => s'.board.watches.numUndos v e.constraint) =
        fun v => s.board.watches.numUndos v e.constraint := by
      funext v
      have hundos : s'.board.watches.numUndos v e.constraint = _ :=
        hv.visit.numUndos v e.constraint
      rw [hundos, htally, ite_self, Nat.add_zero]
    rw [hsame]
    exact hv.visit.settles rfl htally hsub hset.1
  · -- A cardinality constraint that got its last report of `p` counted every false literal.
    have hwithin := hv.visit.within rfl
    have hnot := hv.notifying h hhead
    have hget := hv.get? e.constraint
    rw [if_pos rfl] at hget
    have hseen' : s'.assignment.trues.take s'.head = seen ++ [p] := by
      rw [hv.head, ← hseen]
      exact hv.visit.extension.take hhead
    obtain ⟨kind', metadata'⟩ := c'
    cases kind' with
    | cardinality k =>
      obtain ⟨hall, heq⟩ := hnot.falsified_eq hseen' hget hnone hbefore.1
      exact ⟨hall, heq ▸ hwithin⟩
    | clause k => exact absurd hv.visit.similar.tally_eq.symm htally
    | parity k => exact absurd hv.visit.similar.tally_eq.symm htally
    | custom k => exact absurd hv.visit.similar.tally_eq.symm htally

/-- The other constraints are as settled as they were. -/
theorem settledOn_other (hv : s.Visited p e.constraint ok s' c c') {q : Reference}
    (hq : q ≠ e.constraint) {d : Constraint κ} {seen : List Literal}
    (hset : s.SettledOn p (e :: ws) seen q d) : s'.SettledOn p ws seen q d := by
  have hmono := hv.visit.consistent.functional
  have hother : (fun v => s'.board.watches.numUndos v q) =
      fun v => s.board.watches.numUndos v q := by
    funext v
    have hundos : s'.board.watches.numUndos v q = _ := hv.visit.numUndos v q
    rw [hundos, if_neg fun h => hq h.2, Nat.add_zero]
  unfold SettledOn
  rw [hother]
  refine ⟨hset.1.mono hmono fun l hl => hv.visit.extension.mem hl, fun hnone => ?_⟩
  refine (hset.2 ?_).mono hmono fun l hl => hv.visit.extension.mem hl
  rw [List.countP_cons, decide_eq_false fun h => hq h.symm, hnone]
  rfl

/-- A visit matters to no part of the trail before `p`. -/
theorem follows (hv : s.Visited p r ok s' c c') (hcon : s.assignment.Consistent)
    (hpt : p ∈ s.assignment.trues) (hp : p ∉ s.assignment.trues.take m) : s.Follows m s' := by
  refine ⟨hv.visit.extension, hv.arena ▸ .set hv.found hv.visit.similar hv.metadata,
    hv.references, hv.order, Nat.le_of_eq hv.head.symm, ?_, ?_, ?_⟩
  · intro i l hi hl
    exact ⟨_, (hv.visit.forced hi hl).1⟩
  · intro x hx q
    exact hv.told hcon hpt (List.mem_of_mem_take hx) (fun hxp => hp (hxp ▸ hx)) q
  · intro k hk hset q d hd hl
    have hpk : p ∉ s.assignment.trues.take k := fun h => hp (List.take_subset_take_left _ hk h)
    have hcongr : ∀ x ∈ s.assignment.trues.take k,
        s'.board.watches.numUndos x.var q = s.board.watches.numUndos x.var q := fun x hx =>
      hv.told hcon hpt (List.mem_of_mem_take hx) (fun hxp => hpk (hxp ▸ hx)) q
    rw [hv.get?] at hd
    by_cases hq : q = r
    · subst hq
      rw [if_pos rfl] at hd
      cases hd
      refine Kind.Settled.congr_told (hv.visit.still (fun x hx => List.mem_of_mem_take hx) hpk
        (hset _ c hv.found ?_)) hcongr
      rw [← hl, hv.metadata.learned]
    · rw [if_neg hq] at hd
      exact Kind.Settled.congr_told (hset q d hd hl) hcongr

theorem settledBut (hv : s.Visited p e.constraint true s' c c') (h : s.Notifying p (e :: ws))
    (hhead : s.head ≤ s.assignment.trues.length) {seen : List Literal}
    (hseen : s.assignment.trues.take s.head = seen ++ [p]) (hset : s.SettledBut p (e :: ws) seen) :
    s'.SettledBut p ws seen := by
  intro q d hd hl
  rw [hv.get?] at hd
  by_cases hq : q = e.constraint
  · subst hq
    rw [if_pos rfl] at hd
    cases hd
    refine hv.settledOn_self h hhead hseen (hset _ c hv.found ?_)
    rw [← hl, hv.metadata.learned]
  · rw [if_neg hq] at hd
    exact hv.settledOn_other hq (hset q d hd hl)

end Visited

theorem visit_spec (h : s.Notifying p (e :: ws)) (hhead : s.head ≤ s.assignment.trues.length)
    (hp : p ∉ s.assignment.trues.take m) {ok : Bool}
    (hrun : visit p e.constraint n s = .ok (ok, s')) :
    s.Follows m s' ∧ s'.head = s.head ∧ s'.assignment.Layered ∧
      s'.arena.OnBoard ⟨s'.assignment, s'.board.watches.append p ws⟩ s'.head ∧
      (ok = true → s'.Notifying p ws ∧ ∀ seen, s.assignment.trues.take s.head = seen ++ [p] →
        s.SettledBut p (e :: ws) seen → s'.SettledBut p ws seen) ∧
      (ok = false → ∃ c, s'.arena.get? e.constraint = some c ∧
        c.kind.Violated s'.assignment.trues) := by
  obtain ⟨c, c', hv⟩ := h.visited hrun
  have hpt : p ∈ s.assignment.trues := List.mem_of_mem_take h.mem
  refine ⟨hv.follows h.onBoard.consistent hpt hp, hv.head, hv.visit.extension.layered h.layered,
    hv.onBoard h hhead, ?_, ?_⟩
  · rintro rfl
    exact ⟨hv.notifying h hhead, fun seen hseen => hv.settledBut h hhead hseen⟩
  · rintro rfl
    refine ⟨c', ?_, hv.visit.violated rfl⟩
    rw [hv.get?, if_pos rfl]

/-! ### All watchers of a literal -/

omit [CustomConstraint κ] in
/-- Only clauses leave a blocker. -/
theorem Notifying.clause_of_blocker (h : s.Notifying p (e :: ws)) {l : Literal}
    (hl : e.blocker = some l) :
    ∃ k m, s.arena.get? e.constraint = some ⟨.clause k, m⟩ ∧ l ∈ k.literals := by
  have hb := h.onBoard
  have hpv : p.var < s.assignment.cells.size := hb.consistent.var_lt (List.mem_of_mem_take h.mem)
  have hsized : s.board.watches.Sized s.assignment.cells.size := hb.sized.of_append
  have hmem : e ∈ (s.board.watches.append p (e :: ws)).watchersOf p := by
    rw [Watches.watchersOf_append hsized hpv, if_pos rfl]
    exact List.mem_append_right _ List.mem_cons_self
  obtain ⟨⟨kind, metadata⟩, hc, hblocks⟩ := hb.entries hmem
  have hblocks := hblocks l hl
  cases kind with
  | clause k => exact ⟨k, metadata, hc, hblocks⟩
  | cardinality k => exact hblocks.elim
  | parity k => exact hblocks.elim
  | custom k => exact hblocks.elim

omit [CustomConstraint κ] in
/-- A watcher whose blocker is true stays where it is. -/
theorem Notifying.skip (h : s.Notifying p (e :: ws)) {l : Literal} (hl : e.blocker = some l)
    (hlt : l ∈ s.assignment.trues) :
    (s.modifyBoard (·.watch e.constraint p e.blocker)).Notifying p ws ∧
      s.Follows m (s.modifyBoard (·.watch e.constraint p e.blocker)) ∧
      ∀ seen r c, s.arena.get? r = some c → s.SettledOn p (e :: ws) seen r c →
        (s.modifyBoard (·.watch e.constraint p e.blocker)).SettledOn p ws seen r c := by
  obtain ⟨k, metadata, hc, hblocks⟩ := h.clause_of_blocker hl
  obtain ⟨⟨a, w⟩, arena, learned, order, head⟩ := s
  have hb : arena.OnBoard ⟨a, w.append p (e :: ws)⟩ head := h.onBoard
  have hpv : p.var < a.cells.size := hb.consistent.var_lt (List.mem_of_mem_take h.mem)
  have hsized : w.Sized a.cells.size := hb.sized.of_append
  -- A clause counts no reports, so nothing is owed for the watcher.
  refine ⟨⟨?_, h.layered, h.mem, ?_⟩, ⟨.refl _, .refl _, rfl, rfl, Nat.le_refl _, ?_,
    fun _ _ _ => rfl, fun _ _ hs => hs⟩, ?_⟩
  · refine hb.of_perm ((hsized.add _ _).append _ _) (fun m => ?_) rfl
    show (((w.add p e).append p ws).watchersOf m).Perm ((w.append p (e :: ws)).watchersOf m)
    rw [Watches.watchersOf_append (hsized.add _ _) hpv, Watches.watchersOf_add hsized hpv,
      Watches.watchersOf_append hsized hpv]
    by_cases hpm : p = m
    · simp [hpm]
    · simp [hpm]
  · intro r d hd
    have hreports : w.numUndos p.var r +
        d.kind.tally * (e :: ws).countP (fun x => decide (x.constraint = r)) =
        d.kind.reports (-p) := h.reports hd
    show w.numUndos p.var r + d.kind.tally * ws.countP (fun x => decide (x.constraint = r)) = _
    by_cases hr : e.constraint = r
    · subst hr
      have hdc : d = ⟨.clause k, metadata⟩ := Option.some.inj (hd.symm.trans hc)
      subst hdc
      simpa [Kind.tally] using hreports
    · rw [List.countP_cons, decide_eq_false hr] at hreports
      simpa using hreports
  · intro i x hi hx
    exact (false_of_getElem? hi hx).elim
  · rintro seen r d hd ⟨hbefore, hafter⟩
    refine ⟨hbefore, fun hnone => ?_⟩
    by_cases hr : e.constraint = r
    · subst hr
      have hdc : d = ⟨.clause k, metadata⟩ := Option.some.inj (hd.symm.trans hc)
      subst hdc
      exact fun _ _ _ => ⟨l, hblocks, hlt⟩
    · refine hafter ?_
      rw [List.countP_cons, decide_eq_false hr, hnone]
      rfl

theorem notify_spec (h : s.Notifying p ws) (hhead : s.head ≤ s.assignment.trues.length)
    (hp : p ∉ s.assignment.trues.take m) (hm : m ≤ s.assignment.trues.length)
    {conflict : Option Reference} (hrun : notify p ws s = .ok (conflict, s')) :
    s.Follows m s' ∧ s'.head = s.head ∧ s'.assignment.Layered ∧
      s'.arena.OnBoard s'.board s'.head ∧
      (conflict = none → ∀ seen, s.assignment.trues.take s.head = seen ++ [p] →
        s.SettledBut p ws seen → s'.SettledBut p [] seen) ∧
      (∀ r ∈ conflict, ∃ c, s'.arena.get? r = some c ∧ c.kind.Violated s'.assignment.trues) := by
  induction ws generalizing s with
  | nil =>
    cases hrun
    have hb := h.onBoard
    have hpv : p.var < s'.assignment.cells.size :=
      hb.consistent.var_lt (List.mem_of_mem_take h.mem)
    have hsized : s'.board.watches.Sized s'.assignment.cells.size := hb.sized.of_append
    refine ⟨.refl m s', rfl, h.layered, ?_, fun _ _ _ hs => hs, fun r hr => by cases hr⟩
    refine hb.of_perm (w := s'.board.watches) hsized (fun l => ?_) rfl
    show (s'.board.watches.watchersOf l).Perm ((s'.board.watches.append p []).watchersOf l)
    rw [Watches.watchersOf_append hsized hpv]
    simp
  | cons e ws ih =>
    have hcon := h.onBoard.consistent
    unfold notify at hrun
    split at hrun
    · rename_i hblocker
      obtain ⟨l, hl, hsat⟩ := (Option.any_eq_true ..).mp hblocker
      have hlt : l ∈ s.assignment.trues := (hcon.isSatisfied_iff l).mp hsat
      obtain ⟨hnot, hfollows, hsettled⟩ := h.skip (m := m) hl hlt
      obtain ⟨hf, hh, hlay, hb, hset, hviol⟩ := ih hnot hhead hp hm hrun
      refine ⟨hfollows.trans hcon hm hf, hh, hlay, hb, fun hn seen hseen hs => ?_, hviol⟩
      exact hset hn seen hseen fun r c hc hl' => hsettled seen r c hc (hs r c hc hl')
    · obtain ⟨⟨ok, s₁⟩, hvisit, hrun⟩ := ok_of_bind hrun
      obtain ⟨hf, hh, hlay, hb, hok, hviol⟩ := visit_spec h hhead hp hvisit
      have hlen := hf.extension.length_le
      have htake : ∀ k, k ≤ s.assignment.trues.length →
          s₁.assignment.trues.take k = s.assignment.trues.take k := fun k hk => hf.extension.take hk
      cases ok with
      | true =>
        obtain ⟨hnot, hsettled⟩ := hok rfl
        have hhead₁ : s₁.head ≤ s₁.assignment.trues.length := by omega
        have hp₁ : p ∉ s₁.assignment.trues.take m := by rwa [htake m hm]
        obtain ⟨hf', hh', hlay', hb', hset', hviol'⟩ :=
          ih hnot hhead₁ hp₁ (Nat.le_trans hm hlen) hrun
        refine ⟨hf.trans hb.consistent hm hf', hh'.trans hh, hlay', hb', fun hn seen hseen hs => ?_,
          hviol'⟩
        refine hset' hn seen ?_ (hsettled seen hseen hs)
        rw [hh, htake _ hhead, hseen]
      | false =>
        cases hrun
        obtain ⟨c, hc, hviolated⟩ := hviol rfl
        have hcon₁ : s₁.assignment.Consistent := hb.consistent
        refine ⟨hf.trans hcon₁ hm ?_, hh, hlay, hb, fun hn => (by cases hn), ?_⟩
        · exact ⟨.refl _, .refl _, rfl, rfl, Nat.le_refl _,
            fun hi hl => (false_of_getElem? hi hl).elim, fun _ _ _ => rfl, fun _ _ hs => hs⟩
        · intro r hr
          cases hr
          exact ⟨c, hc, hviolated⟩

/-! ### The whole trail -/

omit [CustomConstraint κ] in
/-- What follows a well formed state is well formed if the board and the levels are. -/
theorem Follows.wellFormed (hf : s.Follows m s') (h : s.WellFormed)
    (hb : s'.arena.OnBoard s'.board s'.head) (hl : s'.assignment.Layered)
    (hle : s'.head ≤ s'.assignment.trues.length) : s'.WellFormed := by
  refine ⟨hb, hl, hle, fun k hk => ?_, hf.agree.tidy h.tidy, h.lists.agree hf.references hf.agree,
    ?_, fun v hv hd ha => ?_⟩
  · rw [hf.extension.starts] at hk
    exact Nat.le_trans (h.starts_le k hk) hf.head_le
  · rw [hf.order, hf.extension.size]
    exact h.order
  · rw [hf.order] at hv hd ⊢
    refine h.offers v hv hd ?_
    cases hc : s.assignment.cell? v with
    | none => simp [Assignment.isAssigned, hc]
    | some c =>
      have hc' := hf.extension.cell hc
      simp [Assignment.isAssigned, hc'] at ha

omit [CustomConstraint κ] in
/-- Literals that wait on the trail were not reported to anyone. -/
theorem WellFormed.notifying {a : Assignment} {w : Watches} {arena : Arena κ}
    {learned : LearnedDatabase} {order : DecisionOrder Generator} {head : Nat}
    (h : (⟨⟨a, w⟩, arena, learned, order, head⟩ : SearchState κ).WellFormed)
    (hp : a.trues[head]? = some p) :
    (⟨⟨a, (w.takeWatchers p).2⟩, arena, learned, order, head + 1⟩ : SearchState κ).Notifying p
      (w.watchersOf p) := by
  have hb : arena.OnBoard ⟨a, w⟩ head := h.onBoard
  have hcon : a.Consistent := hb.consistent
  have hsized : w.Sized a.cells.size := hb.sized
  have hpv : p.var < a.cells.size := hcon.var_lt (List.mem_of_getElem? hp)
  have hsized' : (w.takeWatchers p).2.Sized a.cells.size := hsized.takeWatchers p
  refine ⟨?_, h.layered, mem_take_iff.mpr ⟨head, Nat.lt_succ_self _, hp⟩, ?_⟩
  · refine (hb.mono (Nat.le_succ head)).of_perm (hsized'.append _ _) (fun l => ?_) rfl
    show (((w.takeWatchers p).2.append p (w.watchersOf p)).watchersOf l).Perm (w.watchersOf l)
    rw [Watches.watchersOf_append hsized' hpv, Watches.watchersOf_takeWatchers hsized hpv]
    by_cases hpl : p = l
    · simp [hpl]
    · simp [hpl]
  · intro r c hc
    have hzero : w.numUndos p.var r = 0 := by
      refine hb.numUndos_eq_zero (fun hmem => ?_) r
      obtain ⟨x, hx, hxv⟩ := List.mem_map.mp hmem
      exact hcon.var_ne_of_mem_take hp hx hxv
    show w.numUndos p.var r + c.kind.tally * w.numWatchers r p = _
    rw [hzero, hb.watched hc p, Nat.zero_add]
    exact c.kind.tally_mul_count_watched p

omit [CustomConstraint κ] in
/-- A constraint that is settled is settled on the next literal too, unless it waits for it. -/
theorem WellFormed.settledOn {a : Assignment} {w : Watches} {arena : Arena κ}
    {learned : LearnedDatabase} {order : DecisionOrder Generator} {head : Nat}
    (h : (⟨⟨a, w⟩, arena, learned, order, head⟩ : SearchState κ).WellFormed)
    (hp : a.trues[head]? = some p) {r : Reference} {c : Constraint κ} (hc : arena.get? r = some c)
    (hset : c.kind.Settled a.trues (a.trues.take head) fun v => w.numUndos v r) :
    (⟨⟨a, (w.takeWatchers p).2⟩, arena, learned, order, head + 1⟩ : SearchState κ).SettledOn p
      (w.watchersOf p) (a.trues.take head) r c := by
  have hcon : a.Consistent := h.onBoard.consistent
  refine ⟨hset, fun hnone => hset.concat ?_ ?_ ?_⟩
  · rw [← List.count_eq_zero, ← h.onBoard.watched hc p]
    exact hnone
  · exact fun hmem => hcon.var_ne_of_mem_take hp hmem rfl
  · refine h.onBoard.numUndos_eq_zero (fun hmem => ?_) r
    obtain ⟨x, hx, hxv⟩ := List.mem_map.mp hmem
    exact hcon.var_ne_of_mem_take hp hx hxv

omit [CustomConstraint κ] in
/-- Notifications of what is still on the trail may be left out, as after a conflict. -/
theorem WellFormed.skip (h : s.WellFormed) :
    (⟨s.board, s.arena, s.learned, s.order, s.board.assignment.trail.size⟩ :
      SearchState κ).WellFormed := by
  have hsize : s.board.assignment.trail.size = s.assignment.trues.length := Assignment.size_trail _
  rw [hsize]
  exact ⟨h.onBoard.mono h.head_le, h.layered, Nat.le_refl _, h.layered.le_length, h.tidy, h.lists,
    h.order, h.offers⟩

/-- Those that wait for the next literal are notified of it. -/
theorem notifyNext_spec {a : Assignment} {w : Watches} {arena : Arena κ} {learned : LearnedDatabase}
    {order : DecisionOrder Generator} {head : Nat}
    (h : (⟨⟨a, w⟩, arena, learned, order, head⟩ : SearchState κ).WellFormed) (hm : m ≤ head)
    (hp : a.trues[head]? = some p) {conflict : Option Reference}
    (hrun : notify p (w.watchersOf p) ⟨⟨a, (w.takeWatchers p).2⟩, arena, learned, order, head + 1⟩ =
      .ok (conflict, s')) :
    (⟨⟨a, w⟩, arena, learned, order, head⟩ : SearchState κ).Follows m s' ∧ s'.WellFormed ∧
      s'.head = head + 1 ∧
      (conflict = none → arena.Settles w a.trues (a.trues.take head) →
        s'.arena.Settles s'.board.watches s'.assignment.trues (s'.assignment.trues.take s'.head)) ∧
      (∀ r ∈ conflict, ∃ c, s'.arena.get? r = some c ∧ c.kind.Violated s'.assignment.trues) := by
  have hcon : a.Consistent := h.onBoard.consistent
  have hlt : head < a.trues.length := (List.getElem?_eq_some_iff.mp hp).1
  have hpm : p ∉ a.trues.take m := fun hmem =>
    hcon.var_ne_of_mem_take hp (List.take_subset_take_left _ hm hmem) rfl
  obtain ⟨hf, hhead, hlay, hb, hset, hviol⟩ :=
    notify_spec (h.notifying hp) hlt hpm (Nat.le_trans hm (Nat.le_of_lt hlt)) hrun
  have hf' : (⟨⟨a, w⟩, arena, learned, order, head⟩ : SearchState κ).Follows m s' :=
    ⟨hf.extension, hf.agree, hf.references, hf.order,
      Nat.le_trans (Nat.le_succ head) (Nat.le_of_eq hhead.symm), hf.reasoned, hf.told, hf.still⟩
  have hhead : s'.head = head + 1 := hhead
  have hle : s'.head ≤ s'.assignment.trues.length := by
    rw [hhead]
    exact Nat.le_trans hlt hf'.extension.length_le
  refine ⟨hf', hf'.wellFormed h hb hlay hle, hhead, fun hn hs r c hc hl => ?_, hviol⟩
  have htake : a.trues.take (head + 1) = a.trues.take head ++ [p] := by
    rw [List.take_add_one, hp]
    rfl
  have htake' : s'.assignment.trues.take s'.head = a.trues.take head ++ [p] := by
    rw [hhead, ← htake]
    exact hf'.extension.take hlt
  rw [htake']
  exact (hset hn (a.trues.take head) htake (fun r c hc hl => h.settledOn hp hc (hs r c hc hl))
    r c hc hl).2 rfl

theorem propagateSteps_spec (h : s.WellFormed) (hm : m ≤ s.head) {conflict : Option Reference}
    (hrun : propagateSteps n s = .ok (conflict, s')) :
    s.Follows m s' ∧ s'.WellFormed ∧ s'.head = s'.assignment.trues.length ∧
      (conflict = none →
        s.arena.Settles s.board.watches s.assignment.trues (s.assignment.trues.take s.head) →
        s'.arena.Settles s'.board.watches s'.assignment.trues s'.assignment.trues) ∧
      (∀ r ∈ conflict, ∃ c, s'.arena.get? r = some c ∧ c.kind.Violated s'.assignment.trues) := by
  induction n generalizing s with
  | zero => cases hrun
  | succ n ih =>
    obtain ⟨⟨a, w⟩, arena, learned, order, head⟩ := s
    have hle : head ≤ a.trues.length := h.head_le
    unfold propagateSteps at hrun
    rw [Assignment.getElem?_trail] at hrun
    split at hrun
    · rename_i hnone
      cases hrun
      have hhead : head = a.trues.length := by
        have := List.getElem?_eq_none_iff.mp hnone
        omega
      refine ⟨.refl m _, h, hhead, fun _ hs => ?_, fun r hr => by cases hr⟩
      have htake : a.trues.take head = a.trues := by rw [hhead, List.take_length]
      have hs' : arena.Settles w a.trues (a.trues.take head) := hs
      rw [htake] at hs'
      exact hs'
    · rename_i p hp
      obtain ⟨⟨found, s₁⟩, hnotify, hrun⟩ := ok_of_bind hrun
      obtain ⟨hf, hw₁, hhead₁, hset, hviol⟩ := notifyNext_spec h hm hp hnotify
      cases found with
      | some r =>
        cases hrun
        have hsize : s₁.board.assignment.trail.size = s₁.assignment.trues.length :=
          Assignment.size_trail _
        refine ⟨⟨hf.extension, hf.agree, hf.references, hf.order, ?_, hf.reasoned, hf.told,
          hf.still⟩, hw₁.skip, hsize, nofun, hviol⟩
        show head ≤ s₁.board.assignment.trail.size
        rw [hsize]
        exact Nat.le_trans hle hf.extension.length_le
      | none =>
        have hm₁ : m ≤ s₁.head := by
          rw [hhead₁]
          exact Nat.le_succ_of_le hm
        obtain ⟨hf₂, hw₂, hh₂, hset₂, hviol₂⟩ := ih hw₁ hm₁ hrun
        exact ⟨hf.trans hw₁.onBoard.consistent (Nat.le_trans hm hle) hf₂, hw₂, hh₂,
          fun hn hs => hset₂ hn (hset rfl hs), hviol₂⟩

/-- Propagation notifies of everything, or finds a constraint that the trail violates. -/
theorem propagate_spec (h : s.WellFormed) (hm : m ≤ s.head) {conflict : Option Reference}
    (hrun : s.propagate = .ok (conflict, s')) :
    s.Follows m s' ∧ s'.WellFormed ∧ s'.head = s'.assignment.trues.length ∧
      (conflict = none →
        s.arena.Settles s.board.watches s.assignment.trues (s.assignment.trues.take s.head) →
        s'.arena.Settles s'.board.watches s'.assignment.trues s'.assignment.trues) ∧
      (∀ r ∈ conflict, ∃ c, s'.arena.get? r = some c ∧ c.kind.Violated s'.assignment.trues) :=
  propagateSteps_spec h hm hrun

end SearchState

end ClauseLearning
