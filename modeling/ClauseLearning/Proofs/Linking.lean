import ClauseLearning.Proofs.Antecedents
import ClauseLearning.Proofs.Moments

/-!
# Every forced value has an antecedent of its own level

A constraint is visited for a literal of the current level, and it mentions that literal. So what it
forces has an antecedent of that level, and no implication enters a level except by its decision
(`SearchState.Linked`). A learned clause is no exception: its second literal is of the level at
which it forces the first one. Only the clause that forbids the current decisions is one, and there
is none while every variable may be decided.

* `SearchState.Linked.notify`, `SearchState.Linked.propagateSteps`: propagation along watchers and
  along the trail.
* `Engine.linked_resolveConflict`: learning.
* `Engine.Reachable.linked`: every state of a search.
* `SearchState.Linked.arena`: the antecedent of the own level.
-/

namespace ClauseLearning

variable {κ : Type}

/-! ## Constraints that mention a literal -/

namespace Kind

/-- The value that `p` gives to its variable counts against the constraint. -/
def Mentions (p : Literal) : Kind κ → Prop
  | .clause c => -p ∈ c.literals
  | .cardinality c => -p ∈ c.literals
  | .parity c => p.var ∈ c.vars
  | .custom _ => False

/-- A constraint waits for literals that it mentions. -/
theorem mentions_of_watched {k : Kind κ} {p : Literal} (h : p ∈ k.watched) : k.Mentions p := by
  cases k with
  | clause c =>
    simp only [watched, List.mem_cons, List.not_mem_nil, or_false] at h
    show -p ∈ c.first :: c.second :: c.rest
    rcases h with rfl | rfl
    · rw [Literal.negate_negate]
      exact List.mem_cons_self
    · rw [Literal.negate_negate]
      exact List.mem_cons_of_mem _ List.mem_cons_self
  | cardinality c =>
    obtain ⟨l, hl, rfl⟩ := List.mem_map.mp h
    show - -l ∈ c.literals
    rw [Literal.negate_negate]
    exact hl
  | parity c =>
    simp only [watched, List.mem_cons, List.not_mem_nil, or_false] at h
    show p.var ∈ c.first :: c.second :: c.rest
    rcases h with rfl | rfl | rfl | rfl <;> simp
  | custom c => cases h

theorem Similar.mentions {k k' : Kind κ} (h : k.Similar k') {p : Literal} (hp : k.Mentions p) :
    k'.Mentions p := by
  cases k <;> cases k'
  case clause.clause c d => exact (List.Perm.mem_iff h).mp hp
  case cardinality.cardinality c d =>
    show -p ∈ d.literals
    rw [← h.1]
    exact hp
  case parity.parity c d => exact h.1.mem_iff.mp hp
  all_goals first | exact hp.elim | exact h.elim

end Kind

/-- An earlier literal that the constraint mentions is named in the reason. -/
theorem Constraint.mem_reason_of_mentions [CustomConstraint κ] {a : Assignment} (h : a.Consistent)
    {c : Constraint κ} {i : Nat} {l p : Literal} (hi : a.trues[i]? = some l)
    (he : c.kind.Explains (a.trues.take i) l) (hp : p ∈ a.trues.take i) (hm : c.kind.Mentions p) :
    -p ∈ c.reason a (some l) := by
  have hne : p.var ≠ l.var := h.var_ne_of_mem_take hi hp
  obtain ⟨k, metadata⟩ := c
  cases k with
  | clause k =>
    obtain ⟨rfl, -⟩ := he
    rcases List.mem_cons.mp hm with hfirst | hrest
    · rw [← hfirst, Literal.var_negate] at hne
      exact absurd rfl hne
    · exact hrest
  | cardinality k =>
    exact (k.mem_reason_some_iff h hi (-p)).mpr ⟨hm, by rwa [Literal.negate_negate]⟩
  | parity k =>
    refine (k.mem_reason_some_iff h he.2.1 (-p)).mpr ?_
    rw [Literal.var_negate, Literal.negate_negate]
    exact ⟨hm, hne, hp⟩
  | custom k => exact hm.elim

/-! ## States -/

/-- The constraint mentions a literal that stands before position `i` on the same level. -/
def Assignment.Ties (a : Assignment) (i : Nat) (k : Kind κ) : Prop :=
  ∃ (j : Nat) (p : Literal), j < i ∧ a.trues[j]? = some p ∧ a.levelAt j = a.levelAt i ∧ k.Mentions p

theorem Assignment.Ties.congr {a b : Assignment} {i : Nat} {k : Kind κ} (h : a.Ties i k)
    (hab : ∀ j, j ≤ i → b.trues[j]? = a.trues[j]? ∧ b.levelAt j = a.levelAt j) : b.Ties i k := by
  obtain ⟨j, p, hj, hp, hlevel, hm⟩ := h
  obtain ⟨htrues, hat⟩ := hab j (Nat.le_of_lt hj)
  exact ⟨j, p, hj, htrues.trans hp, by rw [hat, (hab i (Nat.le_refl i)).2, hlevel], hm⟩

/-- What becomes true on the current level is tied to any earlier literal of that level. -/
theorem Assignment.Extension.ties {a b : Assignment} (he : a.Extension b) (ha : a.Layered)
    {i j : Nat} {p : Literal} (hi : a.trues.length ≤ i) (hj : a.trues[j]? = some p)
    (hlevel : a.levelAt j = a.decisionLevel) {k : Kind κ} (hm : k.Mentions p) : b.Ties i k := by
  have hlt : j < a.trues.length := (List.getElem?_eq_some_iff.mp hj).1
  have htop : a.levelAt i = a.decisionLevel :=
    levelAt_eq_decisionLevel fun n hn => Nat.le_trans (ha.le_length n hn) hi
  refine ⟨j, p, Nat.lt_of_lt_of_le hlt hi, (he.getElem? hlt).trans hj, ?_, hm⟩
  simp only [levelAt, he.starts] at hlevel htop ⊢
  rw [hlevel, htop]

namespace SearchState

/-- The reason of a value above the root mentions an earlier literal of the same level. -/
def Linked (s : SearchState κ) : Prop :=
  ∀ (i : Nat) (l : Literal) (r : Reference) (c : Constraint κ), s.assignment.trues[i]? = some l →
    s.assignment.reason? l.var = some r → s.assignment.levelAt i ≠ 0 → s.arena.get? r = some c →
    s.assignment.Ties i c.kind

theorem Linked.of_root {s : SearchState κ} (h : s.decisionLevel = 0) : s.Linked := by
  intro i l r c _ _ hlevel
  have hle : s.assignment.levelAt i ≤ s.decisionLevel := s.assignment.levelAt_le i
  omega

/-- What is on the trail stays tied while the slots of its reasons hold the same constraints. Of
what is new, it has to be shown. -/
theorem Linked.step {s s' : SearchState κ} (h : s.Linked) {b : Board} {head : Nat}
    (hb : s.arena.OnBoard b head) (hboard : b.assignment = s.assignment)
    (hsame : ∀ {r : Reference} {c c' : Constraint κ}, s.arena.get? r = some c →
      s'.arena.get? r = some c' → c.kind.Similar c'.kind)
    (hstep : ∀ {i : Nat} {l : Literal} {r : Reference}, s'.assignment.trues[i]? = some l →
      s'.assignment.reason? l.var = some r → s'.assignment.levelAt i ≠ 0 →
      (s.assignment.reason? l.var = some r ∧ ∀ j, j ≤ i →
        s'.assignment.trues[j]? = s.assignment.trues[j]? ∧
          s'.assignment.levelAt j = s.assignment.levelAt j) ∨
        ∀ c', s'.arena.get? r = some c' → s'.assignment.Ties i c'.kind) : s'.Linked := by
  intro i l r c' hl hr hlevel hc'
  rcases hstep hl hr hlevel with ⟨hreason, hold⟩ | hnew
  · obtain ⟨htrues, hat⟩ := hold i (Nat.le_refl i)
    rw [htrues] at hl
    rw [hat] at hlevel
    rw [← hboard] at hl hreason
    obtain ⟨c, hc, -⟩ := hb.explained hl hreason
    rw [hboard] at hl hreason
    obtain ⟨j, p, hj, hp, hjl, hm⟩ := (h i l r c hl hreason hlevel hc).congr hold
    exact ⟨j, p, hj, hp, hjl, (hsame hc hc').mentions hm⟩
  · exact hnew c' hc'

/-- A state with the same values and reasons, and with no other constraints. -/
theorem Linked.of_same {s s' : SearchState κ} (h : s.Linked) (hw : s.WellFormed)
    (ha : s'.assignment = s.assignment)
    (hsame : ∀ {r : Reference} {c c' : Constraint κ}, s.arena.get? r = some c →
      s'.arena.get? r = some c' → c.kind.Similar c'.kind) : s'.Linked :=
  h.step hw.onBoard rfl hsame fun _ hr _ =>
    Or.inl ⟨by rw [← ha]; exact hr, fun _ _ => by rw [ha]; exact ⟨rfl, rfl⟩⟩

theorem Linked.tunes {s s' : SearchState κ} (h : s.Linked) (hw : s.WellFormed) (ht : s.Tunes s') :
    s'.Linked := by
  refine h.of_same hw ht.assignment fun hc hc' => ?_
  obtain ⟨m, hm, -⟩ := ht.arena.alive hc
  cases hm.symm.trans hc'
  exact .refl _

theorem Linked.openLevel {s : SearchState κ} (h : s.Linked) (hw : s.WellFormed) :
    s.openLevel.Linked := by
  obtain ⟨⟨a, w⟩, arena, learned, order, head⟩ := s
  refine h.step hw.onBoard rfl (fun hc hc' => ?_) fun {i l r} hl hr _ =>
    Or.inl ⟨hr, fun j hj => ⟨rfl, ?_⟩⟩
  · cases hc.symm.trans hc'
    exact .refl _
  · have hlt : i < a.trues.length := (List.getElem?_eq_some_iff.mp hl).1
    show a.openLevel.levelAt j = a.levelAt j
    rw [Assignment.levelAt, Assignment.levelStarts_openLevel, List.countP_append]
    simp [Assignment.levelAt, show ¬ a.trues.length ≤ j by omega]

/-- More literals became true on the current level. -/
theorem Linked.extend {s s' : SearchState κ} (h : s.Linked) {b : Board} {head : Nat}
    (hb : s.arena.OnBoard b head) (hboard : b.assignment = s.assignment)
    (he : s.assignment.Extension s'.assignment)
    (hsame : ∀ {r : Reference} {c c' : Constraint κ}, s.arena.get? r = some c →
      s'.arena.get? r = some c' → c.kind.Similar c'.kind)
    (hnew : ∀ {i : Nat} {l : Literal} {r : Reference}, s.assignment.trues.length ≤ i →
      s'.assignment.trues[i]? = some l → s'.assignment.reason? l.var = some r →
      s'.assignment.levelAt i ≠ 0 →
      ∀ c', s'.arena.get? r = some c' → s'.assignment.Ties i c'.kind) : s'.Linked := by
  have hcon : s.assignment.Consistent := hboard ▸ hb.consistent
  refine h.step hb hboard hsame fun {i l r} hl hr hlevel => ?_
  by_cases hi : i < s.assignment.trues.length
  · refine Or.inl ⟨?_, fun j hj => ⟨he.getElem? (Nat.lt_of_le_of_lt hj hi), ?_⟩⟩
    · rw [he.getElem? hi] at hl
      rw [← he.reason?_eq hcon (List.mem_of_getElem? hl)]
      exact hr
    · rw [Assignment.levelAt, Assignment.levelAt, he.starts]
  · exact Or.inr (hnew (Nat.le_of_not_lt hi) hl hr hlevel)

/-- Nothing is asked of a literal without a reason. -/
theorem Linked.enqueue {s : SearchState κ} (h : s.Linked) (hw : s.WellFormed) {l : Literal}
    (hk : l.Known s.assignment.cells.size) : (s.enqueue l).2.Linked := by
  obtain ⟨he, -, hq⟩ := enqueue_spec hw hk
  refine h.extend hw.onBoard rfl he.extension (fun hc hc' => ?_) fun hi hl hr _ => ?_
  · rw [he.arena] at hc'
    cases hc.symm.trans hc'
    exact .refl _
  · rw [(hq.fresh hi hl).2.2] at hr
    cases hr

variable [CustomConstraint κ]

theorem Linked.backtrack {s s' : SearchState κ} (h : s.Linked) (hw : s.WellFormed) {level : Nat}
    (hrun : s.backtrack level = .ok s') : s'.Linked := by
  rcases backtrack_spec hw hrun with ⟨-, rfl⟩ | ⟨-, hr, hw', -⟩
  · exact h
  have hcon := hw.onBoard.consistent
  have hcon' := hw'.onBoard.consistent
  refine h.step hw.onBoard rfl (fun hc hc' => ?_) fun {i l r} hl hreason _ =>
    Or.inl ⟨?_, fun j hj => ?_⟩
  · obtain ⟨n, hn⟩ := hr.recounted.alive hc
    cases hn.symm.trans hc'
    exact Kind.similar_recounted n _
  · rw [← hr.cut.reason?_eq hcon' (List.mem_of_getElem? hl)]
    exact hreason
  · have hlt : j < s'.assignment.trues.length :=
      Nat.lt_of_le_of_lt hj (List.getElem?_eq_some_iff.mp hl).1
    have hget := List.getElem?_eq_getElem hlt
    exact ⟨hget.trans (hr.cut.getElem? hget).symm, hr.cut.levelAt_eq hcon hcon' hlt⟩

omit [CustomConstraint κ] in
/-- A learned clause has its second literal on the level at which it forces the first. -/
theorem Linked.learn {s : SearchState κ} (h : s.Linked) (hw : s.WellFormed) {k : Clause}
    {m : Metadata} {lbd : Nat} (hk : (Kind.clause k : Kind κ).WellFormed s.assignment.cells.size)
    (hm : m.learned = true) (hrest : ∀ l ∈ k.second :: k.rest, -l ∈ s.assignment.trues)
    (hsecond : s.assignment.levelOf k.second.var = s.decisionLevel) : (s.learn k m lbd).Linked := by
  obtain ⟨r, c, hkind, -, hw', hgains, -⟩ := @learn_spec _ s hw k m lbd hk hm hrest
  have hcon : s.assignment.Consistent := hw.onBoard.consistent
  refine h.extend hw.onBoard rfl hgains.extension (fun hc hc' => ?_)
    fun {i l q} hi hl hr hlevel c' hc' => ?_
  · cases (hgains.kept hc).symm.trans hc'
    exact .refl _
  · rw [hgains.forced hi hl] at hr
    cases hr
    rw [hgains.get, if_pos rfl] at hc'
    cases hc'
    obtain ⟨j, hj⟩ := List.mem_iff_getElem?.mp (hrest k.second List.mem_cons_self)
    refine hgains.extension.ties hw.layered hi hj ?_ ?_
    · rw [← hcon.levelOf_eq hj, Literal.var_negate, hsecond]
      rfl
    · rw [hkind]
      show - -k.second ∈ k.literals
      rw [Literal.negate_negate]
      exact List.mem_cons_of_mem _ List.mem_cons_self

/-! ## Propagation -/

omit [CustomConstraint κ] in
/-- What a visit forces is tied to the literal that the constraint is notified of. -/
theorem Visited.linked {s s' : SearchState κ} {p : Literal} {e : Watcher} {ws : List Watcher}
    {ok : Bool} {c c' : Constraint κ} (hv : s.Visited p e.constraint ok s' c c')
    (hn : s.Notifying p (e :: ws)) {j : Nat} (hj : s.assignment.trues[j]? = some p)
    (hlevel : s.assignment.levelAt j = s.decisionLevel) (h : s.Linked) : s'.Linked := by
  have hext : s.assignment.Extension s'.assignment := hv.visit.extension
  refine h.extend hn.onBoard rfl hext (fun {r d d'} hd hd' => ?_) fun {i l r} hi hl hr _ d hd => ?_
  · rw [hv.get?] at hd'
    split at hd'
    · rename_i hre
      cases hd'
      rw [hre, hv.found] at hd
      cases hd
      exact hv.visit.similar
    · cases hd.symm.trans hd'
      exact .refl _
  · have hforced : s'.assignment.reason? l.var = some e.constraint := (hv.visit.forced hi hl).1
    rw [hforced] at hr
    cases hr
    rw [hv.get?, if_pos rfl] at hd
    cases hd
    exact hext.ties hn.layered hi hj hlevel
      (hv.visit.similar.mentions (Kind.mentions_of_watched (hn.due hv.found).waits))

/-- Watchers of a literal of the current level are notified. -/
theorem Linked.notify {s s' : SearchState κ} {p : Literal} {ws : List Watcher}
    {conflict : Option Reference} (h : s.Linked) (hn : s.Notifying p ws)
    (hhead : s.head ≤ s.assignment.trues.length) {j : Nat} (hj : s.assignment.trues[j]? = some p)
    (hlevel : s.assignment.levelAt j = s.decisionLevel)
    (hrun : notify p ws s = .ok (conflict, s')) : s'.Linked := by
  induction ws generalizing s with
  | nil =>
    cases hrun
    exact h
  | cons e ws ih =>
    have hcon := hn.onBoard.consistent
    unfold SearchState.notify at hrun
    split at hrun
    · rename_i hblocker
      obtain ⟨l, hl, hsat⟩ := (Option.any_eq_true ..).mp hblocker
      obtain ⟨hn', -, -⟩ := hn.skip (m := 0) hl ((hcon.isSatisfied_iff l).mp hsat)
      exact ih (s := s.modifyBoard (·.watch e.constraint p e.blocker)) h hn' hhead hj hlevel hrun
    · obtain ⟨⟨ok, s₁⟩, hvisit, hrun⟩ := ok_of_bind hrun
      obtain ⟨c, c', hv⟩ := hn.visited hvisit
      have h₁ := hv.linked hn hj hlevel h
      have hext : s.assignment.Extension s₁.assignment := hv.visit.extension
      cases ok with
      | true =>
        have hlt : j < s.assignment.trues.length := (List.getElem?_eq_some_iff.mp hj).1
        refine ih h₁ (hv.notifying hn hhead) ?_ ((hext.getElem? hlt).trans hj) ?_ hrun
        · rw [hv.head]
          exact Nat.le_trans hhead hext.length_le
        · show s₁.assignment.levelAt j = s₁.assignment.decisionLevel
          rw [hext.decisionLevel_eq, Assignment.levelAt, hext.starts]
          exact hlevel
      | false =>
        cases hrun
        exact h₁

/-- The literals that wait on the trail are of the current level. -/
theorem Linked.propagateSteps {n : Nat} {s s' : SearchState κ} {conflict : Option Reference}
    (h : s.Linked) (hw : s.WellFormed) (hrun : propagateSteps n s = .ok (conflict, s')) :
    s'.Linked := by
  induction n generalizing s with
  | zero => cases hrun
  | succ n ih =>
    obtain ⟨⟨a, w⟩, arena, learned, order, head⟩ := s
    have hle : head ≤ a.trues.length := hw.head_le
    unfold SearchState.propagateSteps at hrun
    rw [Assignment.getElem?_trail] at hrun
    split at hrun
    · cases hrun
      exact h
    · rename_i p hp
      have hlt : head < a.trues.length := (List.getElem?_eq_some_iff.mp hp).1
      obtain ⟨⟨found, s₁⟩, hnotify, hrun⟩ := ok_of_bind hrun
      have hnot := hw.notifying hp
      have hlevel : a.levelAt head = a.decisionLevel :=
        Assignment.levelAt_eq_decisionLevel hw.starts_le
      have h₁ : s₁.Linked := Linked.notify
        (s := ⟨⟨a, (w.takeWatchers p).2⟩, arena, learned, order, head + 1⟩) h hnot hlt hp
          hlevel hnotify
      cases found with
      | some r =>
        cases hrun
        exact h₁
      | none =>
        obtain ⟨hf, hh, hlay, hb, -⟩ :=
          notify_spec (m := 0) hnot hlt (List.not_mem_nil) (Nat.zero_le _) hnotify
        have hf' : (⟨⟨a, w⟩, arena, learned, order, head⟩ : SearchState κ).Follows 0 s₁ :=
          ⟨hf.extension, hf.agree, hf.references, hf.order,
            Nat.le_trans (Nat.le_succ head) (Nat.le_of_eq hh.symm), hf.reasoned, hf.told, hf.still⟩
        have hle₁ : s₁.head ≤ s₁.assignment.trues.length := by
          rw [hh]
          exact Nat.le_trans hlt hf'.extension.length_le
        exact ih h₁ (hf'.wellFormed hw hb hlay hle₁) hrun

end SearchState

/-! ## Searches -/

namespace Engine

theorem decisionLevel_grow (n : Nat) (e : Engine κ) :
    (e.grow n).search.decisionLevel = e.search.decisionLevel := by
  obtain ⟨search, analyser, control⟩ := e
  unfold grow
  dsimp only
  split <;> rfl

variable [CustomConstraint κ] {e e' : Engine κ}

/-- A learned literal becomes a root fact. -/
theorem linked_learnUnit {l : Literal} {n : Nat} (h : e.WellFormed)
    (hk : l.Known e.search.assignment.cells.size) (hrun : e.learnUnit l n = .ok e') :
    e'.search.Linked := by
  obtain ⟨search, analyser, control⟩ := e
  obtain ⟨low, hback, hret⟩ := ok_of_bind hrun
  cases hret
  have hw : search.WellFormed := h.search
  have hk' : l.Known low.assignment.cells.size := by
    rw [(SearchState.size_backtrack hw hback).1]
    exact hk
  obtain ⟨he, -, -⟩ := SearchState.enqueue_spec (hw.backtrack hback) hk'
  refine .of_root ?_
  show (low.enqueue l).2.assignment.decisionLevel = 0
  rw [he.extension.decisionLevel_eq]
  exact (SearchState.decisionLevel_backtrack hw hback).trans (Nat.zero_min _)

/-- A learned clause is attached on the level of its second literal. -/
theorem linked_learnClause {k : Clause} {level n : Nat} (h : e.WellFormed) (hl : e.search.Linked)
    (hk : (Kind.clause k : Kind κ).WellFormed e.search.assignment.cells.size)
    (hrest : ∀ m ∈ k.second :: k.rest, -m ∈ e.search.assignment.trues ∧
      e.search.assignment.levelOf m.var ≤ level)
    (hsecond : e.search.assignment.levelOf k.second.var = level)
    (hlevel : level < e.search.decisionLevel) (hrun : e.learnClause k level n = .ok e') :
    e'.search.Linked := by
  obtain ⟨⟨board, arena, learned, order, head⟩, analyser, control⟩ := e
  rcases hage : learned.nextAge with ⟨age, learned₁⟩
  rcases hmeasure : learned₁.measure board.assignment k.literals with ⟨lbd, learned₂⟩
  simp only [learnClause, hage, hmeasure] at hrun
  obtain ⟨low, hback, hret⟩ := ok_of_bind hrun
  cases hret
  have hrefs₁ : learned₁.references = learned.references := (congrArg (·.2.references) hage).symm
  have hrefs₂ : learned₂.references = learned₁.references :=
    (congrArg (·.2.references) hmeasure).symm
  have htunes : (⟨board, arena, learned, order, head⟩ : SearchState κ).Tunes
      ⟨board, arena, learned₂, order, head⟩ :=
    ⟨rfl, .refl _, hrefs₂.trans hrefs₁, .refl h.search.order.valid, rfl⟩
  have hw := htunes.wellFormed h.search
  have hfalse : ∀ m ∈ k.second :: k.rest, -m ∈ low.assignment.trues := by
    intro m hm
    obtain ⟨hf, hle⟩ := hrest m hm
    exact SearchState.mem_backtrack hw hback hf (by rw [Literal.var_negate]; exact hle)
  refine ((hl.tunes h.search htunes).backtrack hw hback).learn (hw.backtrack hback) ?_ rfl hfalse ?_
  · rw [(SearchState.size_backtrack hw hback).1]
    exact hk
  · have hlow := SearchState.levelOf_backtrack hw hback (hfalse k.second List.mem_cons_self)
    rw [Literal.var_negate] at hlow
    rw [hlow, SearchState.decisionLevel_backtrack hw hback]
    exact hsecond.trans (Nat.min_eq_left (Nat.le_of_lt hlevel)).symm

omit [CustomConstraint κ] in
theorem linked_decay (h : e.search.Linked) : e.decay.search.Linked := by
  obtain ⟨⟨board, arena, learned, order, head⟩, analyser, control⟩ := e
  exact h

/-- What is learned from a conflict is a root fact, or a clause whose second literal is of the level
that is gone back to. -/
theorem linked_resolveConflict {r : Reference} {c : Constraint κ} (h : e.WellFormed)
    (hh : e.Honours) (hl : e.search.Linked) (hc : e.search.arena.get? r = some c)
    (hv : c.kind.Violated e.search.assignment.trues)
    (hrun : e.resolveConflict r = .ok (true, e')) : e'.search.Linked := by
  obtain ⟨search, analyser, control⟩ := e
  obtain ⟨c₀, hget, hrun⟩ := ok_of_bind hrun
  cases Option.some.inj ((Arena.get_eq_ok.mp hget).symm.trans hc)
  dsimp only at hrun
  split at hrun
  · cases hrun
  rename_i hne
  obtain ⟨low, lesson, first, rest, hr⟩ := exists_resolves h hh hc hv hne
  obtain ⟨c', hc', hback⟩ := hr.lowered
  cases hc.symm.trans hc'
  obtain ⟨low₀, hlow, hrun⟩ := ok_of_bind hrun
  cases hback.symm.trans hlow
  obtain ⟨lesson₀, hlesson, hrun⟩ := ok_of_bind hrun
  cases hr.analysed.symm.trans hlesson
  have hw := hr.tunes.wellFormed hr.wellFormed
  have hcon : low.assignment.Consistent := hr.wellFormed.onBoard.consistent
  have htaught : (low.taught lesson).Linked :=
    (hl.backtrack h.search hback).tunes hr.wellFormed hr.tunes
  cases rest with
  | nil =>
    rw [hr.asserts.literals] at hrun
    obtain ⟨e₁, hlearn, hret⟩ := ok_of_bind hrun
    cases hret
    exact linked_decay (linked_learnUnit (e := ⟨low.taught lesson, lesson.analyser, _⟩)
      ⟨hw, hr.clean⟩ (hr.known first List.mem_cons_self) hlearn)
  | cons m ms =>
    rw [hr.asserts.literals] at hrun
    obtain ⟨e₁, hlearn, hret⟩ := ok_of_bind hrun
    cases hret
    have hrest : ∀ l ∈ m :: ms, -l ∈ low.assignment.trues ∧
        low.assignment.levelOf l.var ≤ lesson.clause.backjumpLevel := fun l hl =>
      ⟨(hcon.isFalsified_iff l).mp (hr.asserts.falsified l (List.mem_cons_of_mem _ hl)),
        hr.asserts.highest l hl⟩
    have hkind : (Kind.clause ⟨first, m, ms⟩ : Kind κ).WellFormed low.assignment.cells.size :=
      ⟨hr.asserts.nodup, hr.known⟩
    exact linked_decay (linked_learnClause (e := ⟨low.taught lesson, lesson.analyser, _⟩)
      ⟨hw, hr.clean⟩ htaught hkind hrest (hr.asserts.attained m rfl) hr.lower hlearn)

/-- While every variable may be decided, a decision opens a level or ends the search. -/
theorem linked_decideVariable (h : e.WellFormed) (hl : e.search.Linked)
    (hhead : e.search.head = e.search.assignment.trues.length)
    (hfree : e.search.order.allowed = none) (hrun : e.decideVariable = .ok (none, e')) :
    e'.search.Linked := by
  obtain ⟨⟨board, arena, learned, order, head⟩, analyser, control⟩ := e
  have hw : (⟨board, arena, learned, order, head⟩ : SearchState κ).WellFormed := h.search
  simp only [decideVariable] at hrun
  split at hrun
  · rename_i l order' hnext
    cases hrun
    have hdecided := DecisionOrder.nextDecision_some hw.order hnext
    exact (hl.openLevel hw).enqueue (hw.openLevel hhead) ⟨hdecided.var_ne_zero, hdecided.var_lt⟩
  · rename_i order' hnext
    obtain ⟨hw', -, hassigned⟩ := hw.nextDecision_none hnext
    have hfull := SearchState.trailLength_of_assigned hw' fun v hv hlt => hassigned v hlt (by
      simp only [DecisionOrder.isDecision, show order.allowed = none from hfree]
      simpa using hv)
    rw [if_pos (Or.inl hfull)] at hrun
    cases hrun

/-! ### Upkeep -/

theorem linked_simplifyIfDue (h : e.WellFormed) (hl : e.search.Linked)
    (hrun : e.simplifyIfDue = .ok e') : e'.search.Linked := by
  unfold simplifyIfDue at hrun
  split at hrun
  · obtain ⟨search, analyser, control⟩ := e
    obtain ⟨⟨n, search'⟩, hsimplify, hret⟩ := ok_of_bind hrun
    cases hret
    obtain ⟨hroot, -, ht, -⟩ := SearchState.simplify_spec h.search hsimplify
    exact .of_root (ht.decisionLevel_eq.trans hroot)
  · cases hrun
    exact hl

theorem linked_reduceIfDue (h : e.WellFormed) (hl : e.search.Linked)
    (hrun : e.reduceIfDue = .ok e') : e'.search.Linked := by
  simp only [reduceIfDue] at hrun
  split at hrun
  · obtain ⟨⟨⟨a, w⟩, arena, learned, order, head⟩, analyser, control⟩ := e
    obtain ⟨⟨rs, learned'⟩, hreduce, hret⟩ := ok_of_bind hrun
    cases hret
    obtain ⟨-, ht, -⟩ := SearchState.reduce_spec h.search hreduce
    refine hl.of_same h.search (SearchState.assignment_delete _ _) fun hc hc' => ?_
    cases hc.symm.trans (ht.alive hc')
    exact .refl _
  · cases hrun
    exact hl

theorem linked_restartIfDue (h : e.WellFormed) (hl : e.search.Linked)
    (hrun : e.restartIfDue = .ok e') : e'.search.Linked := by
  unfold restartIfDue at hrun
  split at hrun
  · obtain ⟨search, analyser, control⟩ := e
    obtain ⟨search', hback, hret⟩ := ok_of_bind hrun
    cases hret
    exact hl.backtrack h.search hback
  · cases hrun
    exact hl

end Engine

/-- A search is under way. -/
def Moment.Searches : Moment κ → Prop
  | .searching _ => True
  | .analysing _ => True
  | _ => False

namespace Engine

variable [CustomConstraint κ] {e : Engine κ}

/-- While every variable may be decided, every value that a search forced is linked to its level. -/
theorem Reachable.linked {moment : Moment κ} (h : Reachable moment e) (hm : moment.Searches)
    (hfree : e.search.order.allowed = none) : e.search.Linked := by
  induction h with
  | noted _ _ _ _ ih => exact ih hm hfree
  | @posed e e' h hrun assumptions _ _ =>
    refine .of_root ?_
    have hw := h.orderly.wellFormed
    rw [show (e'.posed assumptions).search.decisionLevel = e'.search.decisionLevel from
      decisionLevel_grow _ _, SearchState.decisionLevel_backtrack hw.search
        (backtrack_spec hw hrun).2.1]
    exact Nat.zero_min _
  | @propagated e e' conflict h hrun ih =>
    have hw := h.orderly.wellFormed
    have hl := ih trivial ((propagate_spec hw hrun).1.allowed.mp hfree)
    obtain ⟨search, analyser, control⟩ := e
    obtain ⟨⟨conflict', search'⟩, hprop, hret⟩ := ok_of_bind hrun
    cases hret
    exact hl.propagateSteps hw.search hprop
  | @counted r e h ih =>
    have hsame := (countConflict_spec h.orderly.wellFormed).2
    rw [hsame] at hfree ⊢
    exact ih trivial hfree
  | lowered h _ hrun ih =>
    have hw := h.orderly.wellFormed
    obtain ⟨hadv, hback, -⟩ := backtrack_spec hw hrun
    exact (ih trivial (hadv.allowed.mp hfree)).backtrack hw.search hback
  | resolved h hrun ih =>
    have ho := h.orderly
    obtain ⟨-, c, hc, hv⟩ := ho.fits.at_stage
    have hadv := ((resolveConflict_spec ho.wellFormed hc hv hrun).1 rfl).1
    exact linked_resolveConflict ho.wellFormed ho.fits.honours (ih trivial (hadv.allowed.mp hfree))
      hc hv hrun
  | simplified h hrun ih =>
    have hw := h.orderly.wellFormed
    exact linked_simplifyIfDue hw
      (ih trivial ((simplifyIfDue_spec hw hrun).advances.allowed.mp hfree)) hrun
  | reduced h hrun ih =>
    have hw := h.orderly.wellFormed
    exact linked_reduceIfDue hw
      (ih trivial ((reduceIfDue_spec hw hrun).advances.allowed.mp hfree)) hrun
  | restarted h hrun ih =>
    have hw := h.orderly.wellFormed
    exact linked_restartIfDue hw
      (ih trivial ((restartIfDue_spec hw hrun).advances.allowed.mp hfree)) hrun
  | @assumed e l h hnext htrue ih =>
    have hw := h.orderly.wellFormed
    obtain ⟨search, analyser, control⟩ := e
    obtain ⟨board, arena, learned, order, head⟩ := search
    exact (ih trivial hfree).openLevel hw.search
  | @decided e l h hnext _ ih =>
    have ho := h.orderly
    have hk := ho.fits.known _ (List.mem_of_getElem? hnext)
    obtain ⟨⟨board, arena, learned, order, head⟩, analyser, control⟩ := e
    have hw := ho.wellFormed.search
    exact ((ih trivial hfree).openLevel hw).enqueue (hw.openLevel ho.fits.at_stage) hk
  | chosen h hmade hrun ih =>
    have ho := h.orderly
    have hfree' := (ho.advances_decideVariable hmade hrun).1.allowed.mp hfree
    exact linked_decideVariable ho.wellFormed (ih trivial hfree') ho.fits.at_stage hfree' hrun
  | _ => exact hm.elim

end Engine

/-! ## Antecedents -/

section

variable [CustomConstraint κ] {s s' : Arena κ} {a : Assignment}

/-- Above the root, every value with a reason has an antecedent of its own level. -/
def Arena.Linked (s : Arena κ) (a : Assignment) : Prop :=
  ∀ v, (∃ reason, s.reasonOf a v = .ok (some reason)) → a.levelOf v ≠ 0 →
    ∃ w, s.Antecedent a v w ∧ a.levelOf w = a.levelOf v

/-- Reasons do not depend on what is remembered of a constraint. -/
theorem Arena.Retagged.reasonOf_eq (h : s.Retagged s') (v : Nat) :
    s'.reasonOf a v = s.reasonOf a v := by
  unfold reasonOf
  split
  · rename_i r p _ _
    cases hr : s.get? r with
    | none =>
      have hr' : s'.get? r = none := h.dead hr
      simp only [get, hr, hr']
    | some c =>
      obtain ⟨m, hm, -⟩ := h.alive hr
      rw [get_eq_ok.mpr hr, get_eq_ok.mpr hm]
      rfl
  · rfl

theorem Arena.Retagged.antecedent_iff (h : s.Retagged s') {v w : Nat} :
    s'.Antecedent a v w ↔ s.Antecedent a v w := by
  unfold Antecedent
  rw [h.reasonOf_eq]

theorem Arena.Linked.retagged (hl : s.Linked a) (h : s.Retagged s') : s'.Linked a := by
  intro v hreason hlevel
  rw [h.reasonOf_eq] at hreason
  obtain ⟨w, hw, hsame⟩ := hl v hreason hlevel
  exact ⟨w, h.antecedent_iff.mpr hw, hsame⟩

/-- The literal that a forced value is tied to gives an antecedent. -/
theorem SearchState.Linked.arena {s : SearchState κ} (h : s.Linked) (hw : s.WellFormed) :
    s.arena.Linked s.assignment := by
  rintro v ⟨reason, hreason⟩ hlevel
  have hcon : s.assignment.Consistent := hw.onBoard.consistent
  obtain ⟨i, l, hi, rfl⟩ := hw.justifies.mem_of_reasonOf hreason
  obtain ⟨r, hr⟩ := Option.ne_none_iff_exists'.mp (Arena.reason?_ne_none hreason)
  obtain ⟨c, hc, he⟩ := hw.onBoard.explained hi hr
  rw [hcon.levelOf_eq hi] at hlevel ⊢
  obtain ⟨j, p, hj, hp, hsame, hm⟩ := h i l r c hi hr hlevel hc
  have hnamed := Constraint.mem_reason_of_mentions hcon hi he (mem_take_iff.mpr ⟨j, hj, hp⟩) hm
  have hreason' : s.arena.reasonOf s.assignment l.var =
      .ok (some (c.reason s.assignment (some l))) := by
    simp only [Arena.reasonOf, hr, hcon.satisfiedLiteral?_eq.mpr ⟨List.mem_of_getElem? hi, rfl⟩,
      Arena.get_eq_ok.mpr hc]
    rfl
  have hlevelOf : s.assignment.levelOf p.var = s.assignment.levelAt i := by
    rw [hcon.levelOf_eq hp, hsame]
  exact ⟨p.var, ⟨by rw [hlevelOf]; exact hlevel, _, hreason', -p, hnamed, Literal.var_negate p⟩,
    hlevelOf⟩

end

end ClauseLearning
