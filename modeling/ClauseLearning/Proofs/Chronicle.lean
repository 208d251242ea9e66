import Mathlib.Logic.Relation
import ClauseLearning.Proofs.Registering
import ClauseLearning.Proofs.Resolution

/-!
# What happens to constraints

A search attaches constraints, notifies them, takes values back and deletes constraints. Each of
these moves is one application of a function of the search, and nothing but taking a value back
tells a constraint to undo anything. Between the moves the search is calm: no value is lost, and no
constraint and no undo entry is touched. A chronicle is a state of the search with what happened so
far.

* `Chronicle.Move`: one move, and what there is to say of it.
* `Incident.pending`, `Incident.standing`: what was asked for and notified of, for values that were
  not lost since.
* `Incident.Paired`: constraints are told exactly what they asked for.
-/

namespace ClauseLearning

variable {κ : Type}

/-- What happens to constraints. -/
inductive Incident (κ : Type)
  | attached (r : Reference) (k : Kind κ)
  /-- A constraint asked to be told when `v` loses its value, while `l` was the true literal of
  it. -/
  | registered (r : Reference) (v : Nat) (l : Option Literal)
  | notified (r : Reference) (p : Literal)
  /-- A true literal lost its value, and constraints were told of it, in this order. -/
  | unassigned (l : Literal) (told : List Reference)
  | dropped (rs : List Reference)
  /-- Everything was dropped. -/
  | cleared

namespace Incident

/-! ## What was asked for and not answered -/

/-- The times at which `r` asked to be told of `v`, each with the literal of `v` that was true,
since `v` lost its value or `r` was attached. What happened is listed newest first. -/
def pending (r : Reference) (v : Nat) : List (Incident κ) → List (Option Literal)
  | [] => []
  | .attached q _ :: past => if q = r then [] else pending r v past
  | .registered q w l :: past => if q = r ∧ w = v then l :: pending r v past else pending r v past
  | .notified _ _ :: past => pending r v past
  | .unassigned l _ :: past => if l.var = v then [] else pending r v past
  | .dropped rs :: past => if r ∈ rs then [] else pending r v past
  | .cleared :: _ => []

/-- What `r` was notified of since it was attached and what did not lose its value since. -/
def standing (r : Reference) : List (Incident κ) → List Literal
  | [] => []
  | .attached q _ :: past => if q = r then [] else standing r past
  | .registered _ _ _ :: past => standing r past
  | .notified q p :: past => if q = r then p :: standing r past else standing r past
  | .unassigned l _ :: past => (standing r past).filter fun p => decide (p.var ≠ l.var)
  | .dropped rs :: past => if r ∈ rs then [] else standing r past
  | .cleared :: _ => []

/-- The constraint that is in the slot `r`, as it was when it was attached. -/
def origin (r : Reference) : List (Incident κ) → Option (Kind κ)
  | [] => none
  | .attached q k :: past => if q = r then some k else origin r past
  | .registered _ _ _ :: past => origin r past
  | .notified _ _ :: past => origin r past
  | .unassigned _ _ :: past => origin r past
  | .dropped rs :: past => if r ∈ rs then none else origin r past
  | .cleared :: _ => none

/-- Whenever a literal loses its value, every constraint is told of it as often as it asked to be
since the variable got the value, and this literal was the true one each time. Nobody else is
told. -/
def Paired : List (Incident κ) → Prop
  | [] => True
  | .unassigned l told :: past =>
    (∀ r, told.count r = (pending r l.var past).length ∧ ∀ m ∈ pending r l.var past, m = some l) ∧
      Paired past
  | _ :: past => Paired past

/-- Constraints ask to be told only of variables that have a value. -/
def Prudent (past : List (Incident κ)) : Prop := ∀ r v, .registered r v none ∉ past

/-- In the name of `r` it is asked for something, in order. -/
def asking (r : Reference) (asked : List (Nat × Option Literal)) (past : List (Incident κ)) :
    List (Incident κ) :=
  asked.foldl (fun past x => .registered r x.1 x.2 :: past) past

variable {r q : Reference} {v : Nat} {asked : List (Nat × Option Literal)}
    {past : List (Incident κ)}

theorem length_pending_asking :
    (pending q v (asking r asked past)).length =
      (pending q v past).length + if q = r then (asked.map Prod.fst).count v else 0 := by
  induction asked generalizing past with
  | nil => simp [asking]
  | cons x asked ih =>
    show (pending q v (asking r asked (.registered r x.1 x.2 :: past))).length = _
    rw [ih, pending, List.map_cons, List.count_cons]
    by_cases hq : q = r
    · subst hq
      by_cases hx : x.1 = v
      · simp only [hx, and_self, if_true, List.length_cons, beq_self_eq_true]
        omega
      · simp [hx]
    · have hr : ¬ r = q := fun h => hq h.symm
      simp [hq, hr]

theorem mem_pending_asking {m : Option Literal} (hm : m ∈ pending q v (asking r asked past)) :
    (q = r ∧ (v, m) ∈ asked) ∨ m ∈ pending q v past := by
  induction asked generalizing past with
  | nil => exact .inr hm
  | cons x asked ih =>
    rcases ih hm with ⟨hq, hmem⟩ | hm
    · exact .inl ⟨hq, List.mem_cons_of_mem _ hmem⟩
    · rw [pending] at hm
      split at hm
      · rename_i heq
        obtain ⟨rfl, rfl⟩ := heq
        rcases List.mem_cons.mp hm with rfl | hm
        · exact .inl ⟨rfl, List.mem_cons_self⟩
        · exact .inr hm
      · exact .inr hm

theorem standing_asking : standing q (asking r asked past) = standing q past := by
  induction asked generalizing past with
  | nil => rfl
  | cons x asked ih => exact ih

theorem origin_asking : origin q (asking r asked past) = origin q past := by
  induction asked generalizing past with
  | nil => rfl
  | cons x asked ih => exact ih

theorem paired_asking : Paired (asking r asked past) ↔ Paired past := by
  induction asked generalizing past with
  | nil => exact Iff.rfl
  | cons x asked ih => exact ih

theorem mem_asking {x : Incident κ} : x ∈ asking r asked past ↔
    x ∈ past ∨ ∃ y ∈ asked, x = .registered r y.1 y.2 := by
  induction asked generalizing past with
  | nil => simp [asking]
  | cons y asked ih =>
    show x ∈ asking r asked (.registered r y.1 y.2 :: past) ↔ _
    simp only [ih, List.mem_cons, exists_eq_or_imp]
    tauto

theorem Prudent.of_asking (h : Prudent (asking r asked past)) :
    Prudent past ∧ ∀ v, (v, none) ∉ asked :=
  ⟨fun q w hmem => h q w (mem_asking.mpr (.inl hmem)),
    fun w hmem => h r w (mem_asking.mpr (.inr ⟨_, hmem, rfl⟩))⟩

theorem Prudent.asking (h : Prudent past) (hasked : ∀ v, (v, none) ∉ asked) :
    Prudent (asking r asked past) := by
  intro q w hmem
  rcases mem_asking.mp hmem with hpast | ⟨⟨v, m⟩, hnew, heq⟩
  · exact h q w hpast
  · cases heq
    exact hasked _ hnew

theorem Prudent.cons (h : Prudent past) {x : Incident κ} (hx : ∀ r v, x ≠ .registered r v none) :
    Prudent (x :: past) := by
  intro q w hmem
  rcases List.mem_cons.mp hmem with heq | hmem
  · exact hx q w heq.symm
  · exact h q w hmem

theorem Prudent.of_cons {x : Incident κ} (h : Prudent (x :: past)) : Prudent past :=
  fun q w hmem => h q w (List.mem_cons_of_mem _ hmem)

end Incident

/-! ## Moves -/

/-- No value is lost, and no constraint and no undo entry is touched. -/
structure SearchState.Calm (s s' : SearchState κ) : Prop where
  keeps : s.assignment.Keeps s'.assignment
  undos : ∀ v, s'.board.watches.undosOf v = s.board.watches.undosOf v
  sized : s.board.watches.Sized s.assignment.cells.size →
    s'.board.watches.Sized s'.assignment.cells.size
  arena : s.arena.Retagged s'.arena

/-- A state of the search with what happened to its constraints, newest first. -/
structure Chronicle (κ : Type) where
  search : SearchState κ
  past : List (Incident κ)

namespace Chronicle

open Incident SearchState

variable [CustomConstraint κ]

/-- The moves of a search. -/
inductive Move : Chronicle κ → Chronicle κ → Prop
  | calm {s s' : SearchState κ} {past : List (Incident κ)} (h : s.Calm s') :
      Move ⟨s, past⟩ ⟨s', past⟩
  | attached {s : SearchState κ} {past : List (Incident κ)} (h : s.arena.Tidy) {c : Constraint κ}
      (hc : c.kind.falsified = 0) :
      Move ⟨s, past⟩ ⟨(s.attach c).2.2,
        asking (s.attach c).1 (c.registeredAtAttach (s.attach c).1 s.board)
          (.attached (s.attach c).1 c.kind :: past)⟩
  | notified {s s' : SearchState κ} {past : List (Incident κ)} {p : Literal} {r : Reference}
      {n : Nat} {ok : Bool} {c : Constraint κ} (hp : s.assignment.isSatisfied p = true)
      (hc : s.arena.get? r = some c) (hrun : visit p r n s = .ok (ok, s')) :
      Move ⟨s, past⟩ ⟨s', asking r (c.registeredAtPropagate r p s.board) (.notified r p :: past)⟩
  | unassigned {a : Assignment} {w : Watches} {arena arena' : Arena κ} {learned : LearnedDatabase}
      {order : DecisionOrder Generator} {head : Nat} {past : List (Incident κ)} {l : Literal}
      (hl : a.newest? = some l) (htrue : a.isSatisfied l = true)
      (hrun : undoAll l (w.undosOf l.var) arena = .ok arena') :
      Move ⟨⟨⟨a, w⟩, arena, learned, order, head⟩, past⟩
        ⟨⟨⟨a.unassign l, (w.takeUndos l.var).2⟩, arena', learned, order.onUnassign l, head⟩,
          .unassigned l (w.undosOf l.var) :: past⟩
  | dropped {s : SearchState κ} {past : List (Incident κ)} (rs : List Reference) :
      Move ⟨s, past⟩ ⟨s.delete rs, .dropped rs :: past⟩
  | cleared {s : SearchState κ} {past : List (Incident κ)} :
      Move ⟨s, past⟩ ⟨s.clear, .cleared :: past⟩

/-- Any number of moves. -/
abbrev Course : Chronicle κ → Chronicle κ → Prop := Relation.ReflTransGen Move

end Chronicle

/-! ## What the moves do to the arena -/

namespace SearchState

variable [CustomConstraint κ] {s s' : SearchState κ}

/-- A constraint comes into a slot that was empty. -/
structure Attaches (s : SearchState κ) (c : Constraint κ) : Prop where
  registers : Board.Registers (s.attach c).1 (c.registeredAtAttach (s.attach c).1 s.board) s.board
    (s.attach c).2.2.board
  dead : s.arena.get? (s.attach c).1 = none
  get? : ∀ q, (s.attach c).2.2.arena.get? q =
    if q = (s.attach c).1 then some (c.attach (s.attach c).1 s.board).2.1 else s.arena.get? q
  tidy : (s.attach c).2.2.arena.Tidy

theorem attaches (h : s.arena.Tidy) (c : Constraint κ) : s.Attaches c := by
  obtain ⟨board, arena, learned, order, head⟩ := s
  obtain ⟨htidy, hget⟩ := Arena.set_allocate_spec h c (c.attach (arena.allocate c).1 board).2.1
  exact ⟨c.registers_attach _ board, (Arena.allocate_spec h c).1, hget, htidy⟩

/-- A constraint is replaced by what it is after a notification. -/
structure Notifies (p : Literal) (r : Reference) (c : Constraint κ) (s s' : SearchState κ) :
    Prop where
  registers : Board.Registers r (c.registeredAtPropagate r p s.board) s.board s'.board
  get? : ∃ m, c.metadata.Similar m ∧ ∀ q, s'.arena.get? q =
    if q = r then some ⟨(c.propagate r p s.board).2.1.kind, m⟩ else s.arena.get? q
  tidy : s.arena.Tidy → s'.arena.Tidy
  references : s'.learned.references = s.learned.references

theorem notifies {p : Literal} {r : Reference} {n : Nat} {ok : Bool} {c : Constraint κ}
    (hc : s.arena.get? r = some c) (hrun : visit p r n s = .ok (ok, s')) : Notifies p r c s s' := by
  obtain ⟨board, arena, learned, order, head⟩ := s
  obtain ⟨d, hd, hrun⟩ := ok_of_bind hrun
  have hd := Arena.get_eq_ok.mp hd
  have hc : arena.get? r = some c := hc
  rw [hc] at hd
  cases hd
  have hregisters := c.registers_propagate r p board
  have hmeta := c.metadata_propagate r p board
  -- The constraint may be measured again, which touches its metadata only.
  have hfinish : ∀ d : Constraint κ, d.kind = (c.propagate r p board).2.1.kind →
      (c.propagate r p board).2.1.metadata.Similar d.metadata →
      (∃ m, c.metadata.Similar m ∧ ∀ q, (arena.set r d).get? q =
        if q = r then some ⟨(c.propagate r p board).2.1.kind, m⟩ else arena.get? q) ∧
        (arena.Tidy → (arena.set r d).Tidy) := by
    intro d hkind hsim
    rw [hmeta] at hsim
    refine ⟨⟨d.metadata, hsim, fun q => ?_⟩, fun ht => ht.set hc d⟩
    rw [Arena.get?_set hc, ← hkind]
  dsimp only at hrun
  split at hrun
  · rename_i c' board' heq
    cases hrun
    rw [heq] at hregisters hfinish
    obtain ⟨hget, htidy⟩ := hfinish c' rfl (.refl _)
    exact ⟨hregisters, by rw [heq]; exact hget, htidy, rfl⟩
  · rename_i c' board' heq
    rw [heq] at hregisters hfinish
    split at hrun
    · cases hrun
      obtain ⟨hkind, hsim, hrefs⟩ := onPropagation_spec learned board'.assignment c'
      obtain ⟨hget, htidy⟩ := hfinish _ hkind hsim
      exact ⟨hregisters, by rw [heq]; exact hget, htidy, hrefs⟩
    · cases hrun
      obtain ⟨hget, htidy⟩ := hfinish c' rfl (.refl _)
      exact ⟨hregisters, by rw [heq]; exact hget, htidy, rfl⟩

/-- Constraints are told to take something back, each as often as it is listed. -/
structure Recounts (rs : List Reference) (s s' : Arena κ) : Prop where
  alive : ∀ q c, s.get? q = some c → ∃ c', s'.get? q = some c' ∧ c'.metadata = c.metadata ∧
    ∀ count, CustomConstraint.Counts count →
      c'.kind.counter count = (c.kind.counter count).map (· - rs.count q)
  dead : ∀ q, s.get? q = none → s'.get? q = none
  tidy : s.Tidy → s'.Tidy

theorem recounts {l : Literal} {rs : List Reference} {s s' : Arena κ}
    (hrun : undoAll l rs s = .ok s') : Recounts rs s s' := by
  induction rs generalizing s with
  | nil =>
    cases hrun
    refine ⟨fun q c hc => ⟨c, hc, rfl, fun count _ => ?_⟩, fun _ h => h, id⟩
    cases c.kind.counter count <;> simp
  | cons r rs ih =>
    obtain ⟨s₁, hfirst, hrest⟩ := ok_of_bind (by simpa only [undoAll, List.foldlM_cons] using hrun)
    obtain ⟨c, hc, hfirst⟩ := ok_of_bind hfirst
    obtain ⟨c', hundo, hset⟩ := ok_of_bind hfirst
    cases hset
    have hc := Arena.get_eq_ok.mp hc
    obtain ⟨halive, hdead, htidy⟩ := ih hrest
    refine ⟨fun q d hd => ?_, fun q hq => hdead q (Arena.get?_set_eq_none hc c' hq),
      fun ht => htidy (ht.set hc c')⟩
    by_cases hq : q = r
    · subst hq
      rw [hc] at hd
      cases hd
      obtain ⟨d', hd', hmeta, hcounter⟩ := halive q c' (by rw [Arena.get?_set hc, if_pos rfl])
      refine ⟨d', hd', hmeta.trans (Constraint.metadata_undo hundo), fun count hcount => ?_⟩
      rw [hcounter count hcount, hcount.counter_undo l c hundo, List.count_cons_self]
      cases c.kind.counter count with
      | none => rfl
      | some n =>
        simp only [Option.map_some, Option.some.injEq]
        omega
    · obtain ⟨d', hd', hmeta, hcounter⟩ :=
        halive q d (by rw [Arena.get?_set hc, if_neg hq]; exact hd)
      refine ⟨d', hd', hmeta, fun count hcount => ?_⟩
      rw [hcounter count hcount, List.count_cons_of_ne fun h => hq h.symm]

/-- Whoever is told can take that back, if nobody is told more often than it counted. -/
theorem exists_undoAll {count : κ → Option Nat} (hcount : CustomConstraint.Counts count)
    (l : Literal) {rs : List Reference} {s : Arena κ}
    (h : ∀ r ∈ rs, ∃ c, s.get? r = some c ∧ ∀ n, c.kind.counter count = some n → rs.count r ≤ n) :
    ∃ s', undoAll l rs s = .ok s' := by
  induction rs generalizing s with
  | nil => exact ⟨s, rfl⟩
  | cons r rs ih =>
    obtain ⟨c, hc, hn⟩ := h r List.mem_cons_self
    have hne : c.kind.counter count ≠ some 0 := by
      intro hzero
      have hle := hn 0 hzero
      rw [List.count_cons_self] at hle
      omega
    obtain ⟨c', hundo⟩ := Constraint.exists_undo hne l
    have hrest : ∀ q ∈ rs, ∃ d, (s.set r c').get? q = some d ∧
        ∀ n, d.kind.counter count = some n → rs.count q ≤ n := by
      intro q hq
      obtain ⟨d, hd, hle⟩ := h q (List.mem_cons_of_mem _ hq)
      rw [Arena.get?_set hc]
      by_cases hqr : q = r
      · subst hqr
        rw [hc] at hd
        cases hd
        refine ⟨c', if_pos rfl, fun n hcounter => ?_⟩
        rw [hcount.counter_undo l c hundo] at hcounter
        obtain ⟨n', hn', rfl⟩ := Option.map_eq_some_iff.mp hcounter
        have hle := hn n' hn'
        rw [List.count_cons_self] at hle
        omega
      · refine ⟨d, (if_neg hqr).trans hd, fun n hcounter => ?_⟩
        have hle := hle n hcounter
        rwa [List.count_cons_of_ne fun h => hqr h.symm] at hle
    obtain ⟨s', hs'⟩ := ih hrest
    exact ⟨s', (undoAll_cons hc hundo rs).trans hs'⟩

omit [CustomConstraint κ] in
/-- What is deleted has no undo entries left. -/
theorem numUndos_delete {s : SearchState κ} {q : Reference} {v : Nat}
    (hdead : s.arena.get? q = none → s.board.watches.numUndos v q = 0) (rs : List Reference) :
    (s.delete rs).board.watches.numUndos v q =
      if q ∈ rs then 0 else s.board.watches.numUndos v q := by
  obtain ⟨⟨a, w⟩, arena, learned, order, head⟩ := s
  simp only [delete]
  split
  · rename_i hnil
    rw [List.isEmpty_iff.mp hnil, if_neg List.not_mem_nil]
  · rw [Watches.numUndos_purge, Arena.isAlive, Arena.get?_freeAll]
    by_cases hq : q ∈ rs
    · simp only [if_pos hq, Option.isSome_none, Bool.false_eq_true, if_false]
    · simp only [if_neg hq]
      split
      · rfl
      · rename_i hnone
        exact (hdead (Option.not_isSome_iff_eq_none.mp hnone)).symm

end SearchState

end ClauseLearning
