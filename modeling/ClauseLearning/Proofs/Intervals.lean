import ClauseLearning.Proofs.Counting

/-!
# Restarts and their intervals

What a policy for restarts is told, as data (`RestartEvent`), and what becomes of the policy
(`RestartPolicy.after`). A restart that is due may be put off for any number of conflicts, but there
is none that the policy did not ask for (`RestartPolicy.Obeyed`). The adaptive policy may block a
restart, and starts to count again without one.

* `RestartPolicy.Stands.after`: only restarts consume elements of the configured sequence.
* `RestartPolicy.sinceRestart_after`: the policy does not count more conflicts than there were since
  the last restart, done or blocked.
* `RestartPolicy.respects_intervals`: so many conflicts lie before a restart.
-/

namespace ClauseLearning

/-! ## Sequences -/

namespace IntervalSequence

theorem drop_succ (k : Nat) (s : IntervalSequence) : s.drop (k + 1) = (s.drop k).next.2 := by
  induction k generalizing s with
  | zero => rfl
  | succ k ih => exact ih s.next.2

/-- The element with a number, from 0 on. -/
def element (k : Nat) (s : IntervalSequence) : Nat := (s.drop k).next.1

end IntervalSequence

/-- The sequence of intervals that the options describe. -/
def RestartOptions.intervals (o : RestartOptions) : IntervalSequence :=
  .ofShape o.baseInterval o.geometricCoef o.shape

/-! ## What a policy is told -/

inductive RestartEvent
  | conflict
  /-- A clause with distance `lbd` was learned while `numAssigned` variables were assigned. -/
  | learned (lbd numAssigned : Nat)
  | restart
  deriving DecidableEq, Repr

/-- Counting event by event. -/
theorem RestartEvent.count_cons (a e : RestartEvent) (evs : List RestartEvent) :
    (e :: evs).count a = [e].count a + evs.count a := by
  rw [← List.count_append, List.singleton_append]

namespace RestartPolicy

def tell (p : RestartPolicy) : RestartEvent → RestartPolicy
  | .conflict => p.onConflict
  | .learned lbd numAssigned => p.onLearned lbd numAssigned
  | .restart => p.onRestart

/-- The policy after some events, the first one first. -/
def after (p : RestartPolicy) (evs : List RestartEvent) : RestartPolicy := evs.foldl tell p

theorem after_append (p : RestartPolicy) (evs evs' : List RestartEvent) :
    p.after (evs ++ evs') = (p.after evs).after evs' := List.foldl_append

/-- There is no restart that the policy did not ask for. -/
def Obeyed (p : RestartPolicy) (evs : List RestartEvent) : Prop :=
  ∀ before rest, evs = before ++ .restart :: rest → (p.after before).shouldRestart = true

theorem obeyed_nil (p : RestartPolicy) : p.Obeyed [] := fun before rest h => by
  cases before <;> cases h

theorem obeyed_cons {p : RestartPolicy} {e : RestartEvent} {evs : List RestartEvent} :
    p.Obeyed (e :: evs) ↔
      (e = .restart → p.shouldRestart = true) ∧ (p.tell e).Obeyed evs := by
  constructor
  · intro h
    exact ⟨fun he => h [] evs (by rw [he]; rfl), fun before rest hrest =>
      h (e :: before) rest (by rw [hrest]; rfl)⟩
  · rintro ⟨hfirst, hrest⟩ before rest h
    cases before with
    | nil =>
      cases h
      exact hfirst rfl
    | cons e' before =>
      cases h
      exact hrest before rest rfl

/-- The count of conflicts starts again: there is a restart, or one is blocked. -/
def Marks (p : RestartPolicy) (e : RestartEvent) : Prop :=
  e = .restart ∨ p.numBlocked < (p.tell e).numBlocked

/-- The events end with one that starts the count of conflicts again, or are none. -/
def EndsWithMark (p : RestartPolicy) (evs : List RestartEvent) : Prop :=
  evs = [] ∨ ∃ before e, evs = before ++ [e] ∧ (p.after before).Marks e

/-- How many conflicts a policy has counted. -/
def sinceRestart : RestartPolicy → Nat
  | .never => 0
  | .scheduled _ sinceRestart _ => sinceRestart
  | .adaptive s => s.sinceRestart

/-- What is left of the sequence of intervals, for the policies that have one. -/
def sequence? : RestartPolicy → Option IntervalSequence
  | .never => none
  | .scheduled sequence _ _ => some sequence
  | .adaptive s => some s.sequence

/-! ## What restarts consume -/

/-- Where a policy is after `k` restarts. Its interval is the element with that number. -/
def Stands (o : RestartOptions) (k : Nat) : RestartPolicy → Prop
  | .never => o.strategy = .never
  | .scheduled sequence _ interval => o.strategy = .scheduled ∧
      sequence = o.intervals.drop (k + 1) ∧ interval = max 1 (o.intervals.element k)
  | .adaptive s => o.strategy = .adaptive ∧ s.sequence = o.intervals.drop (k + 1) ∧
      s.interval = max 1 (o.intervals.element k) ∧ s.numRestarts = k ∧
      s.minConflicts = o.minConflicts

variable {o : RestartOptions} {k : Nat} {p : RestartPolicy}

theorem stands_ofOptions (o : RestartOptions) : Stands o 0 (ofOptions o) := by
  unfold ofOptions
  cases hs : o.strategy with
  | never => exact hs
  | scheduled => exact ⟨hs, rfl, Nat.max_comm ..⟩
  | adaptive => exact ⟨hs, rfl, Nat.max_comm .., rfl, rfl⟩

/-- The next interval is the next element. -/
theorem interval_next (o : RestartOptions) (k : Nat) :
    (o.intervals.drop (k + 1)).next.2 = o.intervals.drop (k + 1 + 1) ∧
      max (o.intervals.drop (k + 1)).next.1 1 = max 1 (o.intervals.element (k + 1)) :=
  ⟨(IntervalSequence.drop_succ ..).symm, Nat.max_comm ..⟩

/-- A blocked restart leaves all but the counters and the averages alone. -/
theorem Stands.onLearned (h : Stands o k p) (lbd numAssigned : Nat) :
    Stands o k (p.onLearned lbd numAssigned) := by
  cases p with
  | never => exact h
  | scheduled sequence sinceRestart interval => exact h
  | adaptive s =>
    simp only [RestartPolicy.onLearned, AdaptiveRestarts.onLearned]
    split
    · exact h
    · exact h

theorem Stands.onRestart (h : Stands o k p) : Stands o (k + 1) p.onRestart := by
  obtain ⟨hrest, hnext⟩ := interval_next o k
  cases p with
  | never => exact h
  | scheduled sequence sinceRestart interval =>
    obtain ⟨hs, rfl, -⟩ := h
    exact ⟨hs, hrest, hnext⟩
  | adaptive s =>
    obtain ⟨hs, hsequence, -, hnum, hmin⟩ := h
    refine ⟨hs, ?_, ?_, congrArg (· + 1) hnum, hmin⟩
    · show s.sequence.next.2 = _
      rw [hsequence, hrest]
    · show max s.sequence.next.1 1 = _
      rw [hsequence, hnext]

theorem Stands.tell (h : Stands o k p) (e : RestartEvent) :
    Stands o (k + [e].count .restart) (p.tell e) := by
  cases e with
  | conflict => cases p <;> exact h
  | learned lbd numAssigned => exact h.onLearned lbd numAssigned
  | restart => exact h.onRestart

/-- Only restarts consume elements of the sequence. -/
theorem Stands.after (h : Stands o k p) (evs : List RestartEvent) :
    Stands o (k + evs.count .restart) (p.after evs) := by
  induction evs generalizing k p with
  | nil => exact h
  | cons e evs ih =>
    rw [RestartEvent.count_cons, ← Nat.add_assoc]
    exact ih (h.tell e)

theorem Stands.sequence?_eq (h : Stands o k p) :
    p.sequence? = if o.strategy = .never then none else some (o.intervals.drop (k + 1)) := by
  cases p with
  | never => exact (if_pos h).symm
  | scheduled sequence sinceRestart interval =>
    rw [if_neg (by rw [h.1]; exact nofun), ← h.2.1]
    rfl
  | adaptive s =>
    rw [if_neg (by rw [h.1]; exact nofun), ← h.2.1]
    rfl

/-! ## What is counted -/

theorem sinceRestart_tell_of_marks {e : RestartEvent} (h : p.Marks e) :
    (p.tell e).sinceRestart = 0 := by
  rcases h with rfl | hblocked
  · cases p <;> rfl
  · cases e with
    | conflict => exact absurd (numBlocked_onConflict p) (Nat.ne_of_gt hblocked)
    | restart => exact absurd (numBlocked_onRestart p) (Nat.ne_of_gt hblocked)
    | learned lbd numAssigned =>
      cases p with
      | never => rfl
      | scheduled sequence sinceRestart interval => exact absurd hblocked (Nat.lt_irrefl 0)
      | adaptive s =>
        simp only [tell, onLearned, numBlocked, AdaptiveRestarts.onLearned] at hblocked ⊢
        split at hblocked
        · rename_i hblock
          rw [if_pos hblock]
          rfl
        · exact absurd hblocked (Nat.lt_irrefl _)

theorem sinceRestart_tell (p : RestartPolicy) (e : RestartEvent) :
    (p.tell e).sinceRestart ≤ p.sinceRestart + [e].count .conflict := by
  cases e with
  | conflict =>
    cases p with
    | never => exact Nat.zero_le _
    | scheduled sequence sinceRestart interval => exact Nat.le_refl _
    | adaptive s => exact Nat.le_refl _
  | restart => cases p <;> exact Nat.zero_le _
  | learned lbd numAssigned =>
    cases p with
    | never => exact Nat.zero_le _
    | scheduled sequence sinceRestart interval => exact Nat.le_refl _
    | adaptive s =>
      simp only [tell, onLearned, RestartPolicy.sinceRestart, AdaptiveRestarts.onLearned]
      split
      · exact Nat.zero_le _
      · exact Nat.le_refl _

theorem sinceRestart_after (p : RestartPolicy) (evs : List RestartEvent) :
    (p.after evs).sinceRestart ≤ p.sinceRestart + evs.count .conflict := by
  induction evs generalizing p with
  | nil => exact Nat.le_refl _
  | cons e evs ih =>
    have htell := sinceRestart_tell p e
    have hrest := ih (p.tell e)
    rw [RestartEvent.count_cons]
    exact Nat.le_trans hrest (by omega)

theorem sinceRestart_of_endsWithMark {evs : List RestartEvent} (hp : p.sinceRestart = 0)
    (h : p.EndsWithMark evs) : (p.after evs).sinceRestart = 0 := by
  rcases h with rfl | ⟨before, e, rfl, hmark⟩
  · exact hp
  · rw [after_append]
    exact sinceRestart_tell_of_marks hmark

theorem sinceRestart_ofOptions (o : RestartOptions) : (ofOptions o).sinceRestart = 0 := by
  unfold ofOptions
  cases o.strategy <;> rfl

/-- A policy that asks for a restart has counted enough conflicts. -/
theorem Stands.le_sinceRestart (h : Stands o k p) (hdue : p.shouldRestart = true) :
    max 1 (o.intervals.element k) ≤ p.sinceRestart ∧
      (o.strategy = .adaptive → k = 0 → o.minConflicts ≤ p.sinceRestart) := by
  cases p with
  | never => cases hdue
  | scheduled sequence sinceRestart interval =>
    obtain ⟨hs, -, hinterval⟩ := h
    refine ⟨hinterval ▸ of_decide_eq_true hdue, fun ha => ?_⟩
    rw [hs] at ha
    cases ha
  | adaptive s =>
    obtain ⟨-, -, hinterval, hnum, hmin⟩ := h
    simp only [shouldRestart, AdaptiveRestarts.shouldRestart, AdaptiveRestarts.isDue,
      Bool.and_eq_true, Bool.not_eq_true', Bool.and_eq_false_iff, beq_eq_false_iff_ne,
      decide_eq_false_iff_not, decide_eq_true_eq, Nat.not_lt] at hdue
    obtain ⟨⟨hfirst, henough⟩, -⟩ := hdue
    exact ⟨hinterval ▸ henough, fun _ hk => hmin ▸ hfirst.resolve_left (absurd (hnum.trans hk))⟩

/-! ## Intervals -/

/-- As many conflicts as the next element of the sequence says, and at least one, lie between a
restart and the last one before it, and even the last one that was blocked; the first restart of the
adaptive policy has a minimum of its own. Blocking consumes no element. -/
theorem respects_intervals (o : RestartOptions) :
    (∀ evs, ((ofOptions o).after evs).sequence? =
      if o.strategy = .never then none
      else some (o.intervals.drop (evs.count .restart + 1))) ∧
    ∀ before later, (ofOptions o).Obeyed (before ++ later ++ [.restart]) →
      (ofOptions o).EndsWithMark before → .restart ∉ later →
      max 1 (o.intervals.element (before.count .restart)) ≤ later.count .conflict ∧
        (o.strategy = .adaptive → before.count .restart = 0 →
          o.minConflicts ≤ later.count .conflict) := by
  have hstands := fun evs => (stands_ofOptions o).after evs
  simp only [Nat.zero_add] at hstands
  refine ⟨fun evs => (hstands evs).sequence?_eq, fun before later hobeyed hmark hnone => ?_⟩
  have hdue := hobeyed (before ++ later) [] rfl
  have hsince := sinceRestart_after ((ofOptions o).after before) later
  rw [sinceRestart_of_endsWithMark (sinceRestart_ofOptions o) hmark, Nat.zero_add,
    ← after_append] at hsince
  have hnow := hstands (before ++ later)
  rw [List.count_append, List.count_eq_zero.mpr hnone, Nat.add_zero] at hnow
  obtain ⟨hinterval, hfirst⟩ := hnow.le_sinceRestart hdue
  exact ⟨Nat.le_trans hinterval hsince, fun ha hk => Nat.le_trans (hfirst ha hk) hsince⟩

/-- Intervals of lengths 1, 1, 2, 1, 1, 2, 4 and so on. -/
def lubyOptions : RestartOptions :=
  { RestartOptions.standard with strategy := .scheduled, shape := .luby, baseInterval := 1 }

/-- The third interval has two conflicts. -/
theorem respects_intervals_of_three :
    (ofOptions lubyOptions).Obeyed
        ([.conflict, .restart, .conflict, .restart] ++ [.conflict, .learned 2 7, .conflict] ++
          [.restart]) ∧
      max 1 (lubyOptions.intervals.element 2) = 2 ∧
      2 ≤ [RestartEvent.conflict, .learned 2 7, .conflict].count .conflict := by
  have hobeyed : (ofOptions lubyOptions).Obeyed
      ([.conflict, .restart, .conflict, .restart] ++ [.conflict, .learned 2 7, .conflict] ++
        [.restart]) := by
    simp only [List.cons_append, List.nil_append, obeyed_cons]
    exact ⟨nofun, fun _ => rfl, nofun, fun _ => rfl, nofun, nofun, nofun, fun _ => rfl,
      obeyed_nil _⟩
  have helement : max 1 (lubyOptions.intervals.element 2) = 2 := by decide +kernel
  refine ⟨hobeyed, helement, ?_⟩
  rw [← helement]
  exact ((respects_intervals lubyOptions).2 [.conflict, .restart, .conflict, .restart] _ hobeyed
    (Or.inr ⟨[.conflict, .restart, .conflict], .restart, rfl, Or.inl rfl⟩) (by decide)).1

end RestartPolicy

end ClauseLearning
