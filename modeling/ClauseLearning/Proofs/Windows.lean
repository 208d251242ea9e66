import ClauseLearning.Proofs.Intervals
import ClauseLearning.Word
import Mathlib.Algebra.GroupWithZero.Nat
import Mathlib.Data.List.DropRight
import Mathlib.Data.List.Infix

/-!
# What a moving window holds

A window is told of terms, and is cleared now and then (`WindowEvent`). It keeps its sum and its
length up to date instead of computing them, so both are part of the invariant: they are the sum and
the length of the terms that it holds, and these are the most recent ones since it was cleared
(`Window.Holds`). A term that falls out is part of the sum, hence nothing is subtracted that is not
there, and machine words are enough as long as the sums are words (`Window.after?_eq`).

* `Window.Holds.add`, `Window.Holds.clear`: one event.
* `Window.holds_most_recent`: the terms, the sum and the average after any events.
* `RestartPolicy.recalls_after`: what the windows of the adaptive policy hold.
-/

namespace ClauseLearning

/-- What is done to a window. -/
inductive WindowEvent
  | add (term : Nat)
  | clear
  deriving DecidableEq, Repr

namespace WindowEvent

variable {evs : List WindowEvent} {capacity : Nat}

def term? : WindowEvent → Option Nat
  | .add term => some term
  | .clear => none

/-- The terms that were added since the window was cleared. -/
def terms (evs : List WindowEvent) : List Nat :=
  (evs.rtakeWhile fun e => e.term?.isSome).filterMap term?

theorem terms_add (evs : List WindowEvent) (term : Nat) :
    terms (evs ++ [.add term]) = terms evs ++ [term] := by
  rw [terms, List.rtakeWhile_concat_pos _ _ _ rfl, List.filterMap_append]
  rfl

theorem terms_clear (evs : List WindowEvent) : terms (evs ++ [.clear]) = [] := by
  rw [terms, List.rtakeWhile_concat_neg _ _ _ Bool.false_ne_true]
  rfl

/-- The last terms, as many as there is room for. -/
def recent (capacity : Nat) (terms : List Nat) : List Nat :=
  terms.rtake (min terms.length capacity)

theorem recent_eq_drop (capacity : Nat) (terms : List Nat) :
    recent capacity terms = terms.drop (terms.length - capacity) := by
  rw [recent, List.rtake]
  congr 1
  omega

theorem length_recent (capacity : Nat) (terms : List Nat) :
    (recent capacity terms).length = min terms.length capacity := by
  rw [recent_eq_drop, List.length_drop]
  omega

/-- One more term is held, and the oldest one falls out if there is no room for both. -/
theorem recent_concat (hpos : 0 < capacity) (terms : List Nat) (term : Nat) :
    recent capacity (terms ++ [term]) =
      (if capacity ≤ terms.length then (recent capacity terms).drop 1
        else recent capacity terms) ++ [term] := by
  rw [recent_eq_drop, recent_eq_drop, List.length_append, List.length_singleton,
    List.drop_append_of_le_length (by omega)]
  split
  · rw [List.drop_drop]
    congr 2
    omega
  · congr 2
    omega

/-- No sum of terms held at the same time exceeds a word of 64 bits. -/
def SumsFit (capacity : Nat) (evs : List WindowEvent) : Prop :=
  ∀ before ∈ evs.inits, (recent capacity (terms before)).sum < Word.bound64

instance (capacity : Nat) (evs : List WindowEvent) : Decidable (SumsFit capacity evs) :=
  inferInstanceAs (Decidable (∀ before ∈ evs.inits, _))

theorem sumsFit_nil (capacity : Nat) : SumsFit capacity [] := by
  intro before hbefore
  rw [List.mem_singleton.mp hbefore]
  show (recent capacity []).sum < Word.bound64
  rw [recent, List.rtake_nil]
  decide

theorem sumsFit_concat (e : WindowEvent) : SumsFit capacity (evs ++ [e]) ↔
    SumsFit capacity evs ∧ (recent capacity (terms (evs ++ [e]))).sum < Word.bound64 := by
  simp only [SumsFit, List.mem_inits, List.prefix_concat_iff]
  constructor
  · intro h
    exact ⟨fun before hbefore => h before (Or.inr hbefore), h _ (Or.inl rfl)⟩
  · rintro ⟨h, hlast⟩ before (rfl | hbefore)
    · exact hlast
    · exact h before hbefore

end WindowEvent

namespace Window

open WindowEvent

variable {w : Window} {capacity : Nat} {terms : List Nat}

/-! ## One event -/

def tell (w : Window) : WindowEvent → Window
  | .add term => w.add term
  | .clear => w.clear

/-- The window after some events, the first one first. -/
def after (w : Window) (evs : List WindowEvent) : Window := evs.foldl tell w

theorem after_concat (w : Window) (evs : List WindowEvent) (e : WindowEvent) :
    w.after (evs ++ [e]) = (w.after evs).tell e := List.foldl_append

theorem evict_of_nil (h : w.toList = []) : w.evict = w := by
  obtain ⟨capacity, sum, length, older, newer⟩ := w
  obtain ⟨rfl, hnewer⟩ := List.append_eq_nil_iff.mp h
  simp [evict, hnewer]

/-- What falls out is the oldest term. -/
theorem evict_of_cons {oldest : Nat} {rest : List Nat} (h : w.toList = oldest :: rest) :
    w.evict.sum = w.sum - oldest ∧ w.evict.length = w.length - 1 := by
  obtain ⟨capacity, sum, length, older, newer⟩ := w
  cases older with
  | cons first older =>
    obtain ⟨rfl, -⟩ := List.cons.inj h
    exact ⟨rfl, rfl⟩
  | nil =>
    have hnewer : newer.reverse = oldest :: rest := h
    simp [evict, hnewer]

theorem capacity_evict (w : Window) : w.evict.capacity = w.capacity := by
  unfold evict
  split
  · rfl
  · split <;> rfl

theorem capacity_add (w : Window) (term : Nat) : (w.add term).capacity = w.capacity := by
  unfold add
  split
  · exact w.capacity_evict
  · rfl

/-- Sum and length are those of the terms. -/
structure Tallied (w : Window) : Prop where
  sum : w.sum = w.toList.sum
  length : w.length = w.toList.length

namespace Tallied

theorem evict (h : Tallied w) : Tallied w.evict := by
  cases hlist : w.toList with
  | nil =>
    rw [evict_of_nil hlist]
    exact h
  | cons oldest rest =>
    obtain ⟨hsum, hlength⟩ := evict_of_cons hlist
    have hrest : w.evict.toList = rest := by rw [toList_evict, hlist, List.drop_one, List.tail_cons]
    refine ⟨?_, ?_⟩
    · rw [hsum, hrest, h.sum, hlist, List.sum_cons, Nat.add_sub_cancel_left]
    · rw [hlength, hrest, h.length, hlist, List.length_cons, Nat.add_sub_cancel]

theorem push (h : Tallied w) (term : Nat) : Tallied (w.push term) := by
  refine ⟨?_, ?_⟩
  · rw [toList_push, List.sum_append, List.sum_singleton, ← h.sum]
    rfl
  · rw [toList_push, List.length_append, List.length_singleton, ← h.length]
    rfl

theorem add (h : Tallied w) (term : Nat) : Tallied (w.add term) := by
  unfold Window.add
  split
  · exact h.evict.push term
  · exact h.push term

end Tallied

/-- The window has room for some number of terms and holds the most recent ones. -/
structure Holds (capacity : Nat) (terms : List Nat) (w : Window) : Prop extends Tallied w where
  room : w.capacity = capacity
  toList : w.toList = recent capacity terms

theorem holds_empty (capacity : Nat) : Holds capacity [] ⟨capacity, 0, 0, [], []⟩ :=
  ⟨⟨rfl, rfl⟩, rfl, (List.rtake_nil _).symm⟩

namespace Holds

theorem isFull_iff (h : Holds capacity terms w) : w.isFull = true ↔ capacity ≤ terms.length := by
  rw [isFull, beq_iff_eq, h.length, h.room, h.toList, length_recent]
  omega

theorem add (h : Holds capacity terms w) (hpos : 0 < capacity) (term : Nat) :
    Holds capacity (terms ++ [term]) (w.add term) := by
  refine ⟨h.toTallied.add term, (w.capacity_add term).trans h.room, ?_⟩
  rw [toList_add, recent_concat hpos, h.toList]
  simp only [h.isFull_iff]

theorem clear (h : Holds capacity terms w) : Holds capacity [] w.clear := by
  rw [Window.clear, h.room]
  exact holds_empty capacity

end Holds

/-! ## Machine words -/

/-- How arithmetic on words of 64 bits fails. -/
inductive WordError
  /-- A difference is negative. -/
  | underflow
  /-- A sum is too large. -/
  | overflow
  deriving DecidableEq, Repr

def evict? (w : Window) : Except WordError Window :=
  match w.toList with
  | [] => .ok w
  | oldest :: _ => if oldest ≤ w.sum then .ok w.evict else .error .underflow

def push? (term : Nat) (w : Window) : Except WordError Window :=
  if w.sum + term < Word.bound64 then .ok (w.push term) else .error .overflow

/-- Adds a term with words of 64 bits. -/
def add? (term : Nat) (w : Window) : Except WordError Window := do
  if w.isFull then (← w.evict?).push? term else w.push? term

def tell? (w : Window) : WindowEvent → Except WordError Window
  | .add term => w.add? term
  | .clear => .ok w.clear

/-- The window after some events, with words of 64 bits. -/
def after? (w : Window) (evs : List WindowEvent) : Except WordError Window := evs.foldlM tell? w

theorem after?_concat (w : Window) (evs : List WindowEvent) (e : WindowEvent) :
    w.after? (evs ++ [e]) = w.after? evs >>= (tell? · e) := by
  simp only [after?, List.foldlM_append, List.foldlM_cons, List.foldlM_nil, bind_pure]

/-- A term that falls out is part of the sum. -/
theorem Tallied.evict?_eq (h : Tallied w) : w.evict? = .ok w.evict := by
  unfold evict?
  split
  · next hlist => rw [evict_of_nil hlist]
  · next oldest rest hlist =>
    have hle : oldest ≤ w.sum := by
      rw [h.sum, hlist, List.sum_cons]
      exact Nat.le_add_right ..
    exact if_pos hle

theorem Tallied.add?_eq (h : Tallied w) (term : Nat) :
    w.add? term =
      if (w.add term).sum < Word.bound64 then .ok (w.add term) else .error .overflow := by
  unfold add? Window.add
  split
  · rw [h.evict?_eq]
    rfl
  · rfl

theorem Tallied.tell?_eq (h : Tallied w) (e : WindowEvent) :
    w.tell? e = if (w.tell e).sum < Word.bound64 then .ok (w.tell e) else .error .overflow := by
  cases e with
  | add term => exact h.add?_eq term
  | clear => exact (if_pos (by decide : (0 : Nat) < Word.bound64)).symm

/-! ## Any events -/

theorem holds_after (hpos : 0 < capacity) (evs : List WindowEvent) :
    Holds capacity (WindowEvent.terms evs) ((atLeastOne capacity).after evs) := by
  induction evs using List.reverseRecOn with
  | nil =>
    rw [atLeastOne, Nat.max_eq_left hpos]
    exact holds_empty capacity
  | append_singleton evs e ih =>
    rw [after_concat]
    cases e with
    | add term =>
      rw [terms_add]
      exact ih.add hpos term
    | clear =>
      rw [terms_clear]
      exact ih.clear

/-- The only way to fail is a sum of terms that are held at the same time. -/
theorem after?_eq (hpos : 0 < capacity) (evs : List WindowEvent) :
    (atLeastOne capacity).after? evs =
      if SumsFit capacity evs then .ok ((atLeastOne capacity).after evs)
      else .error .overflow := by
  induction evs using List.reverseRecOn with
  | nil => exact (if_pos (sumsFit_nil capacity)).symm
  | append_singleton evs e ih =>
    have hnext := holds_after hpos (evs ++ [e])
    have hsum : (recent capacity (WindowEvent.terms (evs ++ [e]))).sum =
        (((atLeastOne capacity).after evs).tell e).sum := by
      rw [← hnext.toList, ← hnext.sum, after_concat]
    simp only [sumsFit_concat, hsum]
    rw [after_concat, after?_concat, ih]
    by_cases hfits : SumsFit capacity evs
    · simp only [hfits, true_and, if_true]
      exact (holds_after hpos evs).tell?_eq e
    · simp only [hfits, false_and]
      rfl

/-- What is promised of a window after some events, and of the terms that it holds then. -/
structure MostRecent (capacity : Nat) (evs : List WindowEvent) (held : List Nat) (w : Window) :
    Prop where
  made : capacity ≤ maxCapacity → make capacity = .ok (atLeastOne capacity)
  toList : w.toList = held
  sum : w.sum = held.sum
  isFull : w.isFull = true ↔ capacity ≤ (WindowEvent.terms evs).length
  /-- With machine words nothing that falls out is too large to be subtracted: only a sum of terms
  that are held at the same time can be too large. -/
  words : (atLeastOne capacity).after? evs =
    if SumsFit capacity evs then .ok w else .error .overflow
  average : SumsFit capacity evs → ∃ sum count : UInt64,
    sum.toNat = held.sum ∧ count.toNat = held.length ∧
      w.value = if held = [] then 0.0 else sum.toFloat / count.toFloat

/-- A window holds the last terms that were added since it was cleared, as many as it has room for.
Its sum is the sum of these terms, it is full if no more of them would fit, and its value is their
average. -/
theorem holds_most_recent {capacity : Nat} (hpos : 1 ≤ capacity) (hword : capacity < 2 ^ 64)
    (evs : List WindowEvent) :
    let terms := WindowEvent.terms evs
    MostRecent capacity evs (terms.rtake (min terms.length capacity))
      ((atLeastOne capacity).after evs) := by
  intro terms
  have hholds : Holds capacity terms ((atLeastOne capacity).after evs) := holds_after hpos evs
  have hlist : ((atLeastOne capacity).after evs).toList = recent capacity terms := hholds.toList
  have hsum : ((atLeastOne capacity).after evs).sum = (recent capacity terms).sum := by
    rw [hholds.sum, hlist]
  have hlength : ((atLeastOne capacity).after evs).length = (recent capacity terms).length := by
    rw [hholds.length, hlist]
  refine ⟨fun hmemory => ?_, hlist, hsum, hholds.isFull_iff, after?_eq hpos evs, fun hfits => ?_⟩
  · rw [make, if_neg (Nat.ne_of_gt hpos), if_neg (Nat.not_lt.mpr hmemory)]
  · have hsumlt : (recent capacity terms).sum < 2 ^ 64 :=
      hfits evs ((List.mem_inits _ _).mpr (List.prefix_refl evs))
    have hlengthlt : (recent capacity terms).length < 2 ^ 64 :=
      Nat.lt_of_le_of_lt (length_recent capacity terms ▸ Nat.min_le_right ..) hword
    refine ⟨.ofNat (recent capacity terms).sum, .ofNat (recent capacity terms).length,
      UInt64.toNat_ofNat_of_lt hsumlt, UInt64.toNat_ofNat_of_lt hlengthlt, ?_⟩
    rw [value, quotient, hsum, hlength]
    simp only [List.length_eq_zero_iff]
    rfl

/-- The third term since the window was cleared lets the first one fall out. -/
theorem holds_most_recent_of_two :
    let evs : List WindowEvent := [.add 7, .clear, .add 10, .add 30, .add 90]
    let w := (atLeastOne 2).after evs
    make 2 = .ok (atLeastOne 2) ∧ w.toList = [30, 90] ∧ w.sum = 120 ∧ w.isFull = true ∧
      (atLeastOne 2).after? evs = .ok w ∧
      ∃ sum count : UInt64, sum.toNat = 120 ∧ count.toNat = 2 ∧
        w.value = sum.toFloat / count.toFloat := by
  intro evs w
  have hrecent := holds_most_recent (by decide : 1 ≤ 2) (by decide) evs
  have hfits : SumsFit 2 evs := by decide
  exact ⟨hrecent.made (by decide), hrecent.toList, hrecent.sum, hrecent.isFull.mpr (by decide),
    hrecent.words.trans (if_pos hfits), hrecent.average hfits⟩

end Window

/-! ## The windows of the adaptive policy -/

namespace RestartEvent

/-- The distance of a clause that was learned. -/
def lbd? : RestartEvent → Option Nat
  | .learned lbd _ => some lbd
  | .conflict | .restart => none

/-- How many variables were assigned when a clause was learned. -/
def numAssigned? : RestartEvent → Option Nat
  | .learned _ numAssigned => some numAssigned
  | .conflict | .restart => none

end RestartEvent

namespace RestartPolicy

variable {o : RestartOptions} {p : RestartPolicy} {lbds assigned : List Nat} {e : RestartEvent}

/-- The policy is the adaptive one, and its windows hold the most recent of these numbers. -/
def Recalls (o : RestartOptions) (lbds assigned : List Nat) : RestartPolicy → Prop
  | .adaptive s => s.recentLbd.Holds (max o.baseInterval 1) lbds ∧
      s.recentAssigned.Holds (max o.assignedWindow 1) assigned
  | _ => False

theorem recalls_ofOptions (h : o.strategy = .adaptive) : Recalls o [] [] (ofOptions o) := by
  unfold ofOptions
  rw [h]
  exact ⟨Window.holds_empty _, Window.holds_empty _⟩

theorem Recalls.exists_eq (h : Recalls o lbds assigned p) : ∃ s, p = .adaptive s := by
  cases p with
  | never => exact h.elim
  | scheduled sequence sinceRestart interval => exact h.elim
  | adaptive s => exact ⟨s, rfl⟩

/-- The distances are forgotten when the count of conflicts starts again. -/
theorem Recalls.tell_of_marks (h : Recalls o lbds assigned p) (hmark : p.Marks e) :
    Recalls o [] (assigned ++ [e].filterMap RestartEvent.numAssigned?) (p.tell e) := by
  obtain ⟨s, rfl⟩ := h.exists_eq
  obtain ⟨hlbd, hassigned⟩ := h
  rcases hmark with rfl | hblocked
  · rw [List.filterMap_cons_none rfl, List.filterMap_nil, List.append_nil]
    exact ⟨hlbd.clear, hassigned⟩
  · cases e with
    | conflict => exact absurd (numBlocked_onConflict _) (Nat.ne_of_gt hblocked)
    | restart => exact absurd (numBlocked_onRestart _) (Nat.ne_of_gt hblocked)
    | learned lbd numAssigned =>
      simp only [tell, onLearned, numBlocked, AdaptiveRestarts.onLearned] at hblocked ⊢
      split at hblocked
      · next hblock =>
        rw [if_pos hblock]
        exact ⟨(hlbd.add (Nat.le_max_right _ 1) lbd).clear,
          hassigned.add (Nat.le_max_right _ 1) numAssigned⟩
      · exact absurd hblocked (Nat.lt_irrefl _)

theorem Recalls.tell_of_not_marks (h : Recalls o lbds assigned p) (hmark : ¬p.Marks e) :
    Recalls o (lbds ++ [e].filterMap RestartEvent.lbd?)
      (assigned ++ [e].filterMap RestartEvent.numAssigned?) (p.tell e) := by
  obtain ⟨s, rfl⟩ := h.exists_eq
  obtain ⟨hlbd, hassigned⟩ := h
  cases e with
  | restart => exact absurd (Or.inl rfl) hmark
  | conflict =>
    rw [List.filterMap_cons_none rfl, List.filterMap_cons_none rfl, List.filterMap_nil,
      List.filterMap_nil, List.append_nil, List.append_nil]
    exact ⟨hlbd, hassigned⟩
  | learned lbd numAssigned =>
    have hfree : ¬s.numBlocked < ((adaptive s).tell (.learned lbd numAssigned)).numBlocked :=
      fun hblocked => hmark (Or.inr hblocked)
    simp only [tell, onLearned, numBlocked, AdaptiveRestarts.onLearned] at hfree ⊢
    split at hfree
    · exact absurd (Nat.lt_succ_self _) hfree
    · next hblock =>
      rw [if_neg hblock]
      exact ⟨hlbd.add (Nat.le_max_right _ 1) lbd,
        hassigned.add (Nat.le_max_right _ 1) numAssigned⟩

theorem Recalls.exists_after (h : Recalls o lbds assigned p) (evs : List RestartEvent) :
    ∃ lbds, Recalls o lbds (assigned ++ evs.filterMap RestartEvent.numAssigned?)
      (p.after evs) := by
  induction evs generalizing p lbds assigned with
  | nil =>
    rw [List.filterMap_nil, List.append_nil]
    exact ⟨lbds, h⟩
  | cons e evs ih =>
    rw [← List.singleton_append, List.filterMap_append, ← List.append_assoc]
    by_cases hmark : p.Marks e
    · exact ih (h.tell_of_marks hmark)
    · exact ih (h.tell_of_not_marks hmark)

/-- No event starts the count of conflicts again. -/
def Unmarked (p : RestartPolicy) (evs : List RestartEvent) : Prop :=
  ∀ before e rest, evs = before ++ e :: rest → ¬(p.after before).Marks e

theorem Recalls.after (h : Recalls o lbds assigned p) {evs : List RestartEvent}
    (hnone : p.Unmarked evs) :
    Recalls o (lbds ++ evs.filterMap RestartEvent.lbd?)
      (assigned ++ evs.filterMap RestartEvent.numAssigned?) (p.after evs) := by
  induction evs generalizing p lbds assigned with
  | nil =>
    rw [List.filterMap_nil, List.filterMap_nil, List.append_nil, List.append_nil]
    exact h
  | cons e evs ih =>
    rw [← List.singleton_append, List.filterMap_append, List.filterMap_append,
      ← List.append_assoc, ← List.append_assoc]
    refine ih (h.tell_of_not_marks (hnone [] e evs rfl)) fun before e' rest heq => ?_
    exact hnone (e :: before) e' rest (by rw [heq]; rfl)

/-- The short window of the adaptive policy holds the most recent distances of the clauses learned
since the last restart, done or blocked. The window of assigned variables is never cleared. -/
theorem recalls_after {before later : List RestartEvent} (hadaptive : o.strategy = .adaptive)
    (hbefore : (ofOptions o).EndsWithMark before)
    (hlater : ((ofOptions o).after before).Unmarked later) :
    Recalls o (later.filterMap RestartEvent.lbd?)
      ((before ++ later).filterMap RestartEvent.numAssigned?)
      ((ofOptions o).after (before ++ later)) := by
  have hcleared : Recalls o [] (before.filterMap RestartEvent.numAssigned?)
      ((ofOptions o).after before) := by
    rcases hbefore with rfl | ⟨first, e, rfl, hmark⟩
    · exact recalls_ofOptions hadaptive
    · obtain ⟨lbds, h⟩ := (recalls_ofOptions hadaptive).exists_after first
      rw [after_append, List.filterMap_append]
      exact h.tell_of_marks hmark
  rw [after_append, List.filterMap_append]
  exact hcleared.after hlater

end RestartPolicy

end ClauseLearning
