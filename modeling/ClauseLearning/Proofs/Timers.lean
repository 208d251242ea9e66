import ClauseLearning.Restart.Timer
import ClauseLearning.Word
import Mathlib.Order.Monotone.Basic
import Mathlib.Tactic.Ring

/-!
# When timers fire

A timer fires at the conflicts of a schedule. Its state is how often it fired and how many conflicts
it counted since, and what it does at the next conflict depends on nothing else (`Timer.Follows`).
So the state after any number of conflicts is known (`Timer.Follows.exists_after`), for a bound that
stays as for one that grows. With machine words a sum is only too large where a bound has grown
beyond them.

A set of timers is told of conflicts, and is asked for its timers, in any order (`TimerEvent`). An
entry of the set changes on its own (`Timers.getElem?_after`).

* `Timer.mem_firings_every`, `Timer.mem_firings_increasing`: the schedules.
* `Timer.firings?_increasing_iff`: when machine words are enough.
* `Timers.takeFired_after_iff`: what is noted is what happened since the last question.
* `Timers.keep_schedule`: all of this together.
-/

namespace ClauseLearning

namespace Timer

variable {n k m : Nat} {t : Timer}

/-! ## Counting conflicts -/

/-- The timer after some conflicts. -/
def after : Nat → Timer → Timer
  | 0, t => t
  | n + 1, t => after n t.tick.2

theorem after_succ (n : Nat) (t : Timer) : t.after (n + 1) = (t.after n).tick.2 := by
  induction n generalizing t with
  | zero => rfl
  | succ n ih => exact ih t.tick.2

theorem firings_succ (n k : Nat) (t : Timer) : t.firings (n + 1) k =
    (if t.tick.1 then [k + 1] else []) ++ t.tick.2.firings n (k + 1) := by
  rw [firings]
  rcases t.tick with ⟨fires, t⟩
  cases fires <;> rfl

theorem firings_add (n n' k : Nat) (t : Timer) :
    t.firings (n + n') k = t.firings n k ++ (t.after n).firings n' (k + n) := by
  induction n generalizing k t with
  | zero =>
    rw [Nat.zero_add]
    rfl
  | succ n ih =>
    rw [Nat.succ_add, firings_succ, firings_succ, ih, List.append_assoc, Nat.add_right_comm]
    rfl

theorem mem_firings_iff :
    m ∈ t.firings n k ↔ ∃ i, i < n ∧ m = k + i + 1 ∧ (t.after i).tick.1 = true := by
  induction n with
  | zero => simp [firings]
  | succ n ih =>
    have hlast : m ∈ (t.after n).firings 1 (k + n) ↔
        m = k + n + 1 ∧ (t.after n).tick.1 = true := by
      rw [firings_succ]
      cases (t.after n).tick.1 <;> simp [firings]
    rw [firings_add, List.mem_append, ih, hlast]
    constructor
    · rintro (⟨i, hi, h⟩ | h)
      · exact ⟨i, Nat.lt_succ_of_lt hi, h⟩
      · exact ⟨n, Nat.lt_succ_self n, h⟩
    · rintro ⟨i, hi, h⟩
      rcases Nat.lt_succ_iff_lt_or_eq.mp hi with hi | rfl
      · exact Or.inl ⟨i, hi, h⟩
      · exact Or.inr h

theorem lt_of_mem_firings (h : m ∈ t.firings n k) : k < m := by
  obtain ⟨i, -, rfl, -⟩ := mem_firings_iff.mp h
  omega

theorem le_of_mem_firings (h : m ∈ t.firings n k) : m ≤ k + n := by
  obtain ⟨i, hi, rfl, -⟩ := mem_firings_iff.mp h
  omega

/-- A timer fires at most once at a conflict. -/
theorem pairwise_firings (n k : Nat) (t : Timer) : (t.firings n k).Pairwise (· < ·) := by
  induction n generalizing k t with
  | zero => exact List.Pairwise.nil
  | succ n ih =>
    have hrest := ih (k + 1) t.tick.2
    rw [firings_succ]
    split
    · exact List.Pairwise.cons (fun m hm => lt_of_mem_firings hm) hrest
    · exact hrest

/-! ## Machine words -/

/-- The sums that are formed at a conflict. -/
def sums : Timer → List Nat
  | .fixed _ counter => [counter + 1]
  | .growing _ bound increment counter =>
    if bound ≤ counter + 1 then [counter + 1, bound + increment] else [counter + 1]

/-- The sums of the next conflict are words of 64 bits. -/
def Fits (t : Timer) : Prop := ∀ s ∈ t.sums, s < Word.bound64

instance (t : Timer) : Decidable t.Fits := inferInstanceAs (Decidable (∀ s ∈ t.sums, _))

/-- Counts a conflict with words of 64 bits; nothing if a sum is no such word. -/
def tick? (t : Timer) : Option (Bool × Timer) := if t.Fits then some t.tick else none

/-- The firings of a timer that counts with words of 64 bits. -/
def firings? : Nat → Nat → Timer → Option (List Nat)
  | 0, _, _ => some []
  | n + 1, k, t => do
    match ← t.tick? with
    | (true, t) => return (k + 1) :: (← firings? n (k + 1) t)
    | (false, t) => firings? n (k + 1) t

theorem firings?_succ (n k : Nat) (t : Timer) : t.firings? (n + 1) k =
    if t.Fits then
      (t.tick.2.firings? n (k + 1)).map ((if t.tick.1 then [k + 1] else []) ++ ·)
    else none := by
  rw [firings?, tick?]
  split
  · rcases t.tick with ⟨fires, t⟩
    cases fires with
    | true => exact Option.map_eq_bind.symm
    | false => exact Option.map_id'.symm
  · rfl

/-- Words are enough if they are at every conflict. -/
theorem firings?_eq_some_iff :
    t.firings? n k = some (t.firings n k) ↔ ∀ i, i < n → (t.after i).Fits := by
  induction n generalizing k t with
  | zero => exact ⟨fun _ _ => nofun, fun _ => rfl⟩
  | succ n ih =>
    have hrest : (∀ i, i < n + 1 → (t.after i).Fits) ↔
        t.Fits ∧ ∀ i, i < n → (t.tick.2.after i).Fits := by
      constructor
      · intro h
        exact ⟨h 0 (Nat.succ_pos n), fun i hi => h (i + 1) (Nat.succ_lt_succ hi)⟩
      · rintro ⟨hfirst, h⟩ i hi
        cases i with
        | zero => exact hfirst
        | succ i => exact h i (Nat.lt_of_succ_lt_succ hi)
    rw [hrest, ← ih (k := k + 1), firings?_succ, firings_succ]
    by_cases hfits : t.Fits
    · rw [if_pos hfits, Option.map_eq_some_iff]
      simp only [List.append_right_inj, exists_eq_right, hfits, true_and]
    · rw [if_neg hfits]
      simp only [hfits, false_and, reduceCtorEq]

/-! ## Schedules -/

/-- The timer is in state `w k c` when it fired `k` times and counted `c` conflicts since, and it
fires for the `k`-th time at conflict `s k`. -/
structure Follows (s : Nat → Nat) (w : Nat → Nat → Timer) : Prop where
  start : s 0 = 0
  mono : StrictMono s
  fires : ∀ k c, s k + c + 1 = s (k + 1) → (w k c).tick = (true, w (k + 1) 0)
  counts : ∀ k c, s k + c + 1 < s (k + 1) → (w k c).tick = (false, w k (c + 1))

namespace Follows

variable {s : Nat → Nat} {w : Nat → Nat → Timer}

/-- The state after `n` conflicts is the one that `n` has in the schedule. -/
theorem exists_after (h : Follows s w) (n : Nat) :
    ∃ k c, (w 0 0).after n = w k c ∧ n = s k + c ∧ s k + c < s (k + 1) := by
  induction n with
  | zero =>
    refine ⟨0, 0, rfl, ?_, ?_⟩
    · rw [h.start]
    · exact h.mono (Nat.lt_succ_self 0)
  | succ n ih =>
    obtain ⟨k, c, hafter, rfl, hlt⟩ := ih
    rw [after_succ, hafter]
    rcases Nat.lt_or_eq_of_le (Nat.succ_le_of_lt hlt) with hnext | hnext
    · exact ⟨k, c + 1, by rw [h.counts k c hnext], rfl, hnext⟩
    · refine ⟨k + 1, 0, by rw [h.fires k c hnext], hnext, h.mono (Nat.lt_succ_self _)⟩

theorem after_eq (h : Follows s w) {k c : Nat} (hlt : s k + c < s (k + 1)) :
    (w 0 0).after (s k + c) = w k c := by
  obtain ⟨j, d, hafter, heq, hlt'⟩ := h.exists_after (s k + c)
  have hkj : k < j + 1 := h.mono.lt_iff_lt.mp (by omega)
  have hjk : j < k + 1 := h.mono.lt_iff_lt.mp (by omega)
  obtain rfl : j = k := by omega
  obtain rfl : d = c := by omega
  exact hafter

/-- What holds of the first states is known from the schedule. -/
theorem forall_after_iff (h : Follows s w) {P : Timer → Prop} :
    (∀ i, i < n → P ((w 0 0).after i)) ↔
      ∀ k c, s k + c < s (k + 1) → s k + c < n → P (w k c) := by
  constructor
  · intro hP k c hlt hn
    rw [← h.after_eq hlt]
    exact hP _ hn
  · intro hP i hi
    obtain ⟨k, c, hafter, rfl, hlt⟩ := h.exists_after i
    rw [hafter]
    exact hP k c hlt hi

theorem tick_after_iff (h : Follows s w) (n : Nat) :
    ((w 0 0).after n).tick.1 = true ↔ ∃ k, 1 ≤ k ∧ n + 1 = s k := by
  obtain ⟨k, c, hafter, rfl, hlt⟩ := h.exists_after n
  rw [hafter]
  rcases Nat.lt_or_eq_of_le (Nat.succ_le_of_lt hlt) with hnext | hnext
  · rw [h.counts k c hnext]
    refine ⟨nofun, fun ⟨j, hj, heq⟩ => ?_⟩
    -- there is no firing between the `k`-th and the next one
    have hlo : k < j := h.mono.lt_iff_lt.mp (by omega)
    have hhi : j < k + 1 := h.mono.lt_iff_lt.mp (by omega)
    omega
  · rw [h.fires k c hnext]
    exact ⟨fun _ => ⟨k + 1, Nat.succ_pos k, hnext⟩, fun _ => rfl⟩

/-- The timer fires at the conflicts of the schedule. -/
theorem mem_firings_iff (h : Follows s w) :
    m ∈ (w 0 0).firings n 0 ↔ m ≤ n ∧ ∃ k, 1 ≤ k ∧ m = s k := by
  rw [Timer.mem_firings_iff]
  constructor
  · rintro ⟨i, hi, rfl, hfires⟩
    rw [Nat.zero_add]
    exact ⟨hi, (h.tick_after_iff i).mp hfires⟩
  · rintro ⟨hle, k, hk, rfl⟩
    have hpos : 0 < s k := by
      rw [← h.start]
      exact h.mono hk
    refine ⟨s k - 1, by omega, by omega, (h.tick_after_iff _).mpr ⟨k, hk, by omega⟩⟩

end Follows

/-! ### A bound that stays -/

theorem follows_fixed {bound : Nat} (hpos : 0 < bound) :
    Follows (· * bound) fun _ c => .fixed bound c where
  start := Nat.zero_mul bound
  mono := fun _ _ hlt => Nat.mul_lt_mul_of_pos_right hlt hpos
  fires := fun k c hnext => by
    rw [Nat.succ_mul] at hnext
    exact if_pos (by omega)
  counts := fun k c hnext => by
    rw [Nat.succ_mul] at hnext
    exact if_neg (by omega)

theorem mem_firings_every (bound n m : Nat) :
    m ∈ (every bound).firings n 0 ↔ 1 ≤ m ∧ m ≤ n ∧ max bound 1 ∣ m := by
  have hpos : 0 < max bound 1 := Nat.le_max_right ..
  rw [every, (follows_fixed hpos).mem_firings_iff]
  constructor
  · rintro ⟨hle, k, hk, rfl⟩
    exact ⟨Nat.mul_pos hk hpos, hle, Nat.dvd_mul_left _ k⟩
  · rintro ⟨hm, hle, k, rfl⟩
    exact ⟨hle, k, Nat.pos_of_mul_pos_left hm, Nat.mul_comm ..⟩

theorem firings?_every {bound : Nat} (hword : bound < Word.bound64) (n : Nat) :
    (every bound).firings? n 0 = some ((every bound).firings n 0) := by
  have hpos : 0 < max bound 1 := Nat.le_max_right ..
  have hmax : max bound 1 < Word.bound64 := Nat.max_lt.mpr ⟨hword, by decide⟩
  refine firings?_eq_some_iff.mpr ((follows_fixed hpos).forall_after_iff.mpr ?_)
  intro k c hlt _ s hs
  rw [Nat.succ_mul] at hlt
  rw [List.mem_singleton.mp hs]
  omega

/-! ### A bound that grows -/

/-- The conflict at which a timer fires for the `k`-th time whose bound grows from `first` on. -/
def due (first increment k : Nat) : Nat := k * first + increment * k * (k - 1) / 2

variable {first increment : Nat}

theorem due_succ (first increment k : Nat) :
    due first increment (k + 1) = due first increment k + (first + increment * k) := by
  have htwice : increment * (k + 1) * (k + 1 - 1) =
      increment * k * (k - 1) + increment * k * 2 := by
    cases k with
    | zero => rfl
    | succ k =>
      simp only [Nat.add_sub_cancel]
      ring
  rw [due, due, htwice, Nat.add_mul_div_right _ _ Nat.two_pos]
  ring

/-- A timer whose bound grew `k` times, with `c` conflicts counted. -/
def grown (first increment k c : Nat) : Timer :=
  .growing first (first + increment * k) increment c

theorem follows_grown (hpos : 0 < first) :
    Follows (due first increment) (grown first increment) where
  start := by simp [due]
  mono := strictMono_nat_of_lt_succ fun k => by
    rw [due_succ]
    omega
  fires := fun k c hnext => by
    rw [due_succ] at hnext
    have hbound : first + increment * k ≤ c + 1 := by omega
    rw [grown, tick, if_pos hbound, grown, Nat.mul_succ, Nat.add_assoc]
  counts := fun k c hnext => by
    rw [due_succ] at hnext
    have hbound : ¬first + increment * k ≤ c + 1 := by omega
    rw [grown, tick, if_neg hbound, grown]

theorem fits_grown_iff {k c : Nat} (hlt : c < first + increment * k) :
    (grown first increment k c).Fits ↔ c + 1 < Word.bound64 ∧
      (c + 1 = first + increment * k → first + increment * (k + 1) < Word.bound64) := by
  rw [Fits, grown, sums, Nat.mul_succ, ← Nat.add_assoc]
  split
  · have hfires : c + 1 = first + increment * k := by omega
    simp [hfires]
  · have hcounts : c + 1 ≠ first + increment * k := by omega
    simp [hcounts]

theorem mem_firings_increasing (first increment n m : Nat) :
    m ∈ (increasing first increment).firings n 0 ↔
      m ≤ n ∧ ∃ k, 1 ≤ k ∧ m = due (max first 1) increment k :=
  (follows_grown (Nat.le_max_right first 1)).mem_firings_iff

/-- A bound is a word unless it grew beyond that. -/
theorem firings?_increasing_iff (hword : first < Word.bound64) (increment n : Nat) :
    (increasing first increment).firings? n 0 = some ((increasing first increment).firings n 0) ↔
      ∀ k, 1 ≤ k → due (max first 1) increment k ≤ n →
        max first 1 + increment * k < Word.bound64 := by
  have hpos : 0 < max first 1 := Nat.le_max_right ..
  have hmax : max first 1 < Word.bound64 := Nat.max_lt.mpr ⟨hword, by decide⟩
  have hfollows : Follows (due (max first 1) increment) (grown (max first 1) increment) :=
    follows_grown hpos
  rw [firings?_eq_some_iff]
  refine hfollows.forall_after_iff.trans ?_
  constructor
  · intro hfits k hk hdue
    -- a firing sets the next bound, and it is the conflict that completes the bound before
    obtain ⟨j, rfl⟩ := Nat.exists_eq_add_of_le' hk
    have hsucc := due_succ (max first 1) increment j
    have hbefore : max first 1 + increment * j - 1 + 1 = max first 1 + increment * j := by omega
    have hnext := hfits j (max first 1 + increment * j - 1) (by omega) (by omega)
    exact ((fits_grown_iff (by omega)).mp hnext).2 hbefore
  · intro hbounds k c hlt hn
    rw [due_succ] at hlt
    have hbound : max first 1 + increment * k < Word.bound64 := by
      cases k with
      | zero => exact hmax
      | succ k => exact hbounds _ (Nat.succ_pos k) (by omega)
    refine (fits_grown_iff (by omega)).mpr ⟨by omega, fun hfires => ?_⟩
    refine hbounds _ (Nat.succ_pos k) ?_
    rw [due_succ]
    omega

end Timer

/-! ## Sets of timers -/

/-- What is done to a set of timers. -/
inductive TimerEvent
  | conflict
  /-- The set is asked for the timer with number `i`. -/
  | question (i : Nat)
  deriving DecidableEq, Repr

namespace Timers

open TimerEvent

variable {i : Nat} {ts : Timers}

/-- A set of timers that nothing happened to yet. -/
def ofList (timers : List Timer) : Timers := timers.foldl (fun ts t => (ts.add t).2) empty

theorem entries_ofList (timers : List Timer) :
    (ofList timers).entries = timers.map fun t => (t, false) := by
  have hadd : ∀ ts : Timers, (timers.foldl (fun ts t => (ts.add t).2) ts).entries =
      ts.entries ++ timers.map fun t => (t, false) := by
    induction timers with
    | nil => exact fun ts => (List.append_nil _).symm
    | cons t timers ih =>
      intro ts
      rw [List.foldl_cons, ih, add, List.append_assoc]
      rfl
  exact hadd empty

def tell (ts : Timers) : TimerEvent → Timers
  | .conflict => ts.tick
  | .question i => (ts.takeFired i).2

/-- The timers after some events, the first one first. -/
def after (ts : Timers) (evs : List TimerEvent) : Timers := evs.foldl tell ts

/-- What becomes of the entry with number `i`. -/
def tellEntry (i : Nat) (entry : Timer × Bool) : TimerEvent → Timer × Bool
  | .conflict => (entry.1.tick.2, entry.1.tick.1 || entry.2)
  | .question j => if j = i then (entry.1, false) else entry

theorem getElem?_tell (ts : Timers) (e : TimerEvent) (i : Nat) :
    (ts.tell e).entries[i]? = ts.entries[i]?.map (tellEntry i · e) := by
  cases e with
  | conflict => exact List.getElem?_map ..
  | question j =>
    rw [tell, takeFired, List.getElem?_modify]
    by_cases hj : j = i
    · simp [hj, tellEntry]
    · simp [hj, tellEntry]

/-- No entry depends on the other ones. -/
theorem getElem?_after (ts : Timers) (evs : List TimerEvent) (i : Nat) :
    (ts.after evs).entries[i]? = ts.entries[i]?.map fun entry => evs.foldl (tellEntry i) entry := by
  induction evs generalizing ts with
  | nil => exact Option.map_id'.symm
  | cons e evs ih =>
    have hrest := ih (ts.tell e)
    rw [getElem?_tell, Option.map_map] at hrest
    exact hrest

theorem takeFired_after {entry : Timer × Bool} (h : ts.entries[i]? = some entry)
    (evs : List TimerEvent) :
    ((ts.after evs).takeFired i).1 = (evs.foldl (tellEntry i) entry).2 := by
  rw [takeFired, hasFired, getElem?_after, h]
  rfl

/-- Questions do not stop a timer. -/
theorem fst_foldl_tellEntry (i : Nat) (entry : Timer × Bool) (evs : List TimerEvent) :
    (evs.foldl (tellEntry i) entry).1 = entry.1.after (evs.count .conflict) := by
  induction evs generalizing entry with
  | nil => rfl
  | cons e evs ih =>
    rw [List.foldl_cons, ih]
    cases e with
    | conflict =>
      rw [List.count_cons_self]
      rfl
    | question j =>
      rw [List.count_cons_of_ne (by rintro ⟨⟩), tellEntry]
      split <;> rfl

/-- A firing is noted until the next question. -/
theorem snd_foldl_tellEntry_iff {evs : List TimerEvent} (hnone : .question i ∉ evs) (k : Nat)
    (entry : Timer × Bool) : (evs.foldl (tellEntry i) entry).2 = true ↔
      entry.2 = true ∨ ∃ m, m ∈ entry.1.firings (evs.count .conflict) k := by
  induction evs generalizing entry k with
  | nil => simp [Timer.firings]
  | cons e evs ih =>
    rw [List.mem_cons, not_or] at hnone
    obtain ⟨hfirst, hnone⟩ := hnone
    rw [List.foldl_cons]
    cases e with
    | conflict =>
      rw [ih hnone (k + 1), List.count_cons_self, Timer.firings_succ, tellEntry]
      cases entry.1.tick.1 <;> simp
    | question j =>
      have hj : ¬j = i := fun h => hfirst (h ▸ rfl)
      rw [ih hnone k, List.count_cons_of_ne (by rintro ⟨⟩), tellEntry, if_neg hj]

/-- The last event is a question for the timer, or there is no event. -/
def EndsWithQuestion (i : Nat) (evs : List TimerEvent) : Prop :=
  evs = [] ∨ ∃ before, evs = before ++ [.question i]

theorem snd_foldl_of_endsWithQuestion {evs : List TimerEvent} (h : EndsWithQuestion i evs)
    (t : Timer) : (evs.foldl (tellEntry i) (t, false)).2 = false := by
  rcases h with rfl | ⟨before, rfl⟩
  · rfl
  · rw [List.foldl_append, List.foldl_cons, List.foldl_nil, tellEntry, if_pos rfl]

/-- What is noted are the firings since the last question. -/
theorem takeFired_after_iff {timers : List Timer} {t : Timer} {before later : List TimerEvent}
    (ht : timers[i]? = some t) (hbefore : EndsWithQuestion i before)
    (hlater : .question i ∉ later) :
    (((ofList timers).after (before ++ later)).takeFired i).1 = true ↔
      ∃ m, before.count .conflict < m ∧
        m ∈ t.firings ((before ++ later).count .conflict) 0 := by
  have hentry : (ofList timers).entries[i]? = some (t, false) := by
    rw [entries_ofList, List.getElem?_map, ht]
    rfl
  rw [takeFired_after hentry, List.foldl_append,
    snd_foldl_tellEntry_iff hlater (before.count .conflict), fst_foldl_tellEntry,
    snd_foldl_of_endsWithQuestion hbefore, List.count_append, Timer.firings_add, Nat.zero_add]
  constructor
  · rintro (h | ⟨m, hm⟩)
    · cases h
    · exact ⟨m, Timer.lt_of_mem_firings hm, List.mem_append_right _ hm⟩
  · rintro ⟨m, hlt, hm⟩
    refine Or.inr ⟨m, (List.mem_append.mp hm).resolve_left fun hm => ?_⟩
    have hle := Timer.le_of_mem_firings hm
    omega

/-- What is promised of timers, alone and together in a set. -/
structure Punctual (ofList : List Timer → Timers) : Prop where
  every : ∀ bound n m, m ∈ (Timer.every bound).firings n 0 ↔ 1 ≤ m ∧ m ≤ n ∧ max bound 1 ∣ m
  increasing : ∀ first increment n m, m ∈ (Timer.increasing first increment).firings n 0 ↔
    m ≤ n ∧ ∃ k, 1 ≤ k ∧ m = k * max first 1 + increment * k * (k - 1) / 2
  ordered : ∀ t n, (Timer.firings n 0 t).Pairwise (· < ·)
  /-- A bound that stays is a word of 64 bits, and so is every number that is counted with. -/
  every_fits : ∀ bound n, bound < 2 ^ 64 →
    (Timer.every bound).firings? n 0 = some ((Timer.every bound).firings n 0)
  /-- A bound that grows has to be one up to the bound that the last firing sets. -/
  increasing_fits : ∀ first increment n, first < 2 ^ 64 →
    ((Timer.increasing first increment).firings? n 0 =
        some ((Timer.increasing first increment).firings n 0) ↔
      ∀ k, 1 ≤ k → k * max first 1 + increment * k * (k - 1) / 2 ≤ n →
        max first 1 + increment * k < 2 ^ 64)
  /-- Asked for a timer, a set says whether the timer fired since the last question for it, whatever
  the other timers do and whenever they are asked for. -/
  noted : ∀ timers i t before later, timers[i]? = some t → EndsWithQuestion i before →
    .question i ∉ later →
    ((((ofList timers).after (before ++ later)).takeFired i).1 = true ↔
      ∃ m, before.count .conflict < m ∧
        m ∈ t.firings ((before ++ later).count .conflict) 0)

example : (Timer.increasing 2 1).firings 9 0 = [2, 5, 9] := by decide

end Timers

end ClauseLearning
