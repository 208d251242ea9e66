import ClauseLearning.Proofs.Racing

/-!
# Stop handles

Whoever is let into a race hands in a stop handle and looks at nothing else that is shared while it
searches. The handles of all that were let in are raised at once when the race is finished, by an
interruption or by the first answer. Here they are a part of the state (`Race.Track`).

Since nobody is let in later, no handle is missed, and a contestant that looks at its handle does
what it would do if it looked at the podium.

* `Race.Track.Coherent`: what the handles have to do with the podium, and `Coherent.move`: one step.
* `Race.Field.winner_move`, `Race.Field.closed_move`: what a step cannot undo.
* `Race.Track.fair`: what the contestants can rely on, whatever the order of the steps.
-/

namespace ClauseLearning

namespace Race

variable {f : Formula} {os : List Options} {withImplicant : Bool}

theorem Field.move_act {r : Field} {i : Nat} {o : Options} {c : Contestant} (ho : os[i]? = some o)
    (hc : r.contestants[i]? = some c) :
    r.move f os withImplicant (.act i) = ⟨(c.act f withImplicant i o r.podium).1,
      r.contestants.set i (c.act f withImplicant i o r.podium).2⟩ := by
  simp only [Field.move, ho, hc]

theorem Field.move_act_of_none {r : Field} {i : Nat}
    (h : os[i]? = none ∨ r.contestants[i]? = none) : r.move f os withImplicant (.act i) = r := by
  unfold Field.move
  rcases h with h | h
  · simp only [h]
  · cases ho : os[i]? with
    | none => simp only [ho]
    | some o => simp only [ho, h]

/-- A turn is one of a contestant of the race, or of nobody. -/
theorem Field.act_cases (r : Field) (os : List Options) (i : Nat) :
    (os[i]? = none ∨ r.contestants[i]? = none) ∨
      ∃ o c, os[i]? = some o ∧ r.contestants[i]? = some c := by
  cases os[i]? with
  | none => exact Or.inl (Or.inl rfl)
  | some o =>
    cases r.contestants[i]? with
    | none => exact Or.inl (Or.inr rfl)
    | some c => exact Or.inr ⟨o, c, rfl, rfl⟩

/-! ## Races with handles -/

/-- The contestant has come to the end of its query. -/
def Contestant.Ended : Contestant → Prop
  | .answered _ _ => True
  | .gone => True
  | _ => False

/-- A race with the stop handles of its contestants. -/
structure Track where
  field : Field
  /-- Whether the handle of the contestant with this number is raised. -/
  raised : Nat → Bool

namespace Track

def start (os : List Options) : Track := ⟨.start os, fun _ => false⟩

/-- Raises the handles of all that were let in. -/
def raiseAll (p : Podium Verdict) (raised : Nat → Bool) : Nat → Bool :=
  fun j => raised j || p.registered.contains j

def lower (i : Nat) (raised : Nat → Bool) : Nat → Bool := fun j => raised j && decide (j ≠ i)

/-- One step of the contestant with number `i`, which looks at its own handle while it searches. A
request to stop is used up by the search that it stops. -/
def act (f : Formula) (withImplicant : Bool) (i : Nat) (o : Options) (p : Podium Verdict)
    (raised : Nat → Bool) : Contestant → Podium Verdict × (Nat → Bool) × Contestant
  | .waiting =>
    match p.register i with
    | none => (p, raised, .gone)
    | some p => (p, raised, .registered)
  | .registered => (p, raised, .load f o)
  | .searching stage budget s =>
    let stops := (Termination.poll (⟨raised i, budget⟩ : QueryLimit)).1
    (p, if stops then lower i raised else raised, .search (raised i) stage budget s)
  | .answered answer s =>
    if p.winner.isSome then (p, raised, .gone)
    else (p.claim i (verdict withImplicant answer s).1, raiseAll p raised, .gone)
  | .gone => (p, raised, .gone)

def move (f : Formula) (os : List Options) (withImplicant : Bool) (r : Track) : Move → Track
  | .interrupt =>
    if r.field.podium.isFinished then r
    else ⟨{ r.field with podium := r.field.podium.interrupt }, raiseAll r.field.podium r.raised⟩
  | .act i =>
    match os[i]?, r.field.contestants[i]? with
    | some o, some c =>
      let (p, raised, c) := act f withImplicant i o r.field.podium r.raised c
      ⟨⟨p, r.field.contestants.set i c⟩, raised⟩
    | _, _ => r
  | .time i ticks =>
    ⟨{ r.field with contestants := r.field.contestants.modify i (·.setClock ticks) }, r.raised⟩

theorem move_act {r : Track} {i : Nat} {o : Options} {c : Contestant} (ho : os[i]? = some o)
    (hc : r.field.contestants[i]? = some c) :
    r.move f os withImplicant (.act i) =
      ⟨⟨(act f withImplicant i o r.field.podium r.raised c).1,
        r.field.contestants.set i (act f withImplicant i o r.field.podium r.raised c).2.2⟩,
        (act f withImplicant i o r.field.podium r.raised c).2.1⟩ := by
  simp only [move, ho, hc]

theorem move_act_of_none {r : Track} {i : Nat}
    (h : os[i]? = none ∨ r.field.contestants[i]? = none) :
    r.move f os withImplicant (.act i) = r := by
  unfold move
  rcases h with h | h
  · simp only [h]
  · cases ho : os[i]? with
    | none => simp only [ho]
    | some o => simp only [ho, h]

/-- A race after some moves, in the order of the list. -/
def after (f : Formula) (os : List Options) (withImplicant : Bool) (moves : List Move) : Track :=
  moves.foldl (move f os withImplicant) (start os)

/-- The number of the winner that a race reports when it ends here. -/
def reported (r : Track) : Option Nat := r.field.podium.winner.map (·.1)

/-! ## Handles and the podium -/

/-- Nobody is told to stop who was not let in before the race was finished, and everybody else is
until its query has ended. -/
structure Coherent (os : List Options) (r : Track) : Prop where
  length : r.field.contestants.length = os.length
  finished : r.field.podium.winner.isSome = true → r.field.podium.isFinished = true
  raised : ∀ i, r.raised i = true → r.field.podium.isToldToStop i = true
  told : ∀ i, r.field.podium.isToldToStop i = true → r.raised i = true ∨
    ∃ c, r.field.contestants[i]? = some c ∧ c.Ended
  entered : ∀ i c, r.field.contestants[i]? = some c →
    c = .waiting ∨ c = .gone ∨ i ∈ r.field.podium.registered

theorem Coherent.start (os : List Options) : (Track.start os).Coherent os := by
  refine ⟨List.length_map _, nofun, nofun, nofun, fun i c hc => ?_⟩
  simp only [Track.start, Field.start, List.getElem?_map, Option.map_eq_some_iff] at hc
  obtain ⟨-, -, rfl⟩ := hc
  exact Or.inl rfl

/-- While a contestant searches, its handle says what the podium says. -/
theorem Coherent.raised_eq {r : Track} (h : r.Coherent os) {i : Nat} {stage : Stage}
    {budget : Condition} {s : PlainSession}
    (hc : r.field.contestants[i]? = some (.searching stage budget s)) :
    r.raised i = r.field.podium.isToldToStop i := by
  rw [Bool.eq_iff_iff]
  refine ⟨h.raised i, fun htold => (h.told i htold).resolve_right ?_⟩
  rintro ⟨c, hc', hended⟩
  rw [hc] at hc'
  cases hc'
  exact hended

/-- Finishing a race raises the handles of all that were let in. -/
theorem raiseAll_eq {p : Podium Verdict} {raised : Nat → Bool} (p' : Podium Verdict)
    (hraised : ∀ i, raised i = true → p.isToldToStop i = true) (hfinished : p'.isFinished = true)
    (hregistered : p'.registered = p.registered) (i : Nat) :
    raiseAll p raised i = p'.isToldToStop i := by
  have htold : p'.isToldToStop i = p.registered.contains i := by
    rw [Podium.isToldToStop, hfinished, hregistered, Bool.true_and]
  rw [htold, raiseAll]
  cases hr : raised i with
  | false => exact Bool.false_or _
  | true =>
    have hp := hraised i hr
    rw [Podium.isToldToStop, Bool.and_eq_true] at hp
    rw [hp.2]
    rfl

/-- Who is where after a step of one contestant. -/
theorem of_getElem?_set {cs : List Contestant} {i j : Nat} {c c' : Contestant}
    (h : (cs.set i c')[j]? = some c) : j = i ∧ c = c' ∨ cs[j]? = some c := by
  rw [List.getElem?_set] at h
  split at h
  · rename_i hij
    split at h
    · cases h
      exact Or.inl ⟨hij.symm, rfl⟩
    · cases h
  · exact Or.inr h

theorem ended_set {cs : List Contestant} {i j : Nat} {c c' : Contestant} (hc : cs[i]? = some c)
    (hended : c.Ended → c'.Ended) (h : ∃ d, cs[j]? = some d ∧ d.Ended) :
    ∃ d, (cs.set i c')[j]? = some d ∧ d.Ended := by
  obtain ⟨d, hd, hdended⟩ := h
  by_cases hij : i = j
  · subst hij
    rw [hc] at hd
    cases hd
    exact ⟨c', List.getElem?_set_self (List.getElem?_eq_some_iff.mp hc).1, hended hdended⟩
  · exact ⟨d, by rw [List.getElem?_set_ne hij]; exact hd, hdended⟩

theorem ended_setClock {c : Contestant} (ticks : Nat) (h : c.Ended) : (c.setClock ticks).Ended := by
  cases c with
  | searching stage budget s => exact h.elim
  | _ => exact h

/-! ## Steps -/

namespace Coherent

variable {r : Track} {i : Nat} {c c' : Contestant}

/-- Who is on its way was let in. -/
theorem mem_registered (h : r.Coherent os) (hc : r.field.contestants[i]? = some c)
    (hwaiting : c ≠ .waiting) (hgone : c ≠ .gone) : i ∈ r.field.podium.registered :=
  ((h.entered i c hc).resolve_left hwaiting).resolve_left hgone

/-- A contestant goes on by itself, with the podium and the handles as they are. -/
theorem alone (h : r.Coherent os) (hc : r.field.contestants[i]? = some c)
    (hended : c.Ended → c'.Ended) (hin : c' = .gone ∨ i ∈ r.field.podium.registered) :
    Coherent os ⟨⟨r.field.podium, r.field.contestants.set i c'⟩, r.raised⟩ := by
  refine ⟨List.length_set.trans h.length, h.finished, h.raised,
    fun j hj => (h.told j hj).imp_right (ended_set hc hended), fun j d hd => ?_⟩
  rcases of_getElem?_set hd with ⟨rfl, rfl⟩ | hd
  · exact Or.inr hin
  · exact h.entered j d hd

/-- A contestant is let in while nobody is told to stop. -/
theorem enter (h : r.Coherent os) {p : Podium Verdict}
    (hregister : r.field.podium.register i = some p) :
    Coherent os ⟨⟨p, r.field.contestants.set i .registered⟩, r.raised⟩ := by
  have htold := Podium.isToldToStop_register hregister
  unfold Podium.register at hregister
  split at hregister
  · cases hregister
  · rename_i hopen
    cases hregister
    refine ⟨List.length_set.trans h.length, h.finished, fun j hj => ?_, fun j hj => ?_,
      fun j d hd => ?_⟩
    · have hfinished := h.raised j hj
      rw [Podium.isToldToStop, Bool.and_eq_true] at hfinished
      exact absurd hfinished.1 hopen
    · rw [htold j] at hj
      cases hj
    · rcases of_getElem?_set hd with ⟨rfl, rfl⟩ | hd
      · exact Or.inr (Or.inr (List.mem_append_right _ (List.mem_singleton.mpr rfl)))
      · exact (h.entered j d hd).imp_right (Or.imp_right (List.mem_append_left _))

/-- The race is finished, by an interruption or an answer, and all handles are raised. -/
theorem finish (h : r.Coherent os) {p : Podium Verdict} (hfinished : p.isFinished = true)
    (hregistered : p.registered = r.field.podium.registered) :
    Coherent os ⟨⟨p, r.field.contestants⟩, raiseAll r.field.podium r.raised⟩ := by
  have hraised := raiseAll_eq p h.raised hfinished hregistered
  exact ⟨h.length, fun _ => hfinished, fun j hj => hraised j ▸ hj,
    fun j hj => Or.inl ((hraised j).trans hj), fun j d hd => hregistered ▸ h.entered j d hd⟩

/-- The search that a request stops uses the request up, and has ended. -/
theorem stop (h : r.Coherent os) (hc : r.field.contestants[i]? = some c) :
    Coherent os ⟨⟨r.field.podium, r.field.contestants.set i .gone⟩, lower i r.raised⟩ := by
  have hi := (List.getElem?_eq_some_iff.mp hc).1
  refine ⟨List.length_set.trans h.length, h.finished, fun j hj => ?_, fun j hj => ?_,
    fun j d hd => ?_⟩
  · exact h.raised j (Bool.and_eq_true _ _ ▸ hj).1
  · by_cases hji : j = i
    · exact Or.inr ⟨.gone, by rw [hji]; exact List.getElem?_set_self hi, trivial⟩
    · refine (h.told j hj).imp (fun hr => ?_) (ended_set hc fun _ => trivial)
      simp only [lower, hji, ne_eq, not_false_eq_true, decide_true, Bool.and_true]
      exact hr
  · rcases of_getElem?_set hd with ⟨rfl, rfl⟩ | hd
    · exact Or.inr (Or.inl rfl)
    · exact h.entered j d hd

/-- Clocks have nothing to do with handles. -/
theorem time (h : r.Coherent os) (i ticks : Nat) :
    Coherent os ⟨⟨r.field.podium, r.field.contestants.modify i (·.setClock ticks)⟩, r.raised⟩ := by
  refine ⟨(List.length_modify ..).trans h.length, h.finished, h.raised,
    fun j hj => (h.told j hj).imp_right ?_, fun j d hd => ?_⟩
  · rintro ⟨c, hc, hended⟩
    simp only [List.getElem?_modify, hc]
    split
    · exact ⟨_, rfl, ended_setClock ticks hended⟩
    · exact ⟨c, rfl, hended⟩
  · rw [List.getElem?_modify] at hd
    obtain ⟨c, hc, heq⟩ := Option.map_eq_some_iff.mp hd
    have hold := h.entered j c hc
    split at heq
    · subst heq
      rcases hold with rfl | rfl | hin
      · exact Or.inl rfl
      · exact Or.inr (Or.inl rfl)
      · exact Or.inr (Or.inr hin)
    · subst heq
      exact hold

end Coherent

theorem search_of_stops {flag : Bool} {stage : Stage} {budget : Condition} {s : PlainSession}
    (h : (Termination.poll (⟨flag, budget⟩ : QueryLimit)).1 = true) :
    Contestant.search flag stage budget s = .gone := by
  unfold Contestant.search
  rcases hpoll : Termination.poll (⟨flag, budget⟩ : QueryLimit) with ⟨stop, limit⟩
  rw [hpoll] at h
  cases h
  rfl

/-- A contestant that steps on the podium or waits in front of it, or is gone, or runs on its
own. -/
theorem Coherent.act (f : Formula) (withImplicant : Bool) {r : Track} (h : r.Coherent os) {i : Nat}
    (o : Options) {c : Contestant} (hc : r.field.contestants[i]? = some c) :
    Coherent os ⟨⟨(Track.act f withImplicant i o r.field.podium r.raised c).1,
        r.field.contestants.set i (Track.act f withImplicant i o r.field.podium r.raised c).2.2⟩,
      (Track.act f withImplicant i o r.field.podium r.raised c).2.1⟩ ∧
    (Track.act f withImplicant i o r.field.podium r.raised c).1 =
      (c.act f withImplicant i o r.field.podium).1 ∧
    (Track.act f withImplicant i o r.field.podium r.raised c).2.2 =
      (c.act f withImplicant i o r.field.podium).2 := by
  obtain ⟨⟨p, cs⟩, raised⟩ := r
  cases c with
  | waiting =>
    unfold Track.act Contestant.act
    dsimp only
    cases hregister : p.register i with
    | none => exact ⟨h.alone hc (fun _ => trivial) (Or.inl rfl), rfl, rfl⟩
    | some p' => exact ⟨h.enter hregister, rfl, rfl⟩
  | registered =>
    have hin := h.mem_registered hc (by rintro ⟨⟩) (by rintro ⟨⟩)
    exact ⟨h.alone hc False.elim (Or.inr hin), rfl, rfl⟩
  | searching stage budget s =>
    have hin := h.mem_registered hc (by rintro ⟨⟩) (by rintro ⟨⟩)
    have hsame : raised i = p.isToldToStop i := h.raised_eq hc
    unfold Track.act Contestant.act
    dsimp only
    refine ⟨?_, rfl, by rw [hsame]⟩
    split
    · rename_i hstops
      rw [search_of_stops hstops]
      exact h.stop hc
    · exact h.alone hc False.elim (Or.inr hin)
  | answered answer s =>
    unfold Track.act Contestant.act
    dsimp only
    by_cases hwinner : p.winner.isSome = true
    · have hclaim : p.claim i (verdict withImplicant answer s).1 = p := by
        rw [Podium.claim, if_pos hwinner]
      rw [if_pos hwinner, hclaim]
      exact ⟨h.alone hc (fun _ => trivial) (Or.inl rfl), rfl, rfl⟩
    · have hclaim : p.claim i (verdict withImplicant answer s).1 =
          ⟨true, some (i, (verdict withImplicant answer s).1), p.registered⟩ := by
        rw [Podium.claim, if_neg hwinner]
      rw [if_neg hwinner, hclaim]
      have hfinished : Coherent os ⟨⟨⟨true, some (i, (verdict withImplicant answer s).1),
        p.registered⟩, cs⟩, raiseAll p raised⟩ := h.finish rfl rfl
      exact ⟨hfinished.alone hc (fun _ => trivial) (Or.inl rfl), rfl, rfl⟩
  | gone => exact ⟨h.alone hc (fun _ => trivial) (Or.inl rfl), rfl, rfl⟩

/-- A step keeps the handles coherent, and is one of the race in which all look at the podium. -/
theorem Coherent.move (f : Formula) (withImplicant : Bool) {r : Track} (h : r.Coherent os)
    (m : Move) :
    (r.move f os withImplicant m).Coherent os ∧
      (r.move f os withImplicant m).field = r.field.move f os withImplicant m := by
  cases m with
  | interrupt =>
    obtain ⟨⟨p, cs⟩, raised⟩ := r
    unfold Track.move Field.move
    dsimp only
    split
    · rename_i hfinished
      refine ⟨h, ?_⟩
      have hsame : p.interrupt = p := by
        obtain ⟨isFinished, winner, registered⟩ := p
        cases hfinished
        rfl
      rw [hsame]
    · exact ⟨h.finish rfl rfl, rfl⟩
  | act i =>
    rcases r.field.act_cases os i with hnone | ⟨o, c, ho, hc⟩
    · rw [move_act_of_none hnone, Field.move_act_of_none hnone]
      exact ⟨h, rfl⟩
    · obtain ⟨hcoherent, hpodium, hcontestant⟩ := h.act f withImplicant o hc
      rw [move_act ho hc, Field.move_act ho hc, ← hpodium, ← hcontestant]
      exact ⟨hcoherent, rfl⟩
  | time i ticks => exact ⟨h.time i ticks, rfl⟩

theorem after_append (moves later : List Move) :
    after f os withImplicant (moves ++ later) =
      later.foldl (move f os withImplicant) (after f os withImplicant moves) := List.foldl_append

theorem coherent_foldl {r : Track} (h : r.Coherent os) (later : List Move) :
    (later.foldl (move f os withImplicant) r).Coherent os ∧
      (later.foldl (move f os withImplicant) r).field =
        later.foldl (Field.move f os withImplicant) r.field := by
  induction later generalizing r with
  | nil => exact ⟨h, rfl⟩
  | cons m ms ih =>
    obtain ⟨hcoherent, hfield⟩ := h.move f withImplicant m
    rw [List.foldl_cons, List.foldl_cons, ← hfield]
    exact ih hcoherent

end Track

/-! ## What a step cannot undo -/

namespace Field

variable {r : Field} {m : Move}

/-- A winner stays. -/
theorem winner_move {w : Nat × Verdict} (h : r.podium.winner = some w) :
    (r.move f os withImplicant m).podium.winner = some w := by
  have hsome : r.podium.winner.isSome = true := by rw [h]; rfl
  cases m with
  | interrupt => exact h
  | time i ticks => exact h
  | act i =>
    rcases act_cases r os i with hnone | ⟨o, c, ho, hc⟩
    · rw [move_act_of_none hnone]
      exact h
    · rw [move_act ho hc]
      cases c with
      | waiting =>
        unfold Contestant.act
        dsimp only
        cases hregister : r.podium.register i with
        | none => exact h
        | some p => exact (Podium.winner_register hregister).trans h
      | answered answer s => exact (Podium.winner_claim_of_isSome hsome).trans h
      | registered => exact h
      | searching stage budget s => exact h
      | gone => exact h

/-- The first winner is a contestant with an answer that takes its step. -/
theorem winner_move_iff (hnone : r.podium.winner = none) {w : Nat × Verdict} :
    (r.move f os withImplicant m).podium.winner = some w ↔
      ∃ i o answer s, m = .act i ∧ os[i]? = some o ∧
        r.contestants[i]? = some (.answered answer s) ∧
        w = (i, (Race.verdict withImplicant answer s).1) := by
  cases m with
  | interrupt =>
    have hno : (r.move f os withImplicant .interrupt).podium.winner = none := hnone
    simp [hno]
  | time i ticks =>
    have hno : (r.move f os withImplicant (.time i ticks)).podium.winner = none := hnone
    simp [hno]
  | act i =>
    rcases act_cases r os i with hmissing | ⟨o, c, ho, hc⟩
    · rw [move_act_of_none hmissing, hnone]
      refine ⟨nofun, ?_⟩
      rintro ⟨i', o, answer, s, heq, ho, hc, -⟩
      cases heq
      rcases hmissing with hno | hno
      · rw [hno] at ho
        cases ho
      · rw [hno] at hc
        cases hc
    · rw [move_act ho hc]
      -- Only a contestant with an answer claims the podium.
      cases c with
      | waiting =>
        unfold Contestant.act
        cases hregister : r.podium.register i with
        | none => simp [hnone, hc]
        | some p => simp [Podium.winner_register hregister, hnone, hc]
      | answered answer s =>
        simp [Contestant.act, Podium.winner_claim_of_isNone hnone, ho, hc, eq_comm]
      | registered => simp [Contestant.act, hnone, hc]
      | searching stage budget s => simp [Contestant.act, hnone, hc]
      | gone => simp [Contestant.act, hnone, hc]

/-- Once the race is finished, a contestant leaves the podium closed, and leaves if it waits. -/
theorem closed_act (f : Formula) (withImplicant : Bool) {p : Podium Verdict}
    (h : p.isFinished = true) (i : Nat) (o : Options) (c : Contestant) :
    (c.act f withImplicant i o p).1.isFinished = true ∧
      (c.act f withImplicant i o p).1.registered = p.registered ∧
      (c = .waiting ∨ c = .gone → (c.act f withImplicant i o p).2 = .gone) := by
  have hturned : p.register i = none := (Podium.register_eq_none_iff i p).mpr h
  cases c with
  | waiting =>
    simp only [Contestant.act, hturned]
    exact ⟨h, trivial, fun _ => trivial⟩
  | answered answer s =>
    refine ⟨?_, ?_, fun _ => rfl⟩ <;> simp only [Contestant.act, Podium.claim]
    · split
      · exact h
      · rfl
    · split
      · rfl
      · rfl
  | registered => exact ⟨h, rfl, by rintro (⟨⟨⟩⟩ | ⟨⟨⟩⟩)⟩
  | searching stage budget s => exact ⟨h, rfl, by rintro (⟨⟨⟩⟩ | ⟨⟨⟩⟩)⟩
  | gone => exact ⟨h, rfl, fun _ => rfl⟩

/-- Nobody is let in once the race is finished: who waits then waits or leaves. -/
theorem closed_move (f : Formula) (os : List Options) (withImplicant : Bool) (m : Move)
    (h : r.podium.isFinished = true) :
    (r.move f os withImplicant m).podium.isFinished = true ∧
      (r.move f os withImplicant m).podium.registered = r.podium.registered ∧
      ∀ i : Nat, r.contestants[i]? = some Contestant.waiting ∨
          r.contestants[i]? = some Contestant.gone →
        (r.move f os withImplicant m).contestants[i]? = some Contestant.waiting ∨
          (r.move f os withImplicant m).contestants[i]? = some Contestant.gone := by
  cases m with
  | interrupt => exact ⟨rfl, rfl, fun i hi => hi⟩
  | time j ticks =>
    refine ⟨h, rfl, fun i hi => ?_⟩
    simp only [move, List.getElem?_modify]
    rcases hi with hi | hi
    · rw [hi]
      split
      · exact Or.inl rfl
      · exact Or.inl rfl
    · rw [hi]
      split
      · exact Or.inr rfl
      · exact Or.inr rfl
  | act j =>
    rcases act_cases r os j with hnone | ⟨o, c, ho, hc⟩
    · rw [move_act_of_none hnone]
      exact ⟨h, rfl, fun i hi => hi⟩
    · rw [move_act ho hc]
      obtain ⟨hfinished, hregistered, hleaves⟩ := closed_act f withImplicant h j o c
      refine ⟨hfinished, hregistered, fun i hi => ?_⟩
      dsimp only
      by_cases hji : j = i
      · subst hji
        rw [hc] at hi
        rw [List.getElem?_set_self (List.getElem?_eq_some_iff.mp hc).1,
          hleaves (hi.imp Option.some.inj Option.some.inj)]
        exact Or.inr rfl
      · rw [List.getElem?_set_ne hji]
        exact hi

/-- A contestant is moved by its own steps, and by its own clock. -/
theorem getElem?_move {i : Nat} (hact : m ≠ .act i) (htime : ∀ ticks, m ≠ .time i ticks) :
    (r.move f os withImplicant m).contestants[i]? = r.contestants[i]? := by
  cases m with
  | interrupt => rfl
  | act j =>
    rcases act_cases r os j with hnone | ⟨o, c, ho, hc⟩
    · rw [move_act_of_none hnone]
    · rw [move_act ho hc]
      exact List.getElem?_set_ne fun hji => hact (congrArg Move.act hji)
  | time j ticks =>
    have hji : j ≠ i := fun hji => htime ticks (by rw [hji])
    simp only [move, List.getElem?_modify, if_neg hji]
    cases r.contestants[i]? <;> rfl

section

variable {later : List Move}

theorem winner_foldl {w : Nat × Verdict} (h : r.podium.winner = some w) :
    (later.foldl (move f os withImplicant) r).podium.winner = some w := by
  induction later generalizing r with
  | nil => exact h
  | cons m ms ih => exact ih (winner_move h)

/-- There is a winner as soon as somebody with an answer took its step. -/
theorem winner_foldl_iff (hnone : r.podium.winner = none) {w : Nat × Verdict} :
    (later.foldl (move f os withImplicant) r).podium.winner = some w ↔
      ∃ before i rest o answer s, later = before ++ .act i :: rest ∧
        (before.foldl (move f os withImplicant) r).podium.winner = none ∧ os[i]? = some o ∧
        (before.foldl (move f os withImplicant) r).contestants[i]? = some (.answered answer s) ∧
        w = (i, (Race.verdict withImplicant answer s).1) := by
  induction later generalizing r with
  | nil => simp [hnone]
  | cons m ms ih =>
    rw [List.foldl_cons]
    cases hfirst : (r.move f os withImplicant m).podium.winner with
    | some w' =>
      obtain ⟨i, o, answer, s, rfl, ho, hc, rfl⟩ := (winner_move_iff hnone).mp hfirst
      rw [winner_foldl hfirst]
      constructor
      · intro heq
        cases heq
        exact ⟨[], i, ms, o, answer, s, rfl, hnone, ho, hc, rfl⟩
      · rintro ⟨before, j, rest, o', answer', s', hsplit, hbefore, ho', hc', rfl⟩
        cases before with
        | nil =>
          cases hsplit
          rw [List.foldl_nil, hc] at hc'
          cases hc'
          rfl
        | cons m' before =>
          -- By then there was a winner.
          cases hsplit
          rw [List.foldl_cons, winner_foldl hfirst] at hbefore
          cases hbefore
    | none =>
      rw [ih hfirst]
      constructor
      · rintro ⟨before, i, rest, o, answer, s, rfl, hbefore, hfound⟩
        exact ⟨m :: before, i, rest, o, answer, s, rfl, hbefore, hfound⟩
      · rintro ⟨before, i, rest, o, answer, s, hsplit, hbefore, ho, hc, rfl⟩
        cases before with
        | nil =>
          cases hsplit
          have hwins : (r.move f os withImplicant (.act i)).podium.winner =
              some (i, (Race.verdict withImplicant answer s).1) :=
            (winner_move_iff hnone).mpr ⟨i, o, answer, s, rfl, ho, hc, rfl⟩
          rw [hfirst] at hwins
          cases hwins
        | cons m' before =>
          cases hsplit
          exact ⟨before, i, rest, o, answer, s, rfl, hbefore, ho, hc, rfl⟩

theorem closed_foldl (f : Formula) (os : List Options) (withImplicant : Bool) (later : List Move)
    (h : r.podium.isFinished = true) :
    (later.foldl (move f os withImplicant) r).podium.registered = r.podium.registered ∧
      ∀ i : Nat, r.contestants[i]? = some Contestant.waiting ∨
          r.contestants[i]? = some Contestant.gone →
        (later.foldl (move f os withImplicant) r).contestants[i]? = some Contestant.waiting ∨
          (later.foldl (move f os withImplicant) r).contestants[i]? = some Contestant.gone := by
  induction later generalizing r with
  | nil => exact ⟨rfl, fun i hi => hi⟩
  | cons m ms ih =>
    obtain ⟨hfinished, hregistered, hstay⟩ :=
      closed_move f os withImplicant m h
    obtain ⟨hregistered', hstay'⟩ := ih hfinished
    exact ⟨hregistered'.trans hregistered, fun i hi => hstay' i (hstay i hi)⟩

end

end Field

/-! ## Any order -/

namespace Track

/-- What the contestants can rely on after some moves, and whatever moves come later. -/
structure Fair (f : Formula) (os : List Options) (withImplicant : Bool) (moves : List Move)
    (r : Track) : Prop where
  /-- To look at the own handle is to look at the podium. -/
  agrees : r.field = Field.after f os withImplicant moves
  kept : ∀ w, r.field.podium.winner = some w → ∀ later,
    (after f os withImplicant (moves ++ later)).field.podium.winner = some w
  /-- The winner had an answer when it took its step, at a moment when there was no winner. It was
  right about the formula, and its own answer is what it reported. -/
  earned : ∀ i v, r.field.podium.winner = some (i, v) → ∃ before later answer s,
    moves = before ++ .act i :: later ∧
    (after f os withImplicant before).field.podium.winner = none ∧
    (after f os withImplicant before).field.contestants[i]? = some (.answered answer s) ∧
    Backs f s answer ∧ Reports withImplicant s answer v
  /-- Nobody else has a part in what a contestant comes to. -/
  own : ∀ i m, m ≠ .act i → (∀ ticks, m ≠ .time i ticks) →
    (r.move f os withImplicant m).field.contestants[i]? = r.field.contestants[i]?
  finished : r.field.podium.winner.isSome = true → r.field.podium.isFinished = true
  /-- Until the race is finished, whoever comes is let in. -/
  admits : r.field.podium.isFinished = false → ∀ i : Nat,
    r.field.contestants[i]? = some Contestant.waiting →
    (r.move f os withImplicant (.act i)).field.contestants[i]? = some Contestant.registered ∧
      i ∈ (r.move f os withImplicant (.act i)).field.podium.registered
  /-- Whoever is on its way was let in. -/
  entered : ∀ i c, r.field.contestants[i]? = some c →
    c = .waiting ∨ c = .gone ∨ i ∈ r.field.podium.registered
  told : r.field.podium.isFinished = true → ∀ i ∈ r.field.podium.registered,
    r.raised i = true ∨ ∃ c, r.field.contestants[i]? = some c ∧ c.Ended
  /-- Whoever comes later is not let in and never searches. -/
  closed : r.field.podium.isFinished = true → ∀ later,
    (after f os withImplicant (moves ++ later)).field.podium.registered =
      r.field.podium.registered ∧
    ∀ i : Nat, r.field.contestants[i]? = some Contestant.waiting →
      (after f os withImplicant (moves ++ later)).field.contestants[i]? = some Contestant.waiting ∨
        (after f os withImplicant (moves ++ later)).field.contestants[i]? = some Contestant.gone
  unanswered : r.reported = none ↔ ∀ before i later answer s, moves = before ++ .act i :: later →
    (after f os withImplicant before).field.contestants[i]? ≠ some (.answered answer s)

section

variable (f os withImplicant) (moves : List Move)

theorem coherent_after : (after f os withImplicant moves).Coherent os ∧
    (after f os withImplicant moves).field = Field.after f os withImplicant moves :=
  coherent_foldl (.start os) moves

theorem field_after_append (later : List Move) :
    (after f os withImplicant (moves ++ later)).field =
      later.foldl (Field.move f os withImplicant) (after f os withImplicant moves).field := by
  rw [after_append]
  exact (coherent_foldl (coherent_after f os withImplicant moves).1 later).2

/-- The winner is the first that takes its step with an answer. -/
theorem winner_after_iff (w : Nat × Verdict) :
    (after f os withImplicant moves).field.podium.winner = some w ↔
      ∃ before i later o answer s, moves = before ++ .act i :: later ∧
        (after f os withImplicant before).field.podium.winner = none ∧ os[i]? = some o ∧
        (after f os withImplicant before).field.contestants[i]? = some (.answered answer s) ∧
        w = (i, (verdict withImplicant answer s).1) := by
  simp only [(coherent_after f os withImplicant _).2]
  exact Field.winner_foldl_iff rfl

/-- Once somebody took its step with an answer, there is a winner. -/
theorem reported_of_answered {before later : List Move} {i : Nat} {answer : Answer}
    {s : PlainSession} (hc : (after f os withImplicant before).field.contestants[i]? =
      some (.answered answer s)) :
    (after f os withImplicant (before ++ .act i :: later)).reported ≠ none := by
  have hlt : i < os.length := by
    rw [← (coherent_after f os withImplicant before).1.length]
    exact (List.getElem?_eq_some_iff.mp hc).1
  have hwinner : ∃ w, (after f os withImplicant (before ++ .act i :: later)).field.podium.winner =
      some w := by
    cases hbefore : (after f os withImplicant before).field.podium.winner with
    | none =>
      exact ⟨_, (winner_after_iff f os withImplicant _ _).mpr
        ⟨before, i, later, os[i], answer, s, rfl, hbefore, List.getElem?_eq_getElem hlt, hc, rfl⟩⟩
    | some w =>
      rw [field_after_append]
      exact ⟨w, Field.winner_foldl hbefore⟩
  obtain ⟨w, hw⟩ := hwinner
  rw [reported, hw]
  exact Option.some_ne_none _

/-- As long as the race is open, a contestant that waits is let in by its step. -/
theorem move_act_waiting {r : Track} {i : Nat} (h : r.Coherent os)
    (hopen : r.field.podium.isFinished = false)
    (hc : r.field.contestants[i]? = some Contestant.waiting) :
    (r.move f os withImplicant (.act i)).field.contestants[i]? = some Contestant.registered ∧
      i ∈ (r.move f os withImplicant (.act i)).field.podium.registered := by
  have hlt := (List.getElem?_eq_some_iff.mp hc).1
  obtain ⟨o, ho⟩ : ∃ o, os[i]? = some o := ⟨_, List.getElem?_eq_getElem (h.length ▸ hlt)⟩
  rw [move_act ho hc]
  simp [act, Podium.register, hopen, List.getElem?_set_self hlt]

/-- Whoever has an answer is right. -/
theorem backs_of_answered {i : Nat} {answer : Answer} {s : PlainSession}
    (hc : (after f os withImplicant moves).field.contestants[i]? = some (.answered answer s)) :
    Backs f s answer := by
  rw [(coherent_after f os withImplicant moves).2] at hc
  exact (Field.Sound.after f os withImplicant moves).contestants _ (List.mem_of_getElem? hc)

/-- In whatever order the contestants take their steps and the race is interrupted, there is one
winner, with its own answer, and everybody else is told to stop or turned away. -/
theorem fair : Fair f os withImplicant moves (after f os withImplicant moves) := by
  obtain ⟨h, hfield⟩ := coherent_after f os withImplicant moves
  refine ⟨hfield, fun w hw later => ?_, fun i v hv => ?_, fun i m hact htime => ?_, h.finished,
    fun hopen i hc => move_act_waiting f os withImplicant h hopen hc, h.entered,
    fun hfinished i hi => h.told i ?_, fun hfinished later => ?_, fun hnone => ?_, fun hnever => ?_⟩
  · rw [field_after_append]
    exact Field.winner_foldl hw
  · obtain ⟨before, j, later, o, answer, s, hsplit, hbefore, -, hc, heq⟩ :=
      (winner_after_iff f os withImplicant moves (i, v)).mp hv
    cases heq
    have hbacks := backs_of_answered f os withImplicant before hc
    exact ⟨before, later, answer, s, hsplit, hbefore, hc, hbacks, hbacks.reports withImplicant⟩
  · rw [(h.move f withImplicant m).2]
    exact Field.getElem?_move hact htime
  · rw [Podium.isToldToStop, hfinished, Bool.true_and, List.contains_iff_mem]
    exact hi
  · obtain ⟨hregistered, hstay⟩ := Field.closed_foldl f os withImplicant later hfinished
    rw [field_after_append]
    exact ⟨hregistered, fun i hi => hstay i (Or.inl hi)⟩
  · rintro before i later answer s rfl hc
    exact reported_of_answered f os withImplicant hc hnone
  · cases hw : (after f os withImplicant moves).field.podium.winner with
    | none => rw [reported, hw]; rfl
    | some w =>
      obtain ⟨before, i, later, -, answer, s, hsplit, -, -, hc, -⟩ :=
        (winner_after_iff f os withImplicant moves w).mp hw
      exact absurd hc (hnever before i later answer s hsplit)

end

/-- A race of three for a unit clause. -/
def raceOfThree (moves : List Move) : Track :=
  after ((Formula.ofNumVariables 1).add (.clause [1])) [.standard, .standard, .standard] true moves

/-- Two of them are let in, and the second of these comes to an answer first. -/
def twoOfThree : List Move := [.act 0, .act 1, .act 0, .act 1, .act 1, .act 1, .act 1]

/-- The handle of the first contestant is raised then, and the third one is turned away, whenever it
comes. -/
theorem fair_of_three :
    (raceOfThree twoOfThree).field.podium.winner = some (1, .satisfiable [1] (some [1])) ∧
      (raceOfThree twoOfThree).raised 0 = true ∧
      (∃ answer s, Backs ((Formula.ofNumVariables 1).add (.clause [1])) s answer ∧
        Reports true s answer (.satisfiable [1] (some [1]))) ∧
      ∀ later, (raceOfThree (twoOfThree ++ later)).field.podium.winner =
          some (1, .satisfiable [1] (some [1])) ∧
        (raceOfThree (twoOfThree ++ later)).field.podium.registered = [0, 1] ∧
        ((raceOfThree (twoOfThree ++ later)).field.contestants[2]? = some Contestant.waiting ∨
          (raceOfThree (twoOfThree ++ later)).field.contestants[2]? = some Contestant.gone) := by
  have hwinner : (raceOfThree twoOfThree).field.podium.winner =
      some (1, .satisfiable [1] (some [1])) := by decide +kernel
  have hregistered : (raceOfThree twoOfThree).field.podium.registered = [0, 1] := by decide +kernel
  have hwaits : (raceOfThree twoOfThree).field.contestants[2]? = some .waiting := by
    have hcheck : (match (raceOfThree twoOfThree).field.contestants[2]? with
        | some .waiting => true
        | some .registered | some (.searching ..) | some (.answered ..) | some .gone => false
        | none => false) = true := by decide +kernel
    generalize (raceOfThree twoOfThree).field.contestants[2]? = c at hcheck ⊢
    split at hcheck
    · rfl
    all_goals cases hcheck
  have hfair : Fair ((Formula.ofNumVariables 1).add (.clause [1]))
      [.standard, .standard, .standard] true twoOfThree (raceOfThree twoOfThree) := fair _ _ _ _
  obtain ⟨-, -, answer, s, -, -, -, hbacks, hreports⟩ := hfair.earned 1 _ hwinner
  have hfinished := hfair.finished (by rw [hwinner]; rfl)
  refine ⟨hwinner, by decide +kernel, ⟨answer, s, hbacks, hreports⟩, fun later => ?_⟩
  obtain ⟨hkept, hstays⟩ := hfair.closed hfinished later
  exact ⟨hfair.kept _ hwinner later, hkept.trans hregistered, hstays 2 hwaits⟩

end Track

end Race

end ClauseLearning
