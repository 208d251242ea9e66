import ClauseLearning.Proofs.Pairing
import ClauseLearning.Proofs.Underflow
import ClauseLearning.Proofs.Upholding

/-!
# Undo calls pair with registrations

Whatever a session is asked to do, its engine went through a course of moves since it was new:
queries and interruptions, additions that are refused, removals and rebuilds. An internal fault ends
the course with the engine. So if constraints from outside ask to be told only of variables that
have a value, they are told what they asked for when the value is lost, and nothing else; and those
that count their notifications and take back what they are told of are right about the literals that
are still true. Nobody has to take back more than he counted, so that no call ends with this fault.

* `Engine.Chronicled`, `Engine.invariant_chronicled`: an engine went through a course, and goes on
  with it in every operation.
* `Session.Underwent`: the moments of the course.
* `Session.Arises.undos_pair`: what is asked for is answered, at each of them and in the next call.
-/

namespace ClauseLearning

open Chronicle Incident SearchState

variable {κ : Type} [CustomConstraint κ]

namespace Engine

/-- The engine went through a course since it was new. -/
structure Chronicled (e : Engine κ) : Prop where
  sane : e.search.Sane
  course : ∃ o past, Course ⟨.make o, []⟩ ⟨e.search, past⟩

variable {e e' : Engine κ}

theorem chronicled_make (o : Options) : (make o : Engine κ).Chronicled :=
  ⟨sane_make o, o, [], .refl⟩

/-- What an engine does is another part of the course. -/
theorem Chronicled.extend (h : e.Chronicled) (hc : e.search.Courses e'.search) : e'.Chronicled := by
  obtain ⟨o, past, hcourse⟩ := h.course
  obtain ⟨past', hcourse'⟩ := hc.course past
  exact ⟨hc.sane, o, past', hcourse.trans hcourse'⟩

/-- At the end of the course every constraint can take back what it is told of, if constraints ask
to be told only of variables that have a value. -/
theorem Chronicled.failsWith (h : e.Chronicled) {α : Type} {x : Except Fault α}
    (hx : e.search.Exposes x) :
    FailsWith (fun fault => CustomConstraint.Prudent κ → fault ≠ .counterUnderflow) x := by
  refine FailsWith.imp hx fun fault hexposed hprudent hfault => ?_
  obtain ⟨s, l, hc, hl, hundo⟩ := hexposed hfault
  obtain ⟨o, past, hcourse⟩ := h.course
  obtain ⟨past', hcourse'⟩ := hc.course past
  have hwhole : Course ⟨.make o, []⟩ ⟨s, past'⟩ := hcourse.trans hcourse'
  obtain ⟨arena, harena⟩ := (hwhole.answered (hwhole.prudent hprudent)).answers l hl
  cases hundo.symm.trans harena

/-- The references that an addition gives back name every constraint once. -/
theorem invariant_chronicled : Invariant (Chronicled : Engine κ → Prop) List.Nodup
    fun fault => CustomConstraint.Prudent κ → fault ≠ .counterUnderflow where
  make := chronicled_make
  nil := List.nodup_nil
  grow := fun h n => h.extend (proceeds_grow h.sane n).toCourses
  clear := fun h => h.extend (courses_clear h.sane)
  model := fun h => h.extend (courses_model h.sane)
  restrictDecisions := fun h vs => h.extend (courses_restrictDecisions h.sane vs)
  modifyControl := fun h _ => ⟨h.sane, h.course⟩
  backtrack := fun h hrun => h.extend (courses_backtrack h.sane hrun)
  add := fun h hrun => by
    obtain ⟨hcourses, hnodup⟩ := courses_add h.sane hrun
    exact ⟨h.extend hcourses, hnodup⟩
  remove := fun h hrs hrun => h.extend (courses_remove h.sane hrs hrun)
  solve := fun h hrun => h.extend (courses_solve h.sane hrun)
  fails_backtrack := fun h level => h.failsWith (exposes_backtrack h.sane level)
  fails_add := fun h handle ds => h.failsWith (exposes_add h.sane handle ds)
  fails_remove := fun h _ handle => h.failsWith (exposes_remove h.sane _ handle)
  fails_solve := fun h assumptions limit => h.failsWith (exposes_solve h.sane assumptions limit)
  fails_implicant := fun strategy model rs =>
    (spares_primeImplicant strategy model rs).imp fun _ hne _ => hne

end Engine

namespace Session

/-- A moment of what the engine of the session went through, from a new search to what it is now. -/
structure Underwent (s : Session κ) (c : Chronicle κ) : Prop where
  before : ∃ o, Course ⟨.make o, []⟩ c
  after : ∃ past, Course c ⟨s.engine.search, past⟩

/-- Undo calls pair with registrations. Every engine went through some course, and at every moment
of it, if constraints asked only to be told of variables that had a value: each constraint was told
of every literal that lost its value, at the moment it did, once for every time it had asked to be
told of the variable since it was attached and the variable got the value, and of nothing else. Who
counts his notifications and counts down when he is told never counts below where he began, and is
always at the number of his notifications for literals that are still true. If constraints never ask
for anything else, no call ends because one had to count below zero. -/
theorem Arises.undos_pair {s : Session κ} (h : s.Arises) :
    (∃ past, s.Underwent ⟨s.engine.search, past⟩) ∧
      (∀ c, s.Underwent c → Prudent c.past → c.Answered) ∧
      (CustomConstraint.Prudent κ →
        (∀ c : Call, (c.run.run s).1 ≠ .error (.internal .counterUnderflow)) ∧
        ∀ k, ((Session.addCustom k).run s).1 ≠ .error (.internal .counterUnderflow)) := by
  have hupheld := h.upheld Engine.invariant_chronicled
  obtain ⟨o, past, hcourse⟩ := hupheld.engine.course
  refine ⟨⟨past, ⟨o, hcourse⟩, past, .refl⟩, fun c hc hprudent => ?_, fun hprudent =>
    ⟨fun c hfault => ?_, fun k hfault => ?_⟩⟩
  · obtain ⟨o, hbefore⟩ := hc.before
    exact hbefore.answered hprudent
  · exact (c.upholds Engine.invariant_chronicled s hupheld).fault _ hfault hprudent rfl
  · exact (keeps_addConstraint Engine.invariant_chronicled [.custom k] s hupheld).fault _ hfault
      hprudent rfl

/-- A query that is stopped leaves what there was at that moment, less what it takes back. -/
theorem Arises.course_of_stopsAt {assumptions : List Int} {polls : Nat → Bool}
    {budget : Option Condition} {result : Except SearchError Answer} {s s' : Session κ}
    {ls : List Literal} {last : Stage} {e : Engine κ} (h : s.Arises)
    (hrun : (queryInterrupted assumptions polls budget).run s = (.ok result, s'))
    (hls : (literals assumptions).run s =
      (.ok ls, ⟨s.engine.growAll (assumptions.map Int.natAbs), s.book⟩))
    (hstops : Engine.StopsAt ls (⟨polls, 0⟩ : Polls)
      (s.engine.growAll (assumptions.map Int.natAbs)) last e) :
    e.Chronicled ∧ e.search.backtrack 0 = .ok s'.engine.search := by
  have hupheld := h.upheld Engine.invariant_chronicled
  have hgrown : ((literals assumptions).run s).2.engine.Chronicled :=
    (keeps_literals Engine.invariant_chronicled assumptions s hupheld).after.engine
  rw [hls] at hgrown
  obtain ⟨ls', limit', outcome, e', hls', hsolve, hanswer⟩ := ok_of_run_ask hrun
  rw [hls] at hls'
  cases hls'
  obtain ⟨rfl, hback⟩ := hstops.solve hsolve
  cases hanswer
  exact ⟨hgrown.extend (Engine.courses_stopsAt hgrown.sane hstops), hback⟩

/-- At most one of two literals, of which the second one is false. -/
def oneLeft : Session Catalogue :=
  ((Call.add (.clause [-2])).run.run
    ((Session.addCustom (.atMostOne (.ofLiterals [.make 1 true, .make 2 true]))).run
      (Session.make { Options.standard with simplify := false })).2).2

theorem arises_oneLeft : oneLeft.Arises := .call (.addCustom (.make _) _) _

/-- A query is stopped when a constraint of the catalogue has counted the first literal and asked
for its undo, and taking the literal back answers that. -/
theorem Arises.undos_pair_of_stop :
    ∃ (s : Session Catalogue) (c c' : Chronicle Catalogue), s.Arises ∧ s.Underwent c ∧
      s.Underwent c' ∧ c'.Answered ∧ c'.past = .unassigned (.make 1 true) [⟨0⟩] :: c.past ∧
      pending ⟨0⟩ 1 c.past = [some (.make 1 true)] ∧ pending ⟨0⟩ 1 c'.past = [] ∧
      (∃ n, (origin ⟨0⟩ c.past).bind (Kind.counter Catalogue.numTrue?) = some n ∧
        n + (standing ⟨0⟩ c.past).length = 1) ∧
      ∀ c : Call, (c.run.run s).1 ≠ .error (.internal .counterUnderflow) := by
  let s : Session Catalogue := ((queryInterrupted [1] (Nat.ble 3) none).run oneLeft).2
  have hrun : (queryInterrupted [1] (Nat.ble 3) none).run oneLeft =
      (.ok (.error .budgetExceeded), s) := Prod.ext (by decide +kernel) rfl
  have hs : s.Arises := by
    have hcall := Arises.call arises_oneLeft (.interrupted [1] (Nat.ble 3) none)
    rwa [show (Call.interrupted [1] (Nat.ble 3) none).run.run oneLeft = _ from
      run_discard_of_ok hrun] at hcall
  obtain ⟨⟨last, e⟩, hstop, hnewest, htold, hlevel, hmore, hcount⟩ :
      ∃ stop ∈ Engine.stopWithin 4 .propagating (⟨Nat.ble 3, 0⟩ : Polls)
          ((oneLeft.engine.growAll [1]).posed [.make 1 true]),
        stop.2.search.assignment.newest? = some (.make 1 true) ∧
        stop.2.search.board.watches.undosOf 1 = [⟨0⟩] ∧
        0 < stop.2.search.assignment.decisionLevel ∧
        stop.2.search.assignment.startOfLevel 1 < stop.2.search.assignment.trail.size ∧
        ((stop.2.search.arena.get? ⟨0⟩).bind fun c => c.kind.counter Catalogue.numTrue?) =
          some 1 := by decide +kernel
  have hinf : (oneLeft.engine.growAll [1]).control.infeasible = false := by decide +kernel
  have hroot : (oneLeft.engine.growAll [1]).search.decisionLevel ≤ 0 := by decide +kernel
  obtain ⟨⟨hsane, o, past, hcourse⟩, hback⟩ := Arises.course_of_stopsAt arises_oneLeft hrun rfl
    ⟨hinf, _, Engine.backtrack_of_le hroot, .of_stopWithin hstop⟩
  obtain ⟨c', past', hmove, htells, hrest⟩ :=
    course_backtrack hsane hlevel hmore hnewest hback past
  have hcourse' : Course ⟨.make o, []⟩ c' := hcourse.tail hmove
  have hc : s.Underwent ⟨e.search, past⟩ := ⟨⟨o, hcourse⟩, past', .head hmove hrest⟩
  have hc' : s.Underwent c' := ⟨⟨o, hcourse'⟩, past', hrest⟩
  obtain ⟨-, hanswered, hnever⟩ := Arises.undos_pair hs
  have hbefore := hanswered _ hc (hcourse.prudent Catalogue.prudent)
  have hafter := hanswered _ hc' (hcourse'.prudent Catalogue.prudent)
  have htells : c'.past = .unassigned (.make 1 true) [⟨0⟩] :: past := by
    rw [htells]
    exact congrArg (fun told => Incident.unassigned _ told :: past) htold
  have hpaired := hafter.paired
  rw [htells] at hpaired
  obtain ⟨hlength, hliteral⟩ := hpaired.1 ⟨0⟩
  have hpending : pending ⟨0⟩ 1 past = [some (.make 1 true)] :=
    List.eq_replicate_iff.mpr ⟨hlength.symm, hliteral⟩
  obtain ⟨d, hget, hcount⟩ := Option.bind_eq_some_iff.mp hcount
  obtain ⟨k, horigin, hcounter, -⟩ := hbefore.counted _ Catalogue.counts ⟨0⟩ d hget
  obtain ⟨n, hn, hsum⟩ := Option.map_eq_some_iff.mp (hcounter.symm.trans hcount)
  refine ⟨s, ⟨e.search, past⟩, c', hs, hc, hc', hafter, htells, hpending, ?_, ⟨n, ?_, hsum⟩,
    (hnever Catalogue.prudent).1⟩
  · rw [htells]
    rfl
  · rw [show origin ⟨0⟩ past = some k from horigin]
    exact hn

end Session

end ClauseLearning
