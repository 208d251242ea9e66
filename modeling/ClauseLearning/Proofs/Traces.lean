import ClauseLearning.Proofs.Running

/-!
# The trail and its reasons

In whatever state an engine is, the trail, the cells of the variables and the reasons agree with
each other (`SearchState.Traced`): a literal is true when it is on the trail, its cell says where
and on which level, and its reason is a constraint that is there, whose other literals became false
before it and imply it.

Between its operations an engine is in one of the states of `Engine.Reachable`. While it propagates
it goes through more states, one for every constraint that is notified and one for every literal
that a constraint makes true (`SearchState.Passes`).

* `SearchState.Passes.fits`: what holds in the midst of a propagation.
* `SearchState.passes_of_propagate`: a propagation ends in a state that it passes.
* `Engine.Reachable.trail_traced`: every state of an engine.
-/

namespace ClauseLearning

variable {κ : Type} [CustomConstraint κ]

/-! ## What a trail is to be -/

/-- The trail, the cells of the variables and their reasons agree. -/
structure SearchState.Traced (s : SearchState κ) : Prop where
  nodup : (s.assignment.trues.map Literal.var).Nodup
  satisfied : ∀ l, s.assignment.isSatisfied l = true ↔ l ∈ s.assignment.trues
  falsified : ∀ l, s.assignment.isFalsified l = true ↔ -l ∈ s.assignment.trues
  position : ∀ {i l}, s.assignment.trues[i]? = some l → s.assignment.position? l.var = some i
  /-- The level is the number of levels that were opened up to there. -/
  level : ∀ {i l}, s.assignment.trues[i]? = some l → s.assignment.level? l.var =
    some (s.assignment.levelStarts.toList.countP fun start => decide (start ≤ i))
  /-- Only variables with a value have a reason. -/
  assigned : ∀ {v r}, s.assignment.reason? v = some r → s.assignment.isAssigned v = true
  reasons : ∀ {i l r}, s.assignment.trues[i]? = some l → s.assignment.reason? l.var = some r →
    ∃ c, s.arena.get? r = some c ∧
      (∀ m ∈ c.reason s.assignment (some l), s.assignment.isFalsified m = true ∧
        ∃ j < i, s.assignment.position? m.var = some j) ∧
      ∀ ν, c.kind.Holds ν → (∀ m ∈ c.reason s.assignment (some l), m.holds ν = false) →
        l.holds ν = true

/-- Reasons that justify their literals are all that a trail needs. -/
theorem Arena.Justifies.traced {s : SearchState κ} (h : s.arena.Justifies s.assignment) :
    s.Traced := by
  have hcon := h.consistent
  refine ⟨hcon.nodup_var, hcon.isSatisfied_iff, hcon.isFalsified_iff, hcon.position?_eq,
    hcon.level?_eq, fun hr => ?_, fun {i} _ _ hi hr => ?_⟩
  · obtain ⟨c, hc, -⟩ := Option.bind_eq_some_iff.mp hr
    rw [Assignment.isAssigned, hc]
    rfl
  · obtain ⟨c, hc, hfalse, himplied⟩ := h.reasons hi hr
    refine ⟨c, hc, fun m hm => ?_, himplied⟩
    obtain ⟨j, hlt, hj⟩ := mem_take_iff.mp (hfalse m hm)
    have hpos := hcon.position?_eq hj
    rw [Literal.var_negate] at hpos
    exact ⟨(hcon.isFalsified_iff m).mpr (List.mem_of_getElem? hj), j, hlt, hpos⟩

/-! ## In the midst of a propagation -/

/-- Where a propagation is. -/
inductive Pause
  /-- The literals before the head were notified of. -/
  | between
  /-- The watchers `ws` are still to be notified that `p` became true. -/
  | notifying (p : Literal) (ws : List Watcher)
  /-- A visit is not at its end, or it ended the propagation. -/
  | acting

namespace SearchState

/-- A visit of a cardinality constraint that counted its report and has looked at its first `n`
literals. -/
def forcing (r : Reference) (p : Literal) (c : Cardinality) (m : Metadata) (n : Nat)
    (s : SearchState κ) : SearchState κ :=
  let c := { c with falsified := c.falsified + 1 }
  let board := (s.board.watch r p none).registerUndo r p.var
  ⟨{ c with literals := c.literals.take n }.force r board, s.arena.set r ⟨.cardinality c, m⟩,
    s.learned, s.order, s.head⟩

/-- The states that a propagation of `s₀` goes through. -/
inductive Passes (s₀ : SearchState κ) : Pause → SearchState κ → Prop
  | start : Passes s₀ .between s₀
  /-- The watchers of the next literal are taken out of their list. -/
  | take {s : SearchState κ} {p : Literal} (h : Passes s₀ .between s)
      (hp : s.assignment.trail[s.head]? = some p) :
      Passes s₀ (.notifying p (s.board.watches.takeWatchers p).1)
        ⟨⟨s.assignment, (s.board.watches.takeWatchers p).2⟩, s.arena, s.learned, s.order,
        s.head + 1⟩
  | skip {s : SearchState κ} {p : Literal} {w : Watcher} {ws : List Watcher}
      (h : Passes s₀ (.notifying p (w :: ws)) s)
      (hblocker : w.blocker.any s.assignment.isSatisfied = true) :
      Passes s₀ (.notifying p ws) (s.modifyBoard (·.watch w.constraint p w.blocker))
  | visit {s s' : SearchState κ} {p : Literal} {w : Watcher} {ws : List Watcher}
      (h : Passes s₀ (.notifying p (w :: ws)) s)
      (hrun : visit p w.constraint s.trailLength s = .ok (true, s')) :
      Passes s₀ (.notifying p ws) s'
  | done {s : SearchState κ} {p : Literal} (h : Passes s₀ (.notifying p []) s) :
      Passes s₀ .between s
  /-- A visit that makes several literals true does so one after the other. -/
  | force {s : SearchState κ} {p : Literal} {w : Watcher} {ws : List Watcher} {c : Cardinality}
      {m : Metadata} (h : Passes s₀ (.notifying p (w :: ws)) s)
      (hc : s.arena.get? w.constraint = some ⟨.cardinality c, m⟩)
      (hfull : c.falsified + 1 = c.slack) (n : Nat) :
      Passes s₀ .acting (s.forcing w.constraint p c m n)
  | clash {s s' : SearchState κ} {p : Literal} {w : Watcher} {ws : List Watcher}
      (h : Passes s₀ (.notifying p (w :: ws)) s)
      (hrun : visit p w.constraint s.trailLength s = .ok (false, s')) :
      Passes s₀ .acting s'
  /-- After a conflict the other watchers are put back, and everything counts as notified of. -/
  | stop {s s' : SearchState κ} {p : Literal} {w : Watcher} {ws : List Watcher}
      (h : Passes s₀ (.notifying p (w :: ws)) s)
      (hrun : visit p w.constraint s.trailLength s = .ok (false, s')) :
      Passes s₀ .acting ⟨⟨s'.assignment, s'.board.watches.append p ws⟩, s'.arena, s'.learned,
        s'.order, s'.assignment.trail.size⟩

/-! ### What there is to pass -/

theorem passes_of_notify {s₀ s s' : SearchState κ} {p : Literal} {ws : List Watcher}
    {conflict : Option Reference} (h : Passes s₀ (.notifying p ws) s)
    (hrun : notify p ws s = .ok (conflict, s')) :
    (conflict = none → Passes s₀ .between s') ∧
      (conflict ≠ none → Passes s₀ .acting
        ⟨s'.board, s'.arena, s'.learned, s'.order, s'.assignment.trail.size⟩) := by
  induction ws generalizing s with
  | nil =>
    cases hrun
    exact ⟨fun _ => h.done, fun hne => absurd rfl hne⟩
  | cons w ws ih =>
    unfold notify at hrun
    split at hrun
    · rename_i hblocker
      exact ih (h.skip hblocker) hrun
    · obtain ⟨⟨ok, s₁⟩, hvisit, hrun⟩ := ok_of_bind hrun
      cases ok with
      | true => exact ih (h.visit hvisit) hrun
      | false =>
        cases hrun
        exact ⟨fun hnone => absurd hnone (Option.some_ne_none _), fun _ => h.stop hvisit⟩

/-- A propagation ends in a state that it passes. -/
theorem passes_of_propagate {s s' : SearchState κ} {conflict : Option Reference}
    (hrun : s.propagate = .ok (conflict, s')) : ∃ pause, s.Passes pause s' := by
  have hsteps : ∀ n (s₁ : SearchState κ), s.Passes .between s₁ →
      propagateSteps n s₁ = .ok (conflict, s') → ∃ pause, s.Passes pause s' := by
    intro n
    induction n with
    | zero => exact fun _ _ hrun => nomatch hrun
    | succ n ih =>
      intro s₁ h hrun
      obtain ⟨⟨a, w⟩, arena, learned, order, head⟩ := s₁
      unfold propagateSteps at hrun
      split at hrun
      · cases hrun
        exact ⟨_, h⟩
      · rename_i p hp
        obtain ⟨⟨found, s₂⟩, hnotify, hrun⟩ := ok_of_bind hrun
        obtain ⟨hnone, hsome⟩ := passes_of_notify (h.take hp) hnotify
        cases found with
        | none => exact ih s₂ (hnone rfl) hrun
        | some r =>
          cases hrun
          exact ⟨_, hsome nofun⟩
  exact hsteps _ s .start hrun

end SearchState

/-! ### What holds on the way -/

/-- What the rest of a propagation relies on, for one that began in a state in order. -/
def Pause.Fits (s : SearchState κ) : Pause → Prop
  | .between => s.WellFormed
  | .notifying p ws => s.Notifying p ws ∧ s.head ≤ s.assignment.trues.length ∧
      ∃ s₁ : SearchState κ, s₁.WellFormed ∧ s₁.Follows 0 s
  | .acting => s.arena.Justifies s.assignment

theorem Pause.Fits.justifies {s : SearchState κ} {pause : Pause} (h : pause.Fits s) :
    s.arena.Justifies s.assignment := by
  cases pause with
  | between => exact SearchState.WellFormed.justifies h
  | notifying p ws => exact h.1.onBoard.justifies
  | acting => exact h

namespace SearchState

variable {s s' : SearchState κ} {p : Literal} {w : Watcher} {ws : List Watcher}

theorem Notifying.justifies_forcing (h : s.Notifying p (w :: ws))
    (hhead : s.head ≤ s.assignment.trues.length) {c : Cardinality} {m : Metadata}
    (hc : s.arena.get? w.constraint = some ⟨.cardinality c, m⟩) (hfull : c.falsified + 1 = c.slack)
    (n : Nat) : (s.forcing w.constraint p c m n).arena.Justifies
      (s.forcing w.constraint p c m n).assignment := by
  obtain ⟨⟨a, watches⟩, arena, learned, order, head⟩ := s
  have hdue : (Kind.cardinality c : Kind κ).Due w.constraint p ⟨a, watches⟩ := h.due hc
  obtain ⟨a', hfold, hext, hcon, hnew, -⟩ := Cardinality.force_spec w.constraint
    ((watches.add p ⟨w.constraint, none⟩).addUndo p.var w.constraint) (c.literals.take n)
    hdue.consistent hdue.starts_le fun l hl => hdue.wellFormed.2 l (List.mem_of_mem_take hl)
  have hok : true = true ↔ c.falsified + 1 ≤ c.slack :=
    ⟨fun _ => Nat.le_of_eq hfull, fun _ => rfl⟩
  have hvisit : (Kind.cardinality c : Kind κ).Visit w.constraint p ⟨a, watches⟩ true
      (⟨.cardinality { c with falsified := c.falsified + 1 }, m⟩ : Constraint κ).kind
      ⟨a', (watches.add p ⟨w.constraint, none⟩).addUndo p.var w.constraint⟩ :=
    Cardinality.visit_counted hdue hext hcon
      (fun hi hl => ⟨(hnew hi hl).1, List.mem_of_mem_take (hnew hi hl).2, hfull⟩) hok
  have hboard := h.onBoard.visit hc hvisit h.mem hhead (h.numUndos_add_le hc)
  have hforced : (forcing w.constraint p c m n
      (⟨⟨a, watches⟩, arena, learned, order, head⟩ : SearchState κ)).assignment = a' :=
    congrArg Board.assignment hfold
  rw [hforced]
  exact hboard.justifies

/-- Wherever a propagation is, its state fits. -/
theorem Passes.fits {s₀ : SearchState κ} {pause : Pause} (h : s₀.Passes pause s)
    (hw : s₀.WellFormed) : pause.Fits s := by
  induction h with
  | start => exact hw
  | @take s p _ hp ih =>
    obtain ⟨⟨a, watches⟩, arena, learned, order, head⟩ := s
    have ih : (⟨⟨a, watches⟩, arena, learned, order, head⟩ : SearchState κ).WellFormed := ih
    have hp' : a.trues[head]? = some p := by
      rw [← Assignment.getElem?_trail]
      exact hp
    have hf := Follows.refl 0 (⟨⟨a, watches⟩, arena, learned, order, head⟩ : SearchState κ)
    exact ⟨ih.notifying hp', (List.getElem?_eq_some_iff.mp hp').1, _, ih, hf.extension, hf.agree,
      hf.references, hf.order, Nat.le_succ head, hf.reasoned, hf.told, hf.still⟩
  | skip _ hblocker ih =>
    obtain ⟨hn, hhead, s₁, hw₁, hf⟩ := ih
    obtain ⟨l, hl, hsat⟩ := (Option.any_eq_true ..).mp hblocker
    obtain ⟨hn', hf', -⟩ := hn.skip hl ((hn.onBoard.consistent.isSatisfied_iff l).mp hsat)
    exact ⟨hn', hhead, s₁, hw₁, hf.trans hn.onBoard.consistent (Nat.zero_le _) hf'⟩
  | visit _ hrun ih =>
    obtain ⟨hn, hhead, s₁, hw₁, hf⟩ := ih
    obtain ⟨hf', hhead', -, -, hok, -⟩ := visit_spec hn hhead (m := 0) nofun hrun
    refine ⟨(hok rfl).1, ?_, s₁, hw₁, hf.trans hn.onBoard.consistent (Nat.zero_le _) hf'⟩
    rw [hhead']
    exact Nat.le_trans hhead hf'.extension.length_le
  | done _ ih =>
    obtain ⟨hn, hhead, s₁, hw₁, hf⟩ := ih
    obtain ⟨-, -, hlay, hb, -⟩ := notify_spec hn hhead (m := 0) nofun (Nat.zero_le _) rfl
    exact hf.wellFormed hw₁ hb hlay hhead
  | force _ hc hfull n ih =>
    obtain ⟨hn, hhead, -⟩ := ih
    exact hn.justifies_forcing hhead hc hfull n
  | clash _ hrun ih =>
    obtain ⟨hn, hhead, -⟩ := ih
    obtain ⟨-, -, -, hb, -⟩ := visit_spec hn hhead (m := 0) nofun hrun
    exact hb.justifies
  | stop _ hrun ih =>
    obtain ⟨hn, hhead, -⟩ := ih
    obtain ⟨-, -, -, hb, -⟩ := visit_spec hn hhead (m := 0) nofun hrun
    exact hb.justifies

end SearchState

/-! ## Every state -/

/-- In every state of an engine, and in every state that a propagation from there goes through, the
trail, the cells and the reasons agree. -/
theorem Engine.Reachable.trail_traced {moment : Moment κ} {e : Engine κ} (h : Reachable moment e) :
    e.search.Traced ∧ ∀ pause s, e.search.Passes pause s → s.Traced := by
  have hw := h.orderly.wellFormed.search
  exact ⟨hw.justifies.traced, fun pause s hs => (hs.fits hw).justifies.traced⟩

/-- A literal that follows from an assumption has a clause as its reason. -/
theorem Engine.Reachable.trail_traced_of_withPair :
    ∃ e : Engine Empty, Reachable (.searching .deciding) e ∧
      e.search.assignment.trues = [.make 1 false, .make 2 true] ∧
      e.search.assignment.reason? 2 = some ⟨0⟩ ∧
      e.search.Traced ∧ ∀ pause s, e.search.Passes pause s → s.Traced := by
  obtain ⟨e, h, htrues, hreason⟩ := Reachable.of_withPair
  exact ⟨e, h, htrues, hreason, Engine.Reachable.trail_traced h⟩

end ClauseLearning
