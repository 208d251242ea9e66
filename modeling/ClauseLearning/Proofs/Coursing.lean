import ClauseLearning.Proofs.Analysis
import ClauseLearning.Proofs.Chronicle

/-!
# What a search does is a course

Everything that changes the state of a search is made of the moves of a chronicle: propagation
notifies constraints, going back takes back one value after the other, a deletion drops constraints,
and all else is calm. Nothing is asked of the constraints for this but what the arena itself sees
to: that new constraints get slots that are empty.

* `SearchState.Sane`: what the moves rely on.
* `SearchState.Courses`, `SearchState.Proceeds`: a state is the end of a course, in the latter case
  one in which no constraint is dropped.
-/

namespace ClauseLearning

open Chronicle

variable {κ : Type}

namespace SearchState

/-! ## Courses of a state -/

/-- The trail is true, and every slot that is handed out is empty. -/
structure Sane (s : SearchState κ) : Prop where
  truthful : s.assignment.Truthful
  tidy : s.arena.Tidy
  lists : s.learned.Lists s.arena

theorem sane_make (o : Options) : (make o : SearchState κ).Sane := by
  refine ⟨⟨fun l hl => absurd hl List.not_mem_nil, List.nodup_nil⟩,
    ⟨List.nodup_nil, fun r hr => absurd hr List.not_mem_nil,
      fun r hr => absurd hr List.not_mem_nil⟩,
    ⟨List.nodup_nil, fun r hr => absurd hr List.not_mem_nil⟩⟩

variable [CustomConstraint κ]

/-- The state `s'` is the end of a course of `s`, whatever happened before. -/
structure Courses (s s' : SearchState κ) : Prop where
  sane : s'.Sane
  course : ∀ past, ∃ past', Course ⟨s, past⟩ ⟨s', past'⟩

/-- The constraints of a list are there, each once. -/
structure Holding (rs : List Reference) (s : SearchState κ) : Prop where
  nodup : rs.Nodup
  alive : ∀ r ∈ rs, ∃ c, s.arena.get? r = some c

/-- No constraint is dropped in the course. -/
structure Proceeds (s s' : SearchState κ) : Prop extends Courses s s' where
  alive : ∀ r c, s.arena.get? r = some c → ∃ c', s'.arena.get? r = some c'

variable {s s' s'' : SearchState κ}

theorem Courses.refl (h : s.Sane) : s.Courses s := ⟨h, fun past => ⟨past, .refl⟩⟩

theorem Courses.trans (h : s.Courses s') (h' : s'.Courses s'') : s.Courses s'' := by
  refine ⟨h'.sane, fun past => ?_⟩
  obtain ⟨past₁, hcourse₁⟩ := h.course past
  obtain ⟨past₂, hcourse₂⟩ := h'.course past₁
  exact ⟨past₂, hcourse₁.trans hcourse₂⟩

theorem Courses.of_move (hs : s'.Sane) (hm : ∀ past, ∃ past', Move ⟨s, past⟩ ⟨s', past'⟩) :
    s.Courses s' :=
  ⟨hs, fun past => (hm past).imp fun _ h => .single h⟩

namespace Proceeds

theorem refl (h : s.Sane) : s.Proceeds s := ⟨.refl h, fun _ c hc => ⟨c, hc⟩⟩

theorem trans (h : s.Proceeds s') (h' : s'.Proceeds s'') : s.Proceeds s'' := by
  refine ⟨h.toCourses.trans h'.toCourses, fun r c hc => ?_⟩
  obtain ⟨c', hc'⟩ := h.alive r c hc
  exact h'.alive r c' hc'

theorem holding {rs : List Reference} (h : s.Proceeds s') (hrs : s.Holding rs) : s'.Holding rs :=
  ⟨hrs.nodup, fun r hr => (hrs.alive r hr).elim fun c hc => h.alive r c hc⟩

/-- While it is calm, the database may come to list more of the learned clauses. -/
theorem of_calm (h : s.Sane) (hc : s.Calm s') (hlists : s'.learned.Lists s'.arena) :
    s.Proceeds s' := by
  refine ⟨.of_move ⟨hc.keeps.truthful h.truthful, hc.arena.agree.tidy h.tidy, hlists⟩
    fun past => ⟨past, .calm hc⟩, fun r c hget => ?_⟩
  obtain ⟨m, hm, -⟩ := hc.arena.alive hget
  exact ⟨_, hm⟩

theorem calm (h : s.Sane) (hc : s.Calm s') (hrefs : s'.learned.references = s.learned.references) :
    s.Proceeds s' :=
  .of_calm h hc (h.lists.agree hrefs hc.arena.agree)

end Proceeds

/-! ## Calm -/

section

omit [CustomConstraint κ]

theorem calm_of_board (hboard : s'.board = s.board) (harena : s.arena.Retagged s'.arena) :
    s.Calm s' where
  keeps := by
    rw [assignment, assignment, hboard]
    exact .refl _
  undos := fun v => by rw [hboard]
  sized := fun h => by
    rw [assignment, hboard]
    exact h
  arena := harena

theorem calm_enqueue (s : SearchState κ) (l : Literal) : s.Calm (s.enqueue l).2 where
  keeps := s.assignment.keeps_enqueue l none
  undos := fun _ => rfl
  sized := fun h => (s.assignment.size_cells_enqueue l none).symm ▸ h
  arena := .refl _

theorem calm_openLevel (s : SearchState κ) : s.Calm s.openLevel where
  keeps := .of_values rfl fun _ => rfl
  undos := fun _ => rfl
  sized := id
  arena := .refl _

theorem calm_grow (s : SearchState κ) (n : Nat) : s.Calm (s.grow n) where
  keeps := .of_values rfl fun v => by
    rw [show (s.grow n).assignment = s.assignment.grow n from rfl, Assignment.cell?_grow]
  undos := fun v => Watches.undosOf_grow s.board.watches n v
  sized := fun h => by
    show (s.board.watches.grow n).Sized (s.assignment.grow n).cells.size
    rw [Assignment.size_cells_grow]
    exact h.grow n
  arena := .refl _

theorem calm_modifyWatches (s : SearchState κ) (w : Watches)
    (hundos : w.undos = s.board.watches.undos) (hsized : ∀ {n}, s.board.watches.Sized n → w.Sized n)
    (head : Nat) : s.Calm ⟨⟨s.assignment, w⟩, s.arena, s.learned, s.order, head⟩ where
  keeps := .refl _
  undos := fun v => by simp only [Watches.undosOf, hundos]
  sized := fun h => hsized h
  arena := .refl _

theorem calm_forgetReasons (hrun : s.forgetReasons = .ok s') :
    s.Calm s' ∧ s'.learned = s.learned := by
  obtain ⟨⟨a, w⟩, arena, learned, order, head⟩ := s
  simp only [forgetReasons] at hrun
  split at hrun
  · cases hrun
  · cases hrun
    have hfold : ∀ (ls : List Literal) (b : Assignment),
        (ls.foldl (fun a l => a.clearReason l.var) b).trues = b.trues ∧
          (ls.foldl (fun a l => a.clearReason l.var) b).cells.size = b.cells.size ∧
          ∀ v, ((ls.foldl (fun a l => a.clearReason l.var) b).cell? v).map Cell.value =
            (b.cell? v).map Cell.value := by
      intro ls
      induction ls with
      | nil => exact fun b => ⟨rfl, rfl, fun _ => rfl⟩
      | cons l ls ih =>
        intro b
        obtain ⟨htrues, hsize, hvalue⟩ := ih (b.clearReason l.var)
        refine ⟨htrues, hsize.trans (Assignment.size_cells_clearReason b l.var), fun v => ?_⟩
        rw [List.foldl_cons, hvalue, Assignment.cell?_clearReason]
        split
        · rw [Option.map_map]
          rfl
        · rfl
    obtain ⟨htrues, hsize, hvalue⟩ := hfold a.trail.toList a
    rw [Array.foldl_toList] at htrues hsize hvalue
    refine ⟨⟨.of_values htrues hvalue, fun _ => rfl, fun h => ?_, .refl _⟩, rfl⟩
    show w.Sized (a.trail.foldl (fun a l => a.clearReason l.var) a).cells.size
    rw [hsize]
    exact h

end

/-! ## Constraints come in -/

theorem proceeds_of_board (h : s.Sane) (hboard : s'.board = s.board)
    (harena : s.arena.Retagged s'.arena)
    (hrefs : s'.learned.references = s.learned.references) : s.Proceeds s' :=
  .calm h (calm_of_board hboard harena) hrefs

theorem courses_of_board (h : s.Sane) (hboard : s'.board = s.board)
    (harena : s.arena.Retagged s'.arena)
    (hrefs : s'.learned.references = s.learned.references) : s.Courses s' :=
  (proceeds_of_board h hboard harena hrefs).toCourses

theorem proceeds_enqueue (h : s.Sane) (l : Literal) : s.Proceeds (s.enqueue l).2 :=
  .calm h (s.calm_enqueue l) rfl

theorem proceeds_openLevel (h : s.Sane) : s.Proceeds s.openLevel := .calm h s.calm_openLevel rfl

theorem proceeds_grow (h : s.Sane) (n : Nat) : s.Proceeds (s.grow n) := .calm h (s.calm_grow n) rfl

theorem proceeds_attach (h : s.Sane) {c : Constraint κ} (hc : c.kind.falsified = 0) :
    s.Proceeds (s.attach c).2.2 := by
  have ha := attaches h.tidy c
  have hother : ∀ r d, s.arena.get? r = some d → (s.attach c).2.2.arena.get? r = some d := by
    intro r d hd
    rw [ha.get?, if_neg]
    · exact hd
    · rintro rfl
      rw [ha.dead] at hd
      cases hd
  refine ⟨.of_move ⟨ha.registers.keeps.truthful h.truthful, ha.tidy, h.lists.nodup, fun r hr => ?_⟩
    fun past => ⟨_, .attached h.tidy hc⟩, fun r d hd => ⟨d, hother r d hd⟩⟩
  obtain ⟨d, hd, hl⟩ := h.lists.learned r hr
  exact ⟨d, hother r d hd, hl⟩

/-- To learn a clause is to attach it, enter it into the database and force its first literal. -/
theorem learn_eq (s : SearchState κ) (k : Clause) (m : Metadata) (lbd : Nat) :
    s.learn k m lbd =
      ⟨((s.attach ⟨.clause k, m⟩).2.2.board.enqueue (some (s.attach ⟨.clause k, m⟩).1) k.first).2,
        (s.attach ⟨.clause k, m⟩).2.2.arena.set (s.attach ⟨.clause k, m⟩).1
          (s.learned.add (s.attach ⟨.clause k, m⟩).1 lbd (⟨.clause k, m⟩ : Constraint κ)).1,
        (s.learned.add (s.attach ⟨.clause k, m⟩).1 lbd (⟨.clause k, m⟩ : Constraint κ)).2,
        s.order, s.head⟩ := by
  obtain ⟨board, arena, learned, order, head⟩ := s
  simp only [learn, attach, Constraint.attach, Arena.set, Array.setIfInBounds_setIfInBounds]

theorem proceeds_learn (h : s.Sane) (k : Clause) {m : Metadata} (hm : m.learned = true)
    (lbd : Nat) : s.Proceeds (s.learn k m lbd) := by
  have hattached := proceeds_attach h (c := ⟨.clause k, m⟩) rfl
  have ha := attaches h.tidy (⟨.clause k, m⟩ : Constraint κ)
  have hdead := ha.dead
  have hget := ha.get?
  have hself := ha.get? (s.attach ⟨.clause k, m⟩).1
  rw [if_pos rfl] at hself
  rw [learn_eq]
  generalize (s.attach ⟨.clause k, m⟩).2.2 = t at *
  generalize (s.attach ⟨.clause k, m⟩).1 = r at *
  have hsim := similar_add s.learned r lbd (Kind.clause k : Kind κ) m
  have hretagged := Arena.Retagged.set hself hsim
  have hlists := h.lists.push hdead (fun q => by
    rw [Arena.get?_set hself, hget]
    split <;> rfl) (hsim.learned.trans hm)
  refine hattached.trans (.of_calm hattached.sane ?_ hlists)
  exact ⟨t.assignment.keeps_enqueue k.first (some r), fun _ => rfl,
    fun hs => (t.assignment.size_cells_enqueue k.first (some r)).symm ▸ hs, hretagged⟩

/-! ## Notifications -/

/-- Nothing is lost while a constraint is notified of a true literal. -/
theorem proceeds_visit (h : s.Sane) {p : Literal} (hp : s.assignment.isSatisfied p = true)
    {r : Reference} {n : Nat} {ok : Bool} (hrun : visit p r n s = .ok (ok, s')) :
    s.Proceeds s' ∧ s'.assignment.isSatisfied p = true := by
  obtain ⟨c, hc⟩ : ∃ c, s.arena.get? r = some c := by
    obtain ⟨board, arena, learned, order, head⟩ := s
    obtain ⟨c, hc, -⟩ := ok_of_bind hrun
    exact ⟨c, Arena.get_eq_ok.mp hc⟩
  have hn := notifies hc hrun
  obtain ⟨m, hsim, hget⟩ := hn.get?
  have halive : ∀ q d, s.arena.get? q = some d →
      ∃ d', s'.arena.get? q = some d' ∧ d.metadata.Similar d'.metadata := by
    intro q d hd
    rw [hget]
    by_cases hq : q = r
    · subst hq
      rw [hc] at hd
      cases hd
      exact ⟨_, if_pos rfl, hsim⟩
    · exact ⟨d, (if_neg hq).trans hd, .refl _⟩
  refine ⟨⟨.of_move ⟨hn.registers.keeps.truthful h.truthful, hn.tidy h.tidy, ?_, fun q hq => ?_⟩
    fun past => ⟨_, .notified hp hc hrun⟩, fun q d hd => ?_⟩, hn.registers.keeps.satisfied p hp⟩
  · rw [hn.references]
    exact h.lists.nodup
  · rw [hn.references] at hq
    obtain ⟨d, hd, hl⟩ := h.lists.learned q hq
    obtain ⟨d', hd', hsim'⟩ := halive q d hd
    exact ⟨d', hd', hsim'.learned.trans hl⟩
  · obtain ⟨d', hd', -⟩ := halive q d hd
    exact ⟨d', hd'⟩

theorem proceeds_notify (h : s.Sane) {p : Literal} (hp : s.assignment.isSatisfied p = true)
    {ws : List Watcher} {conflict : Option Reference} (hrun : notify p ws s = .ok (conflict, s')) :
    s.Proceeds s' := by
  induction ws generalizing s with
  | nil =>
    cases hrun
    exact .refl h
  | cons w ws ih =>
    unfold notify at hrun
    split at hrun
    · have hkept : s.Proceeds (s.modifyBoard (·.watch w.constraint p w.blocker)) :=
        .calm h (s.calm_modifyWatches (s.board.watches.add p ⟨w.constraint, w.blocker⟩) rfl
          (fun hs => hs.add p _) s.head) rfl
      exact hkept.trans (ih hkept.sane hp hrun)
    · obtain ⟨⟨ok, s₁⟩, hvisit, hrun⟩ := ok_of_bind hrun
      obtain ⟨hvisited, hp₁⟩ := proceeds_visit h hp hvisit
      cases ok with
      | true => exact hvisited.trans (ih hvisited.sane hp₁ hrun)
      | false =>
        cases hrun
        exact hvisited.trans
          (.calm hvisited.sane (s₁.calm_modifyWatches (s₁.board.watches.append p ws) rfl
            (fun hs => hs.append p ws) s₁.head) rfl)

theorem proceeds_propagate (h : s.Sane) {conflict : Option Reference}
    (hrun : s.propagate = .ok (conflict, s')) : s.Proceeds s' := by
  have hsteps : ∀ n (s : SearchState κ), s.Sane → propagateSteps n s = .ok (conflict, s') →
      s.Proceeds s' := by
    intro n
    induction n with
    | zero => exact fun _ _ hrun => nomatch hrun
    | succ n ih =>
      rintro ⟨⟨a, w⟩, arena, learned, order, head⟩ h hrun
      unfold propagateSteps at hrun
      split at hrun
      · cases hrun
        exact .refl h
      · rename_i p hp
        obtain ⟨⟨found, s₁⟩, hnotify, hrun⟩ := ok_of_bind hrun
        have htaken : (⟨⟨a, w⟩, arena, learned, order, head⟩ : SearchState κ).Proceeds
            ⟨⟨a, (w.takeWatchers p).2⟩, arena, learned, order, head + 1⟩ :=
          .calm h (calm_modifyWatches ⟨⟨a, w⟩, arena, learned, order, head⟩ (w.takeWatchers p).2 rfl
            (fun hs => hs.takeWatchers p) (head + 1)) rfl
        have hmem : p ∈ a.trues := by
          rw [Assignment.getElem?_trail] at hp
          exact List.mem_of_getElem? hp
        have hnotified := htaken.trans
          (proceeds_notify htaken.sane (h.truthful.satisfied p hmem) hnotify)
        cases found with
        | none => exact hnotified.trans (ih s₁ hnotified.sane hrun)
        | some r =>
          obtain ⟨board, arena₁, learned₁, order₁, head₁⟩ := s₁
          cases hrun
          exact hnotified.trans (proceeds_of_board hnotified.sane rfl (.refl _) rfl)
  exact hsteps _ s h hrun

/-! ## Values are taken back -/

/-- The newest literal loses its value, and those who asked are told. -/
theorem proceeds_unassign {a : Assignment} {w : Watches} {arena arena' : Arena κ}
    {learned : LearnedDatabase} {order : DecisionOrder Generator} {head : Nat} {l : Literal}
    (h : (⟨⟨a, w⟩, arena, learned, order, head⟩ : SearchState κ).Sane) (hl : a.newest? = some l)
    (hrun : undoAll l (w.undosOf l.var) arena = .ok arena') :
    (⟨⟨a, w⟩, arena, learned, order, head⟩ : SearchState κ).Proceeds
      ⟨⟨a.unassign l, (w.takeUndos l.var).2⟩, arena', learned, order.onUnassign l, head⟩ := by
  obtain ⟨htrue, htruthful⟩ := Assignment.Truthful.unassign h.truthful hl
  have hr := recounts hrun
  refine ⟨.of_move ⟨htruthful, hr.tidy h.tidy, h.lists.nodup, fun q hq => ?_⟩
    fun past => ⟨_, .unassigned hl htrue hrun⟩, fun q d hd => ?_⟩
  · obtain ⟨d, hd, hlearned⟩ := h.lists.learned q hq
    obtain ⟨d', hd', hmeta, -⟩ := hr.alive q d hd
    exact ⟨d', hd', by rw [hmeta, hlearned]⟩
  · obtain ⟨d', hd', -⟩ := hr.alive q d hd
    exact ⟨d', hd'⟩

theorem proceeds_undoNewest (n : Nat) {board board' : Board} {arena arena' : Arena κ}
    {order order' : DecisionOrder Generator} {learned : LearnedDatabase} {head : Nat}
    (h : (⟨board, arena, learned, order, head⟩ : SearchState κ).Sane)
    (hrun : undoNewest n board arena order = .ok (board', arena', order')) :
    (⟨board, arena, learned, order, head⟩ : SearchState κ).Proceeds
      ⟨board', arena', learned, order', head⟩ := by
  induction n generalizing board arena order with
  | zero =>
    cases hrun
    exact .refl h
  | succ n ih =>
    obtain ⟨a, w⟩ := board
    unfold undoNewest at hrun
    split at hrun
    · cases hrun
      exact .refl h
    · rename_i l hl
      obtain ⟨arena₁, hundo, hrun⟩ := ok_of_bind hrun
      have hfirst := proceeds_unassign h hl hundo
      exact hfirst.trans (ih hfirst.sane hrun)

theorem proceeds_backtrack (h : s.Sane) {level : Nat} (hrun : s.backtrack level = .ok s') :
    s.Proceeds s' := by
  obtain ⟨board, arena, learned, order, head⟩ := s
  simp only [SearchState.backtrack] at hrun
  split at hrun
  · cases hrun
    exact .refl h
  · obtain ⟨⟨⟨a, w⟩, arena₁, order₁⟩, hundo, hret⟩ := ok_of_bind hrun
    cases hret
    have hundone := proceeds_undoNewest _ h hundo
    exact hundone.trans (.calm hundone.sane ⟨.of_values rfl fun _ => rfl, fun _ => rfl, id,
      .refl _⟩ rfl)

/-- The newest literal is the first to lose its value. -/
theorem course_backtrack (h : s.Sane) {level : Nat} {l : Literal}
    (hlevel : level < s.assignment.decisionLevel)
    (hmore : s.assignment.startOfLevel (level + 1) < s.assignment.trail.size)
    (hl : s.assignment.newest? = some l) (hrun : s.backtrack level = .ok s')
    (past : List (Incident κ)) :
    ∃ c past', Move ⟨s, past⟩ c ∧ c.past = .unassigned l (s.board.watches.undosOf l.var) :: past ∧
      Course c ⟨s', past'⟩ := by
  obtain ⟨⟨a, w⟩, arena, learned, order, head⟩ := s
  have hopen : ¬ a.decisionLevel ≤ level := Nat.not_le.mpr hlevel
  obtain ⟨n, hn⟩ := Nat.exists_eq_succ_of_ne_zero (Nat.sub_ne_zero_of_lt hmore)
  have hn : a.trail.size - a.startOfLevel (level + 1) = n + 1 := hn
  have hl : a.newest? = some l := hl
  simp only [SearchState.backtrack, if_neg hopen, hn, undoNewest, hl] at hrun
  obtain ⟨⟨⟨a₁, w₁⟩, arena₁, order₁⟩, hundo, hret⟩ := ok_of_bind hrun
  cases hret
  obtain ⟨arena₀, hfirst, hundo⟩ := ok_of_bind hundo
  have htold := proceeds_unassign h hl hfirst
  have hundone := proceeds_undoNewest n htold.sane hundo
  have hclosed : SearchState.Proceeds ⟨⟨a₁, w₁⟩, arena₁, learned, order₁, head⟩
      ⟨⟨a₁.closeLevels level, w₁⟩, arena₁, learned, order₁, (a₁.closeLevels level).trail.size⟩ :=
    .calm hundone.sane ⟨.of_values rfl fun _ => rfl, fun _ => rfl, id, .refl _⟩ rfl
  obtain ⟨past', hcourse⟩ := (hundone.trans hclosed).course
    (.unassigned l (w.undosOf l.var) :: past)
  obtain ⟨htrue, -⟩ := Assignment.Truthful.unassign h.truthful hl
  exact ⟨_, past', .unassigned hl htrue hfirst, rfl, hcourse⟩

theorem proceeds_backtrackRoot (h : s.Sane) {checkpoint : Nat}
    (hrun : s.backtrackRoot checkpoint = .ok s') : s.Proceeds s' := by
  obtain ⟨board, arena, learned, order, head⟩ := s
  simp only [SearchState.backtrackRoot] at hrun
  split at hrun
  · cases hrun
  · obtain ⟨⟨board₁, arena₁, order₁⟩, hundo, hret⟩ := ok_of_bind hrun
    cases hret
    have hundone := proceeds_undoNewest _ h hundo
    exact hundone.trans (proceeds_of_board hundone.sane rfl (.refl _) rfl)

/-! ## Constraints go -/

theorem courses_delete (h : s.Sane) {rs : List Reference} (hrs : s.Holding rs) :
    s.Courses (s.delete rs) := by
  refine .of_move ⟨?_, ?_, ?_⟩ fun past => ⟨_, .dropped rs⟩
  · rw [assignment_delete]
    exact h.truthful
  · obtain ⟨⟨a, w⟩, arena, learned, order, head⟩ := s
    simp only [delete]
    split
    · exact h.tidy
    · exact h.tidy.freeAll hrs.nodup hrs.alive
  · obtain ⟨⟨a, w⟩, arena, learned, order, head⟩ := s
    simp only [delete]
    split
    · exact h.lists
    · refine ⟨?_, fun r hr => ?_⟩
      · show (learned.references.filter _).toList.Nodup
        rw [Array.toList_filter]
        exact h.lists.nodup.sublist List.filter_sublist
      · have hr : r ∈ (learned.references.filter _).toList := hr
        rw [Array.toList_filter] at hr
        obtain ⟨hmem, hleft⟩ := List.mem_filter.mp hr
        obtain ⟨c, hc, hl⟩ := h.lists.learned r hmem
        obtain ⟨d, hd⟩ := Arena.isAlive_iff.mp hleft
        have hd' := hd
        rw [Arena.get?_freeAll] at hd'
        split at hd'
        · cases hd'
        · rw [hc] at hd'
          cases hd'
          exact ⟨c, hd, hl⟩

theorem proceeds_forgetReasons (h : s.Sane) (hrun : s.forgetReasons = .ok s') : s.Proceeds s' := by
  obtain ⟨hcalm, hlearned⟩ := calm_forgetReasons hrun
  exact .calm h hcalm (congrArg LearnedDatabase.references hlearned)

theorem courses_simplify (h : s.Sane) {n : Nat} (hrun : s.simplify = .ok (n, s')) :
    s.Courses s' := by
  obtain ⟨s₁, hforget, hret⟩ := ok_of_bind hrun
  cases hret
  have hforgot := proceeds_forgetReasons h hforget
  have hmem := s₁.arena.mem_toList_iff
  have hnodup := s₁.arena.nodup_toList
  refine hforgot.toCourses.trans (courses_delete hforgot.sane ⟨?_, fun r hr => ?_⟩)
  · exact hnodup.sublist (List.filter_sublist.map Prod.fst)
  · obtain ⟨e, he, rfl⟩ := List.mem_map.mp hr
    exact ⟨e.2, (hmem e).mp (List.mem_filter.mp he).1⟩

theorem courses_deleteOwned (h : s.Sane) {rs : List Reference} (hrs : rs.Nodup) {handle : Nat}
    (hrun : s.deleteOwned rs handle = .ok s') : s.Courses s' := by
  obtain ⟨s₁, hback, hrun⟩ := ok_of_bind hrun
  obtain ⟨s₂, hforget, hret⟩ := ok_of_bind hrun
  cases hret
  have hlow := proceeds_backtrack h hback
  have hforgot := hlow.trans (proceeds_forgetReasons hlow.sane hforget)
  refine hforgot.toCourses.trans (courses_delete hforgot.sane ⟨hrs.filter _, fun r hr => ?_⟩)
  have howned := (List.mem_filter.mp hr).2
  cases hget : s₂.arena.get? r with
  | none =>
    rw [hget] at howned
    cases howned
  | some c => exact ⟨c, rfl⟩

theorem courses_clear (h : s.Sane) : s.Courses s.clear := by
  refine .of_move ?_ fun past => ⟨_, .cleared⟩
  obtain ⟨⟨a, w⟩, arena, learned, order, head⟩ := s
  exact ⟨⟨fun l hl => absurd hl List.not_mem_nil, List.nodup_nil⟩,
    ⟨List.nodup_nil, fun r hr => absurd hr List.not_mem_nil,
      fun r hr => absurd hr List.not_mem_nil⟩,
    ⟨List.nodup_nil, fun r hr => absurd hr List.not_mem_nil⟩⟩

end SearchState

end ClauseLearning
