import ClauseLearning.Proofs.Standing

/-!
# Searches that run alike

What is assigned, watched and attached does not depend on the order of decisions, on activities or
on the tables of an analysis. Two states of a search that have the same board and the same
constraints, none of which is learned, are twins (`SearchState.Twin`): whatever an addition does to
the one, it does to the other, up to the fault that it may end with (`Matches`).

* `SearchState.Twin.propagate`, `SearchState.Twin.backtrackRoot`: loops, by induction on their
  steps.
* `Engine.Twin.add`: an addition as a whole.
-/

namespace ClauseLearning

variable {κ : Type}

/-! ## Computations side by side -/

/-- Two computations end with the same fault, or with results that are related. -/
inductive Matches {α β : Type} (R : α → β → Prop) : Except Fault α → Except Fault β → Prop
  | ok {a : α} {b : β} (h : R a b) : Matches R (.ok a) (.ok b)
  | error (fault : Fault) : Matches R (.error fault) (.error fault)

namespace Matches

variable {α β γ δ : Type} {R : α → β → Prop} {x : Except Fault α} {y : Except Fault β}

theorem bind {S : γ → δ → Prop} {f : α → Except Fault γ} {g : β → Except Fault δ}
    (h : Matches R x y) (hf : ∀ a b, R a b → Matches S (f a) (g b)) :
    Matches S (x >>= f) (y >>= g) := by
  cases h with
  | ok hr => exact hf _ _ hr
  | error fault => exact .error fault

theorem bind_left {S : γ → β → Prop} {f : α → γ} (h : Matches R x y)
    (hf : ∀ a b, R a b → S (f a) b) : Matches S (x >>= fun a => .ok (f a)) y := by
  cases h with
  | ok hr => exact .ok (hf _ _ hr)
  | error fault => exact .error fault

theorem of_run (h : Matches R x y) {a : α} (hrun : x = .ok a) : ∃ b, y = .ok b ∧ R a b := by
  subst hrun
  cases h with
  | ok hr => exact ⟨_, rfl, hr⟩

end Matches

/-! ## Constraints that were added -/

/-- No constraint that is alive was learned. -/
def Arena.Added (s : Arena κ) : Prop := ∀ r c, s.get? r = some c → c.metadata.learned = false

namespace Arena.Added

variable {s : Arena κ}

theorem empty : (Arena.empty : Arena κ).Added := nofun

variable (h : s.Added)
include h

theorem set (r : Reference) {c : Constraint κ} (hc : c.metadata.learned = false) :
    (s.set r c).Added := by
  intro q d hd
  simp only [Arena.get?, Arena.set, Array.getElem?_setIfInBounds] at hd
  split at hd
  · split at hd
    · cases hd
      exact hc
    · cases hd
  · exact h q d hd

theorem allocate {c : Constraint κ} (hc : c.metadata.learned = false) : (s.allocate c).2.Added := by
  obtain ⟨slots, recycled⟩ := s
  cases recycled with
  | cons r recycled => exact (show Arena.Added ⟨slots, recycled⟩ from h).set r hc
  | nil =>
    intro q d hd
    simp only [Arena.get?, Arena.allocate, Array.getElem?_push] at hd
    split at hd
    · cases hd
      exact hc
    · exact h q d hd

theorem free (r : Reference) : (s.free r).Added := by
  intro q d hd
  rw [Arena.get?_free] at hd
  split at hd
  · cases hd
  · exact h q d hd

theorem freeAll (rs : List Reference) : (rs.foldl (fun arena r => arena.free r) s).Added := by
  induction rs generalizing s with
  | nil => exact h
  | cons r rs ih => exact ih (h.free r)

end Arena.Added

/-! ## Searches side by side -/

namespace SearchState

/-- The two know the same and ask for the same, and neither learned anything. They may prefer
different decisions. -/
inductive Twin : SearchState κ → SearchState κ → Prop
  | intro {board : Board} {arena : Arena κ} {head : Nat} {learned learned' : LearnedDatabase}
      {order order' : DecisionOrder Generator} (hadded : arena.Added) :
      Twin ⟨board, arena, learned, order, head⟩ ⟨board, arena, learned', order', head⟩

/-- The same result comes with states that are twins. -/
def Twins {α : Type} (x y : α × SearchState κ) : Prop := x.1 = y.1 ∧ x.2.Twin y.2

namespace Twin

variable {s t : SearchState κ} (h : s.Twin t)
include h

theorem board_eq : t.board = s.board := by
  cases h
  rfl

theorem arena_eq : t.arena = s.arena := by
  cases h
  rfl

theorem head_eq : t.head = s.head := by
  cases h
  rfl

theorem added : s.arena.Added := by
  cases h
  assumption

theorem grow (n : Nat) : (s.grow n).Twin (t.grow n) := by
  obtain ⟨hadded⟩ := h
  exact .intro hadded

theorem modifyBoard (f : Board → Board) : (s.modifyBoard f).Twin (t.modifyBoard f) := by
  obtain ⟨hadded⟩ := h
  exact .intro hadded

theorem enqueue (l : Literal) : Twins (s.enqueue l) (t.enqueue l) := by
  obtain ⟨hadded⟩ := h
  exact ⟨rfl, .intro hadded⟩

theorem assertUnits (ls : List Literal) :
    Twins (Engine.assertUnits ls s) (Engine.assertUnits ls t) := by
  induction ls generalizing s t with
  | nil => exact ⟨rfl, h⟩
  | cons l ls ih =>
    obtain ⟨hok, htwin⟩ := h.enqueue l
    unfold Engine.assertUnits
    rcases hs : s.enqueue l with ⟨ok, s'⟩
    rcases ht : t.enqueue l with ⟨ok', t'⟩
    rw [hs, ht] at hok htwin
    cases hok
    cases ok with
    | true => exact ih htwin
    | false => exact ⟨rfl, htwin⟩

theorem delete (rs : List Reference) : (s.delete rs).Twin (t.delete rs) := by
  obtain @⟨⟨a, w⟩, arena, head, learned, learned', order, order', hadded⟩ := h
  simp only [SearchState.delete]
  split
  · exact .intro hadded
  · exact .intro (hadded.freeAll rs)

variable [CustomConstraint κ]

theorem attach {c : Constraint κ} (hc : c.metadata.learned = false) :
    (s.attach c).1 = (t.attach c).1 ∧ Twins (s.attach c).2 (t.attach c).2 := by
  obtain @⟨board, arena, head, learned, learned', order, order', hadded⟩ := h
  refine ⟨rfl, rfl, .intro ((hadded.allocate hc).set _ ?_)⟩
  exact (congrArg Metadata.learned (Constraint.metadata_attach _ c board)).trans hc

/-- The normal form is attached at the same place, with the same outcome. -/
theorem attachNormal (handle : Nat) (attached : List Reference) (k : Normal κ) :
    (Engine.attachNormal handle attached k s).1 = (Engine.attachNormal handle attached k t).1 ∧
      Twins (Engine.attachNormal handle attached k s).2
        (Engine.attachNormal handle attached k t).2 := by
  cases k with
  | satisfied => exact ⟨rfl, rfl, h⟩
  | unsatisfiable => exact ⟨rfl, rfl, h⟩
  | units ls =>
    obtain ⟨hok, htwin⟩ := h.assertUnits ls
    exact ⟨hok, rfl, htwin⟩
  | constraint k =>
    obtain ⟨hr, hok, htwin⟩ := h.attach (c := ⟨k, .ofHandle handle⟩) rfl
    exact ⟨hok, congrArg (fun r => attached ++ [r]) hr, htwin⟩

/-- No clause is measured on a visit, since none was learned. -/
theorem visit (p : Literal) (r : Reference) (n : Nat) :
    Matches Twins (SearchState.visit p r n s) (SearchState.visit p r n t) := by
  obtain @⟨board, arena, head, learned, learned', order, order', hadded⟩ := h
  simp only [SearchState.visit]
  cases hget : arena.get r with
  | error fault => exact .error fault
  | ok c =>
    have hc : (c.propagate r p board).2.1.metadata.learned = false := by
      rw [Constraint.metadata_propagate]
      exact hadded r c (Arena.get_eq_ok.mp hget)
    simp only [bind, Except.bind]
    rcases hprop : c.propagate r p board with ⟨ok, c', board'⟩
    rw [hprop] at hc
    cases ok with
    | false => exact .ok ⟨rfl, .intro (hadded.set r hc)⟩
    | true =>
      have hnot : ¬ (n < board'.assignment.trail.size ∧ c'.metadata.learned = true) := by
        rintro ⟨-, hlearned⟩
        rw [show c'.metadata.learned = false from hc] at hlearned
        cases hlearned
      dsimp only
      rw [if_neg hnot, if_neg hnot]
      exact .ok ⟨rfl, .intro (hadded.set r hc)⟩

theorem notify (p : Literal) (ws : List Watcher) :
    Matches Twins (SearchState.notify p ws s) (SearchState.notify p ws t) := by
  induction ws generalizing s t with
  | nil => exact .ok ⟨rfl, h⟩
  | cons w ws ih =>
    have hassignment : t.assignment = s.assignment := congrArg Board.assignment h.board_eq
    have hlength : t.trailLength = s.trailLength :=
      congrArg (fun b => b.assignment.trail.size) h.board_eq
    unfold SearchState.notify
    rw [hassignment, hlength]
    split
    · exact ih (h.modifyBoard _)
    · refine (h.visit p w.constraint s.trailLength).bind fun x y hxy => ?_
      obtain ⟨hok, htwin⟩ := hxy
      obtain ⟨ok, s'⟩ := x
      obtain ⟨ok', t'⟩ := y
      replace htwin : s'.Twin t' := htwin
      cases hok
      cases ok with
      | true => exact ih htwin
      | false =>
        refine .ok ⟨rfl, ?_⟩
        dsimp only
        exact htwin.modifyBoard _

theorem propagateSteps (n : Nat) :
    Matches Twins (SearchState.propagateSteps n s) (SearchState.propagateSteps n t) := by
  induction n generalizing s t with
  | zero => exact .error .outOfSteps
  | succ n ih =>
    obtain @⟨⟨a, w⟩, arena, head, learned, learned', order, order', hadded⟩ := h
    unfold SearchState.propagateSteps
    split
    · exact .ok ⟨rfl, .intro hadded⟩
    · rename_i p hp
      refine (Twin.notify (.intro hadded) p _).bind fun x y hxy => ?_
      obtain ⟨hconflict, htwin⟩ := hxy
      obtain ⟨conflict, s'⟩ := x
      obtain ⟨conflict', t'⟩ := y
      cases hconflict
      cases conflict with
      | none => exact ih htwin
      | some r =>
        obtain ⟨hadded'⟩ := htwin
        exact .ok ⟨rfl, .intro hadded'⟩

theorem propagate : Matches Twins s.propagate t.propagate := by
  have hsteps : t.numVariables = s.numVariables :=
    congrArg (fun b => b.assignment.numVariables) h.board_eq
  unfold SearchState.propagate
  rw [hsteps]
  exact h.propagateSteps _

end Twin

variable [CustomConstraint κ]

theorem undoAll_added {l : Literal} {rs : List Reference} {arena arena' : Arena κ}
    (h : arena.Added) (hrun : undoAll l rs arena = .ok arena') : arena'.Added := by
  induction rs generalizing arena with
  | nil =>
    cases hrun
    exact h
  | cons r rs ih =>
    rw [undoAll, List.foldlM_cons] at hrun
    obtain ⟨arena₁, hone, hrun⟩ := ok_of_bind hrun
    obtain ⟨c, hc, hone⟩ := ok_of_bind hone
    obtain ⟨c', hc', hone⟩ := ok_of_bind hone
    cases hone
    refine ih (h.set r ?_) hrun
    rw [Constraint.metadata_undo hc']
    exact h r c (Arena.get_eq_ok.mp hc)

/-- What is taken back does not depend on the order of decisions. -/
theorem undoNewest_matches (n : Nat) (b : Board) {arena : Arena κ} (h : arena.Added)
    (order order' : DecisionOrder Generator) :
    Matches (fun x y => x.1 = y.1 ∧ x.2.1 = y.2.1 ∧ x.2.1.Added) (undoNewest n b arena order)
      (undoNewest n b arena order') := by
  induction n generalizing b arena order order' with
  | zero => exact .ok ⟨rfl, rfl, h⟩
  | succ n ih =>
    obtain ⟨a, w⟩ := b
    unfold undoNewest
    split
    · exact .ok ⟨rfl, rfl, h⟩
    · rename_i l hl
      dsimp only
      cases hundo : undoAll l (w.takeUndos l.var).1 arena with
      | error fault => exact .error fault
      | ok arena' => exact ih _ (undoAll_added h hundo) _ _

namespace Twin

variable {s t : SearchState κ} (h : s.Twin t)
include h

theorem backtrackRoot (checkpoint : Nat) :
    Matches Twin (s.backtrackRoot checkpoint) (t.backtrackRoot checkpoint) := by
  obtain @⟨⟨a, w⟩, arena, head, learned, learned', order, order', hadded⟩ := h
  simp only [SearchState.backtrackRoot]
  by_cases hlevel : a.decisionLevel ≠ 0
  · rw [if_pos hlevel, if_pos hlevel]
    exact .error .aboveRoot
  · rw [if_neg hlevel, if_neg hlevel]
    refine (undoNewest_matches _ _ hadded order order').bind fun x y hxy => ?_
    obtain ⟨hb, harena, hadded'⟩ := hxy
    obtain ⟨b, arena₁, order₁⟩ := x
    obtain ⟨b', arena₂, order₂⟩ := y
    cases hb
    cases harena
    exact .ok (.intro hadded')

theorem backtrack (level : Nat) : Matches Twin (s.backtrack level) (t.backtrack level) := by
  obtain @⟨⟨a, w⟩, arena, head, learned, learned', order, order', hadded⟩ := h
  simp only [SearchState.backtrack]
  by_cases hlevel : a.decisionLevel ≤ level
  · rw [if_pos hlevel, if_pos hlevel]
    exact .ok (.intro hadded)
  · rw [if_neg hlevel, if_neg hlevel]
    refine (undoNewest_matches _ _ hadded order order').bind fun x y hxy => ?_
    obtain ⟨hb, harena, hadded'⟩ := hxy
    obtain ⟨⟨a', w'⟩, arena₁, order₁⟩ := x
    obtain ⟨b', arena₂, order₂⟩ := y
    cases hb
    cases harena
    exact .ok (.intro hadded')

end Twin

end SearchState

/-! ## Engines side by side -/

namespace Engine

/-- The searches are twins, and both engines know whether the constraints are unsatisfiable. -/
structure Twin (e f : Engine κ) : Prop where
  search : e.search.Twin f.search
  infeasible : f.control.infeasible = e.control.infeasible

/-- The same result comes with engines that are twins. -/
def Twins {α : Type} (x y : α × Engine κ) : Prop := x.1 = y.1 ∧ x.2.Twin y.2

namespace Twin

variable {e f : Engine κ} (h : e.Twin f)
include h

theorem grow (n : Nat) : (e.grow n).Twin (f.grow n) := by
  obtain ⟨search, analyser, control⟩ := e
  obtain ⟨search', analyser', control'⟩ := f
  have hn : search'.numVariables = search.numVariables :=
    congrArg (fun b => b.assignment.numVariables) h.search.board_eq
  unfold Engine.grow
  simp only [hn]
  split
  · exact h
  · exact ⟨h.search.grow n, h.infeasible⟩

variable [CustomConstraint κ]

theorem propagate : Matches Twins e.propagate f.propagate := by
  obtain ⟨search, analyser, control⟩ := e
  obtain ⟨search', analyser', control'⟩ := f
  unfold Engine.propagate
  refine h.search.propagate.bind fun x y hxy => ?_
  obtain ⟨hconflict, htwin⟩ := hxy
  exact .ok ⟨hconflict, htwin, h.infeasible⟩

theorem withdraw (checkpoint : Nat) (attached : List Reference) :
    Matches Twins (e.withdraw checkpoint attached) (f.withdraw checkpoint attached) := by
  obtain ⟨search, analyser, control⟩ := e
  obtain ⟨search', analyser', control'⟩ := f
  unfold Engine.withdraw
  exact (h.search.backtrackRoot checkpoint).bind fun s t htwin =>
    .ok ⟨rfl, htwin.delete attached, h.infeasible⟩

theorem addParts (handle checkpoint : Nat) (ds : List (Description κ)) (attached : List Reference) :
    Matches Twins (Engine.addParts handle checkpoint ds attached e)
      (Engine.addParts handle checkpoint ds attached f) := by
  induction ds generalizing attached e f with
  | nil => exact .ok ⟨rfl, h⟩
  | cons d ds ih =>
    have hgrown := h.grow (Description.maxVariable d.literals)
    unfold Engine.addParts
    generalize e.grow (Description.maxVariable d.literals) = e₁ at *
    generalize f.grow (Description.maxVariable d.literals) = f₁ at *
    obtain ⟨search, analyser, control⟩ := e₁
    obtain ⟨search', analyser', control'⟩ := f₁
    have hassignment : search'.assignment = search.assignment :=
      congrArg Board.assignment hgrown.search.board_eq
    dsimp only
    rw [hassignment]
    split
    · exact ih hgrown attached
    · obtain ⟨hok, hattached, htwin⟩ :=
        hgrown.search.attachNormal handle attached (d.normalise search.assignment)
      rcases hs : Engine.attachNormal handle attached (d.normalise search.assignment) search with
        ⟨ok, attached₁, search₁⟩
      rcases ht : Engine.attachNormal handle attached (d.normalise search.assignment) search' with
        ⟨ok', attached₂, search₂⟩
      rw [hs, ht] at hok hattached htwin
      have hnext : Twin ⟨search₁, analyser, control⟩ ⟨search₂, analyser', control'⟩ :=
        ⟨htwin, hgrown.infeasible⟩
      cases hok
      cases hattached
      cases ok with
      | false => exact hnext.withdraw checkpoint attached₁
      | true =>
        refine hnext.propagate.bind fun x y hxy => ?_
        obtain ⟨hconflict, htwin'⟩ := hxy
        obtain ⟨conflict, e₂⟩ := x
        obtain ⟨conflict', f₂⟩ := y
        cases hconflict
        cases conflict with
        | none => exact ih htwin' attached₁
        | some r => exact htwin'.withdraw checkpoint attached₁

/-- An addition has the same effect on both. -/
theorem add (handle : Nat) (ds : List (Description κ)) :
    Matches Twins (e.add handle ds) (f.add handle ds) := by
  unfold Engine.add
  rw [h.infeasible]
  split
  · exact .ok ⟨rfl, h⟩
  · obtain ⟨search, analyser, control⟩ := e
    obtain ⟨search', analyser', control'⟩ := f
    have hback : Matches Twin ((⟨search, analyser, control⟩ : Engine κ).backtrack 0)
        ((⟨search', analyser', control'⟩ : Engine κ).backtrack 0) :=
      (h.search.backtrack 0).bind fun s t htwin => .ok ⟨htwin, h.infeasible⟩
    refine hback.bind fun e₁ f₁ htwin => ?_
    have hlength : f₁.search.trailLength = e₁.search.trailLength :=
      congrArg (fun b => b.assignment.trail.size) htwin.search.board_eq
    rw [hlength]
    exact htwin.addParts handle e₁.search.trailLength ds []

end Twin

end Engine

end ClauseLearning
