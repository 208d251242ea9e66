import ClauseLearning.Proofs.Learning

/-!
# Tables that are not looked at in vain

Two tables are read without the invariants of a state saying that there is an entry: the values that
the phase rule saved, and the timers (`Engine.Tabled`). No operation but growing changes how large
they are.

* `SearchState.saves_backtrack`, `saves_analyse`: going back saves values in their places, and an
  analysis saves none.
-/

namespace ClauseLearning

/-! ## Saved values -/

namespace Phase

variable {γ : Type}

/-- There is a saved value for every variable below `n`, if values are saved at all. -/
def Covers (n : Nat) : Phase γ → Prop
  | .saving saved => saved.size = n
  | _ => True

theorem covers_ofRule [RandomSource γ] (seed : UInt64) (rule : PhaseRule) :
    (ofRule seed rule : Phase γ).Covers 0 := by
  cases rule with
  | saving => rfl
  | _ => trivial

namespace Covers

variable {n : Nat} {phase : Phase γ}

theorem grow (h : phase.Covers n) (m : Nat) : (phase.grow m).Covers (max n (m + 1)) := by
  cases phase with
  | saving saved =>
    have hsize : saved.size = n := h
    show (saved ++ Array.replicate (m + 1 - saved.size) false).size = max n (m + 1)
    rw [Array.size_append, Array.size_replicate]
    omega
  | _ => trivial

theorem select [RandomSource γ] (h : phase.Covers n) (v : Nat) : (phase.select v).2.Covers n := by
  cases phase with
  | saving saved => exact h
  | _ => trivial

theorem onUnassign (h : phase.Covers n) (l : Literal) : (phase.onUnassign l).Covers n := by
  cases phase with
  | saving saved => exact (Array.size_setIfInBounds ..).trans h
  | _ => trivial

end Covers

end Phase

namespace DecisionOrder

variable {γ : Type}

/-- As many values are saved as before. -/
def Saves (o o' : DecisionOrder γ) : Prop := ∀ n, o.phase.Covers n → o'.phase.Covers n

namespace Saves

variable {o o' o'' : DecisionOrder γ}

theorem of_eq (h : o'.phase = o.phase) : o.Saves o' := fun n hn => by
  rw [h]
  exact hn

theorem trans (h : o.Saves o') (h' : o'.Saves o'') : o.Saves o'' := fun n hn => h' n (h n hn)

end Saves

variable {o : DecisionOrder γ} {n : Nat}

theorem phase_bump (o : DecisionOrder γ) (v : Nat) : (o.bump v).phase = o.phase := by
  unfold bump
  dsimp only
  split
  · rfl
  · rfl

theorem phase_restoreAll (o : DecisionOrder γ) : o.restoreAll.phase = o.phase := by
  unfold restoreAll
  induction List.range' 1 (o.heap.numKeys - 1) generalizing o with
  | nil => rfl
  | cons v vs ih => exact ih _

theorem covers_grow (h : o.phase.Covers n) (m : Nat) : (o.grow m).phase.Covers (max n (m + 1)) := by
  have hrepeat : ∀ k, (Nat.repeat addVariable k o).phase = o.phase := by
    intro k
    induction k with
    | zero => rfl
    | succ k ih => exact ih
  have hphase : (o.grow m).phase = o.phase.grow m := congrArg (Phase.grow m) (hrepeat _)
  rw [hphase]
  exact h.grow m

variable [RandomSource γ]

theorem saves_nextActive (a : Assignment) (o : DecisionOrder γ) : o.Saves (o.nextActive a).2 := by
  intro n h
  unfold nextActive
  dsimp only
  split
  · exact h
  · exact h.select _

theorem saves_nextDecision {a : Assignment} {l : Option Literal} {o o' : DecisionOrder γ}
    (hrun : o.nextDecision a = (l, o')) : o.Saves o' := by
  have hdraw : o.Saves o.drawVariable?.2 := by
    obtain ⟨heap, increment, decayFactor, randomFrequency, generator, allowed, phase⟩ := o
    simp only [drawVariable?]
    split
    · generalize (if randomFrequency < 1 then randomFrequency else 1) = p
      split
      · exact .of_eq rfl
      · exact .of_eq rfl
    · exact .of_eq rfl
  have hactive : ∀ o₁ : DecisionOrder γ, o.Saves o₁ → o.Saves (o₁.nextActive a).2 := fun o₁ h =>
    h.trans (saves_nextActive a o₁)
  rw [show o' = (o.nextDecision a).2 by rw [hrun]]
  unfold nextDecision
  split
  · rename_i v o₁ heq
    rw [heq] at hdraw
    split
    · exact fun n hn => (hdraw n hn).select v
    · exact hactive o₁ hdraw
  · rename_i o₁ heq
    rw [heq] at hdraw
    exact hactive o₁ hdraw

end DecisionOrder

/-! ## Operations -/

namespace SearchState

variable {κ : Type} {s s' : SearchState κ}

theorem saves_model (s : SearchState κ) : s.order.Saves s.model.2.order := by
  intro n h
  have hfold : ∀ (vs : List Nat) (x : List Literal × DecisionOrder Generator), x.2.phase.Covers n →
      (vs.foldl (fun x v => ((x.2.select v).1 :: x.1, (x.2.select v).2)) x).2.phase.Covers n := by
    intro vs
    induction vs with
    | nil => exact fun _ hx => hx
    | cons v vs ih => exact fun x hx => ih _ (hx.select v)
  exact hfold _ _ h

variable [CustomConstraint κ]

theorem saves_undoNewest {k : Nat} {b b' : Board} {arena arena' : Arena κ}
    {order order' : DecisionOrder Generator}
    (hrun : undoNewest k b arena order = .ok (b', arena', order')) : order.Saves order' := by
  induction k generalizing b arena order with
  | zero =>
    cases hrun
    exact .of_eq rfl
  | succ k ih =>
    obtain ⟨a, w⟩ := b
    unfold undoNewest at hrun
    split at hrun
    · cases hrun
      exact .of_eq rfl
    · rename_i l _
      obtain ⟨arena₁, -, hrun⟩ := ok_of_bind hrun
      exact fun n hn => ih hrun n (hn.onUnassign l)

theorem saves_backtrack {level : Nat} (hrun : s.backtrack level = .ok s') :
    s.order.Saves s'.order := by
  obtain ⟨board, arena, learned, order, head⟩ := s
  simp only [backtrack] at hrun
  split at hrun
  · cases hrun
    exact .of_eq rfl
  · obtain ⟨⟨⟨a, w⟩, arena', order'⟩, hundo, hrun⟩ := ok_of_bind hrun
    cases hrun
    exact saves_undoNewest hundo

theorem saves_backtrackRoot {checkpoint : Nat} (hrun : s.backtrackRoot checkpoint = .ok s') :
    s.order.Saves s'.order := by
  obtain ⟨board, arena, learned, order, head⟩ := s
  simp only [backtrackRoot] at hrun
  split at hrun
  · cases hrun
  · obtain ⟨⟨board', arena', order'⟩, hundo, hrun⟩ := ok_of_bind hrun
    cases hrun
    exact saves_undoNewest hundo

end SearchState

section

variable {κ : Type} [CustomConstraint κ]

theorem Resolution.phase_resolve {d : LearnedDatabase} {a : Assignment} {r : Reference}
    {p : Option Literal} {s s' : Resolution κ} (hrun : s.resolve d a r p = .ok s') :
    s'.order.phase = s.order.phase := by
  have hnote : ∀ (l : Literal) (s : Resolution κ), (s.note a l).order.phase = s.order.phase := by
    intro l s
    unfold note
    dsimp only
    split
    · rfl
    · split
      · exact s.order.phase_bump l.var
      · exact s.order.phase_bump l.var
  have hfold : ∀ (ls : List Literal) (s : Resolution κ),
      (ls.foldl (fun s l => s.note a l) s).order.phase = s.order.phase := by
    intro ls
    induction ls with
    | nil => exact fun _ => rfl
    | cons l ls ih => exact fun s => (ih _).trans (hnote l s)
  unfold resolve at hrun
  obtain ⟨c, -, hrun⟩ := ok_of_bind hrun
  dsimp only at hrun
  split at hrun
  · cases hrun
  · cases hrun
    exact hfold _ _

theorem Resolution.phase_descend {d : LearnedDatabase} {a : Assignment} {i : Nat} {l : Literal}
    {s s' : Resolution κ} (hrun : s.descend d a i = .ok (l, s')) :
    s'.order.phase = s.order.phase := by
  induction i generalizing s with
  | zero => cases hrun
  | succ i ih =>
    unfold descend at hrun
    split at hrun
    · exact ih hrun
    · split at hrun
      · split at hrun
        · cases hrun
          rfl
        · split at hrun
          · cases hrun
          · obtain ⟨seen, marked, lower, numOpen, order, arena, needsRescale⟩ := s
            obtain ⟨s₁, hresolve, hrun⟩ := ok_of_bind hrun
            have hsame := phase_resolve hresolve
            exact (ih hrun).trans hsame
      · exact ih hrun

theorem saves_analyse {r : Reference} {a : Assignment} {an : Analyser}
    {order : DecisionOrder Generator}
    {learned : LearnedDatabase} {arena : Arena κ} {lesson : Lesson κ}
    (hrun : an.analyse r a order learned arena = .ok lesson) : order.Saves lesson.order := by
  obtain ⟨minimisation, seen, minimiser⟩ := an
  simp only [Analyser.analyse] at hrun
  split at hrun
  · cases hrun
  obtain ⟨start, hstart, hrun⟩ := ok_of_bind hrun
  obtain ⟨⟨last, ⟨seen', marked, lower, numOpen, order', arena', needsRescale⟩⟩, hdescend, hrun⟩ :=
    ok_of_bind hrun
  have hsame : order'.phase = order.phase :=
    (Resolution.phase_descend hdescend).trans (Resolution.phase_resolve hstart)
  dsimp only at hrun
  split at hrun
  · obtain ⟨⟨learned', arena''⟩, -, hrun⟩ := ok_of_bind hrun
    obtain ⟨⟨ls, an'⟩, -, hrun⟩ := ok_of_bind hrun
    cases hrun
    exact .of_eq hsame
  · obtain ⟨⟨learned', arena''⟩, -, hrun⟩ := ok_of_bind hrun
    obtain ⟨⟨ls, an'⟩, -, hrun⟩ := ok_of_bind hrun
    cases hrun
    exact .of_eq hsame

end

/-! ## Engines -/

namespace Engine

variable {κ : Type}

/-- The tables that nothing else says the size of. -/
structure Tabled (e : Engine κ) : Prop where
  saved : e.search.order.phase.Covers e.search.assignment.cells.size
  timer : e.control.reduceTimer < e.control.timers.entries.length

/-- An operation with which no variables and no timers come in or go out. -/
theorem Tabled.congr {e e' : Engine κ} (h : e.Tabled)
    (hsaves : e.search.order.Saves e'.search.order)
    (hsize : e'.search.assignment.cells.size = e.search.assignment.cells.size)
    (htimers : e'.control.timers.entries.length = e.control.timers.entries.length)
    (hreduce : e'.control.reduceTimer = e.control.reduceTimer) : e'.Tabled := by
  refine ⟨?_, ?_⟩
  · rw [hsize]
    exact hsaves _ h.saved
  · rw [htimers, hreduce]
    exact h.timer

end Engine

end ClauseLearning
