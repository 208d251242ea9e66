import ClauseLearning.Proofs.Restrictions
import ClauseLearning.Proofs.Twins

/-!
# A rebuilt engine is a new one

A rebuild clears tables one by one, and keeps the activities and the preferred values. What it
leaves is nevertheless what a new engine comes to that knows as many variables, whatever its options
are, to which the constraints that are left are added in their order under their handles: the same
trail with the same levels and reasons, the same constraints in the same slots, the same watch
lists.

* `Engine.Reachable.clear_twin`: an engine that was cleared is a twin of a new one.
* `Session.Standing.rebuild_renewed`: what a rebuild leaves.
* `Session.Reachable.renews`: the calls that rebuild.
-/

namespace ClauseLearning

variable {κ : Type}

/-! ## The number of variables -/

namespace Engine

variable [CustomConstraint κ]

omit [CustomConstraint κ] in
theorem size_grow_ne_one {e : Engine κ} (h : e.search.assignment.cells.size ≠ 1) (n : Nat) :
    (e.grow n).search.assignment.cells.size ≠ 1 := by
  obtain ⟨search, analyser, control⟩ := e
  unfold Engine.grow
  dsimp only
  split
  · exact h
  · rename_i hlt
    have hsize : (search.grow n).assignment.cells.size =
        max search.assignment.cells.size (n + 1) := Assignment.size_cells_grow _ n
    show (search.grow n).assignment.cells.size ≠ 1
    omega

omit [CustomConstraint κ] in
theorem size_clear (e : Engine κ) :
    e.clear.search.assignment.cells.size = e.search.assignment.cells.size := by
  obtain ⟨⟨⟨a, w⟩, arena, learned, order, head⟩, analyser, control⟩ := e
  exact Array.size_replicate ..

omit [CustomConstraint κ] in
theorem size_delete (e : Engine κ) (rs : List Reference) :
    (e.modifySearch (·.delete rs)).search.assignment.cells.size =
      e.search.assignment.cells.size := by
  obtain ⟨search, analyser, control⟩ := e
  exact congrArg (·.cells.size) (SearchState.assignment_delete search rs)

namespace Orderly

variable {moment : Moment κ} {e e' : Engine κ}

theorem size_backtrack (h : Orderly moment e) {level : Nat} (hrun : e.backtrack level = .ok e') :
    e'.search.assignment.cells.size = e.search.assignment.cells.size :=
  ((backtrack_yields h.wellFormed level).of_run hrun).size

omit [CustomConstraint κ] in
theorem size_enqueue (h : Orderly moment e) {l : Literal}
    (hk : l.Known e.search.assignment.cells.size) :
    (e.modifySearch fun s => (s.enqueue l).2).search.assignment.cells.size =
      e.search.assignment.cells.size := by
  obtain ⟨search, analyser, control⟩ := e
  exact (SearchState.enqueue_spec h.wellFormed.search hk).1.extension.size

theorem size_attach (h : Orderly moment e) {d : Description κ} {k : Kind κ}
    (hd : d.Known e.search.assignment.cells.size)
    (hk : d.normalise e.search.assignment = .constraint k) (handle : Nat) :
    (e.modifySearch fun s => (s.attach ⟨k, .ofHandle handle⟩).2.2).search.assignment.cells.size =
      e.search.assignment.cells.size := by
  obtain ⟨search, analyser, control⟩ := e
  have hw : search.WellFormed := h.wellFormed.search
  obtain ⟨hkind, hfalsified, -⟩ :=
    Description.wellFormed_of_normalise hw.onBoard.consistent hd hk
  rcases hrun : search.attach ⟨k, .ofHandle handle⟩ with ⟨r, ok, search'⟩
  obtain ⟨-, -, -, hsame, -⟩ :=
    SearchState.attach_spec (c := ⟨k, .ofHandle handle⟩) hw hkind hfalsified hrun
  simp only [modifySearch, hrun]
  rw [hsame]

theorem size_withdraw {start : SearchState κ} {rs : List Reference}
    (h : Orderly (.adding start rs) e) {s : SearchState κ}
    (hrun : e.search.backtrackRoot start.trailLength = .ok s) :
    s.assignment.cells.size = e.search.assignment.cells.size := by
  obtain ⟨-, -, hp⟩ := h.fits
  rw [show start.trailLength = start.assignment.trues.length from
    Assignment.size_trail start.assignment] at hrun
  obtain ⟨-, hr, -⟩ := SearchState.backtrackRoot_spec h.wellFormed.search hp.length_le hrun
  exact hr.cut.size

omit [CustomConstraint κ] in
theorem size_forgetReasons (h : Orderly moment e) {s : SearchState κ}
    (hrun : e.search.forgetReasons = .ok s) :
    s.assignment.cells.size = e.search.assignment.cells.size := by
  obtain ⟨-, -, ht, -⟩ := SearchState.forgetReasons_spec h.wellFormed.search hrun
  exact ht.size

end Orderly

/-- There is a cell for number 0 as soon as there is one for number 1, and not before. Variables
come in together with all before them, and no other operation changes the number of cells. -/
theorem Reachable.size_ne_one {moment : Moment κ} {e : Engine κ} (h : Reachable moment e) :
    e.search.assignment.cells.size ≠ 1 := by
  induction h with
  | make o => exact Nat.zero_ne_one
  | noted _ _ _ _ ih | rested _ ih | begun _ _ ih | taught _ _ ih | opened _ ih => exact ih
  | grown _ n ih | widened _ n ih => exact size_grow_ne_one ih n
  | confined _ vs ih => exact ih
  | @cleared e _ ih => exact (size_clear e).trans_ne ih
  | modelled h ih =>
    rw [(model_spec _ h.orderly.wellFormed).2.1]
    exact ih
  | asserted h hk ih => exact (h.orderly.size_enqueue hk).trans_ne ih
  | attached h hd hk handle ih => exact (h.orderly.size_attach hd hk handle).trans_ne ih
  | withdrawn h hrun ih => exact (h.orderly.size_withdraw hrun).trans_ne ih
  | @refused rs e _ ih | @deleted e _ rs _ _ ih => exact (size_delete e rs).trans_ne ih
  | forgot h hrun ih => exact (h.orderly.size_forgetReasons hrun).trans_ne ih
  | @posed e e' h hrun assumptions _ ih =>
    exact size_grow_ne_one (e := e'.under assumptions)
      ((h.orderly.size_backtrack hrun).trans_ne ih) _
  | rewound h hrun ih | lowered h _ hrun ih => exact (h.orderly.size_backtrack hrun).trans_ne ih
  | extended h hrun ih | propagated h hrun ih =>
    exact ((propagate_yields h.orderly.wellFormed).of_run hrun).1.size.trans_ne ih
  | @counted r e _ ih => exact (countConflict_carries e).size.trans_ne ih
  | resolved h hrun ih =>
    have ho := h.orderly
    obtain ⟨-, c, hc, hv⟩ := ho.fits.at_stage
    have hyields := resolveConflict_yields ho.wellFormed ho.fits.honours hc hv
    exact (hyields.of_run hrun).1.size.trans_ne ih
  | simplified h hrun ih =>
    exact ((simplifyIfDue_yields h.orderly.wellFormed).of_run hrun).1.size.trans_ne ih
  | reduced h hrun ih =>
    exact ((reduceIfDue_yields h.orderly.wellFormed).of_run hrun).1.size.trans_ne ih
  | restarted h hrun ih =>
    exact ((restartIfDue_yields h.orderly.wellFormed).of_run hrun).1.size.trans_ne ih
  | assumed _ hnext _ ih => exact (openLevel_carries hnext).size.trans_ne ih
  | decided h hnext hfree ih =>
    have ho := h.orderly
    have hk := ho.fits.known _ (List.mem_of_getElem? hnext)
    exact (decideOn_carries ho.wellFormed ho.fits.at_stage hk hfree).1.size.trans_ne ih
  | chosen h hmade hrun ih | concluded h hmade hrun ih =>
    exact (h.orderly.advances_decideVariable hmade hrun).2.size.trans_ne ih
  | failed h _ _ hrun ih =>
    exact ((failAssumption_yields h.orderly.wellFormed).of_run hrun).size.trans_ne ih

end Engine

namespace Description

theorem maxVariable_le {ls : List Literal} {n : Nat} (h : ∀ l ∈ ls, l.var ≤ n) :
    maxVariable ls ≤ n := by
  have hfold : ∀ m, m ≤ n → ls.foldl (fun k l => max k l.var) m ≤ n := by
    induction ls with
    | nil => exact fun m hm => hm
    | cons l ls ih =>
      intro m hm
      exact ih (fun l' hl' => h l' (List.mem_cons_of_mem _ hl')) _
        (Nat.max_le.mpr ⟨hm, h l List.mem_cons_self⟩)
  exact hfold 0 (Nat.zero_le n)

theorem Known.maxVariable_le [CustomConstraint κ] {d : Description κ} {size : Nat}
    (h : d.Known size) : maxVariable d.literals ≤ size - 1 := by
  have hle : ∀ {ls : List Literal}, (∀ l ∈ ls, l.Known size) → maxVariable ls ≤ size - 1 :=
    fun hls => Description.maxVariable_le fun l hl => Nat.le_sub_one_of_lt (hls l hl).2
  cases d with
  | clause ls => exact hle h
  | atLeast ls degree => exact hle h
  | parity ls even => exact hle h
  | custom c => exact h.elim

end Description

/-! The tables of the analysis have as many entries as there are cells, and only new variables make
them longer. -/

namespace Engine

variable [CustomConstraint κ] {n : Nat}

omit [CustomConstraint κ] in
theorem seen_grow {e : Engine κ} {m : Nat} (hm : m ≤ n) (h : e.analyser.seen.size ≤ n + 1) :
    (e.grow m).analyser.seen.size ≤ n + 1 := by
  obtain ⟨search, ⟨minimisation, seen, minimiser⟩, control⟩ := e
  have hseen : seen.size ≤ n + 1 := h
  unfold Engine.grow
  dsimp only
  split
  · exact hseen
  · simp only [Analyser.grow, Array.size_append, Array.size_replicate]
    omega

theorem seen_addParts {handle checkpoint : Nat} {ds : List (Description κ)} {rs : List Reference}
    {result : Except Refusal (List Reference)} {e e' : Engine κ}
    (hds : ∀ d ∈ ds, Description.maxVariable d.literals ≤ n) (h : e.analyser.seen.size ≤ n + 1)
    (hrun : addParts handle checkpoint ds rs e = .ok (result, e')) :
    e'.analyser.seen.size ≤ n + 1 := by
  have hwithdraw : ∀ {rs : List Reference} {e : Engine κ}, e.analyser.seen.size ≤ n + 1 →
      withdraw checkpoint rs e = .ok (result, e') → e'.analyser.seen.size ≤ n + 1 := by
    intro rs e h hrun
    obtain ⟨search, analyser, control⟩ := e
    obtain ⟨s, -, hret⟩ := ok_of_bind hrun
    cases hret
    exact h
  induction ds generalizing rs e with
  | nil =>
    cases hrun
    exact h
  | cons d ds ih =>
    have hgrown := seen_grow (hds d List.mem_cons_self) h
    have hds' : ∀ d' ∈ ds, Description.maxVariable d'.literals ≤ n := fun d' hd' =>
      hds d' (List.mem_cons_of_mem _ hd')
    unfold addParts at hrun
    generalize e.grow (Description.maxVariable d.literals) = e₁ at *
    obtain ⟨search, analyser, control⟩ := e₁
    dsimp only at hrun
    split at hrun
    · exact ih hds' hgrown hrun
    · split at hrun
      · refine hwithdraw ?_ hrun
        exact hgrown
      · obtain ⟨⟨conflict, e₂⟩, hprop, hrun⟩ := ok_of_bind hrun
        obtain ⟨⟨c, s⟩, -, hret⟩ := ok_of_bind hprop
        cases hret
        cases conflict with
        | none =>
          refine ih hds' ?_ hrun
          exact hgrown
        | some r =>
          refine hwithdraw ?_ hrun
          exact hgrown

theorem seen_add {handle : Nat} {ds : List (Description κ)}
    {result : Except Refusal (List Reference)} {e e' : Engine κ}
    (hds : ∀ d ∈ ds, Description.maxVariable d.literals ≤ n) (h : e.analyser.seen.size ≤ n + 1)
    (hrun : e.add handle ds = .ok (result, e')) : e'.analyser.seen.size ≤ n + 1 := by
  obtain ⟨search, analyser, control⟩ := e
  unfold add at hrun
  split at hrun
  · cases hrun
    exact h
  · obtain ⟨e₁, hback, hrun⟩ := ok_of_bind hrun
    obtain ⟨s, -, hret⟩ := ok_of_bind hback
    cases hret
    refine seen_addParts hds ?_ hrun
    exact h

end Engine

/-! ## New engines -/

namespace Board

/-- Nothing is assigned and nothing is watched. -/
def blank (n : Nat) : Board :=
  ⟨⟨Array.replicate n none, #[], #[]⟩, ⟨⟨Array.replicate (2 * n) #[]⟩, Array.replicate n #[]⟩⟩

theorem grow_empty (n : Nat) : empty.grow n = blank (n + 1) := by
  simp [empty, grow, blank, Assignment.empty, Assignment.grow, Watches.empty, Watches.grow,
    LiteralTable.empty, LiteralTable.grow]

theorem clear_eq_blank {a : Assignment} {w : Watches} (h : w.Sized a.cells.size) :
    (⟨a.clear, w.clear⟩ : Board) = blank a.cells.size := by
  have hmap : ∀ {α β : Type} (xs : Array α) (y : β), xs.map (fun _ => y) =
      Array.replicate xs.size y :=
    fun xs y => by simp [Array.ext_iff]
  have hlists : w.lists.entries.size = 2 * a.cells.size := h.lists
  simp only [Assignment.clear, Watches.clear, LiteralTable.map, blank, hmap, hlists, h.undos]

end Board

namespace Engine

variable [CustomConstraint κ]

/-- What is left of an engine that forgot everything is what a new one has that knows as many
variables. -/
theorem Reachable.clear_twin {moment : Moment κ} {e : Engine κ} (h : Reachable moment e)
    (o : Options) : e.clear.Twin ((Engine.make o).grow e.numVariables) := by
  have hne := h.size_ne_one
  have hsized := h.orderly.wellFormed.search.onBoard.sized
  obtain ⟨⟨⟨a, w⟩, arena, learned, order, head⟩, analyser, control⟩ := e
  have hcleared : (⟨a.clear, w.clear⟩ : Board) = .blank a.cells.size := Board.clear_eq_blank hsized
  rcases Nat.eq_zero_or_pos a.cells.size with hzero | hpos
  · have hnone : (Engine.make o : Engine κ).grow (a.cells.size - 1) = Engine.make o :=
      grow_of_le (Nat.le_of_eq (by rw [hzero]; rfl))
    show Twin _ ((Engine.make o).grow (a.cells.size - 1))
    rw [hnone]
    refine ⟨?_, rfl⟩
    show SearchState.Twin ⟨⟨a.clear, w.clear⟩, .empty, _, _, 0⟩ ⟨.empty, .empty, _, _, 0⟩
    rw [hcleared, hzero]
    exact .intro .empty
  · have hlt : ¬ a.cells.size - 1 ≤ 0 := by
      have : a.cells.size ≠ 1 := hne
      omega
    show Twin _ ((Engine.make o).grow (a.cells.size - 1))
    rw [show (Engine.make o : Engine κ).grow (a.cells.size - 1) = _ from if_neg hlt]
    refine ⟨?_, rfl⟩
    show SearchState.Twin ⟨⟨a.clear, w.clear⟩, .empty, _, _, 0⟩
      ⟨Board.empty.grow (a.cells.size - 1), .empty, _, _, 0⟩
    rw [hcleared, Board.grow_empty, Nat.sub_add_cancel hpos]
    exact .intro .empty

/-- Adds constraints in order, each under its handle. A refusal ends the additions, since there is
no model then. -/
def addEach : List (Nat × List (Description κ)) → Engine κ → Except Fault (Engine κ)
  | [], e => .ok e
  | (handle, ds) :: constraints, e => do
    match ← e.add handle ds with
    | (.ok _, e) => addEach constraints e
    | (.error _, e) => return e.modifyControl fun control => { control with infeasible := true }

/-- The engine knows and asks for what a new one does, with the same variables, to which the
constraints are added. It remembers no clause that was learned, and nothing that holds under a
restriction. -/
structure Renewed (constraints : List (Nat × List (Description κ))) (e : Engine κ) : Prop where
  same : ∀ o, ∃ fresh, addEach constraints ((make o).grow e.numVariables) = .ok fresh ∧
    e.search.board = fresh.search.board ∧ e.search.arena = fresh.search.arena ∧
    e.search.head = fresh.search.head ∧ e.control.infeasible = fresh.control.infeasible
  references : e.search.learned.references = #[]
  restricted : e.control.restricted = false

end Engine

/-! ## Rebuilds -/

namespace Session

/-- The constraints of the entries that are present, with their handles, the first of which is
given. -/
def presentFrom (handle : Nat) (entries : List (BookEntry κ)) : List (Nat × List (Description κ)) :=
  (entries.zipIdx handle).filterMap fun entry =>
    if entry.1.removed then none else some (entry.2, entry.1.descriptions)

/-- The constraints that were added and not removed, each with its handle. -/
def remaining (s : Session κ) : List (Nat × List (Description κ)) :=
  presentFrom 0 s.book.entries.toList

theorem presentFrom_cons (handle : Nat) (entry : BookEntry κ) (entries : List (BookEntry κ)) :
    presentFrom handle (entry :: entries) =
      if entry.removed then presentFrom (handle + 1) entries
      else (handle, entry.descriptions) :: presentFrom (handle + 1) entries := by
  unfold presentFrom
  rw [List.zipIdx_cons, List.filterMap_cons]
  cases entry.removed <;> rfl

theorem le_of_mem_presentFrom {handle : Nat} {entries : List (BookEntry κ)}
    {constraint : Nat × List (Description κ)} (h : constraint ∈ presentFrom handle entries) :
    handle ≤ constraint.1 := by
  induction entries generalizing handle with
  | nil => cases h
  | cons entry entries ih =>
    rw [presentFrom_cons] at h
    split at h
    · exact Nat.le_of_succ_le (ih h)
    · rcases List.mem_cons.mp h with rfl | h
      · exact Nat.le_refl handle
      · exact Nat.le_of_succ_le (ih h)

theorem presentFrom_congr {entries entries' : List (BookEntry κ)} (handle : Nat)
    (h : entries'.map (fun entry => (entry.descriptions, entry.removed)) =
      entries.map fun entry => (entry.descriptions, entry.removed)) :
    presentFrom handle entries' = presentFrom handle entries := by
  induction entries generalizing entries' handle with
  | nil => rw [List.map_eq_nil_iff.mp h]
  | cons entry entries ih =>
    obtain ⟨entry', rest, rfl, hone, hrest⟩ := List.map_eq_cons_iff.mp h
    obtain ⟨hds, hremoved⟩ := Prod.mk.inj hone
    rw [presentFrom_cons, presentFrom_cons, ih (handle + 1) hrest]
    simp only [hds, hremoved]

/-- What is marked as removed is left out, and nothing else. -/
theorem presentFrom_set {entries : List (BookEntry κ)} {i : Nat} {entry : BookEntry κ}
    (handle : Nat) (h : i < entries.length) (hremoved : entry.removed = true) :
    presentFrom handle (entries.set i entry) =
      (presentFrom handle entries).filter fun constraint => constraint.1 != handle + i := by
  induction entries generalizing handle i with
  | nil => cases h
  | cons entry' entries ih =>
    have hothers : (presentFrom (handle + 1) entries).filter
        (fun constraint => constraint.1 != handle) = presentFrom (handle + 1) entries := by
      refine List.filter_eq_self.mpr fun constraint hmem => ?_
      have hlt := le_of_mem_presentFrom hmem
      simp only [bne_iff_ne]
      omega
    cases i with
    | zero =>
      simp only [List.set_cons_zero, presentFrom_cons, if_pos hremoved, Nat.add_zero]
      split
      · exact hothers.symm
      · rw [List.filter_cons_of_neg (by simp), hothers]
    | succ i =>
      have hshift : handle + 1 + i = handle + (i + 1) := by omega
      rw [List.set_cons_succ, presentFrom_cons, presentFrom_cons,
        ih (handle + 1) (Nat.lt_of_succ_lt_succ h), hshift]
      split
      · rfl
      · rw [List.filter_cons_of_pos (by simp)]

variable [CustomConstraint κ]

/-- Entries that are added again are added to a twin in the same order. -/
theorem attachEntries_matches (handle : Nat) (entries : List (BookEntry κ)) {e f : Engine κ}
    (h : e.Twin f) :
    Matches (fun x f' => x.2.search.Twin f'.search ∧
        f'.control.infeasible = (x.1.1 || x.2.control.infeasible))
      (attachEntries handle entries e) (Engine.addEach (presentFrom handle entries) f) := by
  induction entries generalizing handle e f with
  | nil => exact .ok ⟨h.search, h.infeasible⟩
  | cons entry entries ih =>
    rw [presentFrom_cons]
    unfold attachEntries
    split
    · exact Matches.bind_left (ih (handle + 1) h) fun x f' hx => hx
    · unfold Engine.addEach
      refine (h.add handle entry.descriptions).bind fun x y hxy => ?_
      obtain ⟨hresult, htwin⟩ := hxy
      obtain ⟨result, e₁⟩ := x
      obtain ⟨result', f₁⟩ := y
      cases hresult
      cases result with
      | ok references => exact Matches.bind_left (ih (handle + 1) htwin) fun x f' hx => hx
      | error refusal =>
        obtain ⟨search, analyser, control⟩ := e₁
        obtain ⟨search', analyser', control'⟩ := f₁
        exact .ok ⟨htwin.search, rfl⟩

theorem seen_attachEntries {n handle : Nat} {entries entries' : List (BookEntry κ)} {refused : Bool}
    {e e' : Engine κ}
    (hentries : ∀ entry ∈ entries, ∀ d ∈ entry.descriptions, Description.maxVariable d.literals ≤ n)
    (h : e.analyser.seen.size ≤ n + 1)
    (hrun : attachEntries handle entries e = .ok ((refused, entries'), e')) :
    e'.analyser.seen.size ≤ n + 1 := by
  induction entries generalizing handle entries' refused e with
  | nil =>
    cases hrun
    exact h
  | cons entry entries ih =>
    have hothers := fun entry' hentry => hentries entry' (List.mem_cons_of_mem entry hentry)
    unfold attachEntries at hrun
    split at hrun
    · obtain ⟨⟨⟨refused', rest⟩, e₁⟩, hrest, hrun⟩ := ok_of_bind hrun
      cases hrun
      exact ih hothers h hrest
    · obtain ⟨⟨result, e₁⟩, hadd, hrun⟩ := ok_of_bind hrun
      have h₁ := Engine.seen_add (hentries entry List.mem_cons_self) h hadd
      cases result with
      | ok references =>
        obtain ⟨⟨⟨refused', rest⟩, e₂⟩, hrest, hrun⟩ := ok_of_bind hrun
        cases hrun
        exact ih hothers h₁ hrest
      | error refusal =>
        cases hrun
        obtain ⟨search, analyser, control⟩ := e₁
        exact h₁

/-- No variable comes in when entries are added again, since theirs are known. -/
theorem numVariables_attachEntries {entries entries' : List (BookEntry κ)} {refused : Bool}
    {e e' : Engine κ} (h : Engine.Reachable .resting e)
    (hfits : ∀ entry ∈ entries, entry.Fits e.search.assignment.cells.size)
    (hrun : attachEntries 0 entries e = .ok ((refused, entries'), e')) :
    Engine.Reachable .resting e' ∧ e'.numVariables = e.numVariables := by
  obtain ⟨hg, -⟩ := (attachEntries_yields 0 ⟨h, Nat.le_refl _⟩ hfits).of_run hrun
  have hsize := h.orderly.wellFormed.clean.size
  have hsize' : e'.analyser.seen.size = e'.search.assignment.cells.size :=
    hg.reachable.orderly.wellFormed.clean.size
  have hle : e.search.assignment.cells.size ≤ e'.search.assignment.cells.size := hg.size_le
  have hseen := seen_attachEntries (n := e.search.assignment.cells.size - 1)
    (fun entry hentry d hd => ((hfits entry hentry).known d hd).maxVariable_le) (by omega) hrun
  refine ⟨hg.reachable, ?_⟩
  show e'.search.assignment.cells.size - 1 = e.search.assignment.cells.size - 1
  omega

omit [CustomConstraint κ] in
/-- Nothing that was learned is left if no constraint was. -/
theorem references_eq_nil {s : SearchState κ} (h : s.learned.Lists s.arena)
    (hadded : s.arena.Added) : s.learned.references = #[] := by
  rw [← Array.toList_eq_nil_iff, List.eq_nil_iff_forall_not_mem]
  intro r hr
  obtain ⟨c, hc, hlearned⟩ := h.learned r hr
  rw [hadded r c hc] at hlearned
  cases hlearned

/-- A rebuild leaves a new engine with what is in the book. -/
theorem Standing.rebuild_renewed {s s' : Session κ} (h : s.Standing)
    (hrun : (rebuild).run s = (.ok (), s')) :
    s'.remaining = s.remaining ∧ s'.engine.Renewed s.remaining := by
  obtain ⟨_, s₁, h₁, hrun⟩ := ok_of_run_bind hrun
  cases h₁
  obtain ⟨_, s₂, h₂, hrun⟩ := ok_of_run_bind hrun
  cases h₂
  obtain ⟨⟨refused, entries⟩, s₃, h₃, hrun⟩ := ok_of_run_bind hrun
  obtain ⟨hattach, hbook⟩ := ok_of_run_ofEngine h₃
  obtain ⟨_, s₄, h₄, hrun⟩ := ok_of_run_bind hrun
  cases h₄
  obtain ⟨e₃, book₃⟩ := s₃
  cases hbook
  have hsize : s.engine.clear.search.assignment.cells.size =
      s.engine.search.assignment.cells.size := by
    obtain ⟨⟨⟨⟨a, w⟩, arena, learned, order, head⟩, analyser, control⟩, book⟩ := s
    exact Array.size_replicate
  obtain ⟨hw, hblank, hrestricted, hinfeasible⟩ := Engine.clear_spec h.engine.orderly.wellFormed
  have ha := attachEntries_spec hw hblank.decisionLevel hinfeasible
    (fun entry hentry d hd => ((h.entries entry hentry).known d hd).proper) hattach
  obtain ⟨hreach, hnum⟩ := numVariables_attachEntries h.engine.cleared (hsize ▸ h.entries) hattach
  have hclear : s.engine.clear.numVariables = s.engine.numVariables := congrArg (· - 1) hsize
  have hremaining : presentFrom 0 entries = s.remaining := presentFrom_congr 0 ha.same
  have hsame : ∀ o, ∃ fresh : Engine κ,
      Engine.addEach s.remaining ((Engine.make o).grow e₃.numVariables) = .ok fresh ∧
        e₃.search.Twin fresh.search ∧
        fresh.control.infeasible = (refused || e₃.control.infeasible) := by
    intro o
    rw [hnum, hclear]
    exact (attachEntries_matches 0 s.book.entries.toList (h.engine.clear_twin o)).of_run hattach
  have hrestricted₃ : e₃.control.restricted = false := ha.alike.restricted.trans hrestricted
  have hreferences : e₃.search.learned.references = #[] := by
    obtain ⟨fresh, -, htwin, -⟩ := hsame Options.standard
    exact references_eq_nil hreach.orderly.wellFormed.search.lists htwin.added
  -- The flag of the engine is set after a refusal, and everything else is as it was.
  have hrenewed : ∀ e' : Engine κ, e'.search = e₃.search →
      e'.control.restricted = e₃.control.restricted →
      e'.control.infeasible = (refused || e₃.control.infeasible) → e'.Renewed s.remaining := by
    intro e' hsearch hr hi
    refine ⟨fun o => ?_, hsearch ▸ hreferences, hr.trans hrestricted₃⟩
    obtain ⟨fresh, hrun, htwin, hinf⟩ := hsame o
    have hn : e'.numVariables = e₃.numVariables := by
      unfold Engine.numVariables
      rw [hsearch]
    rw [hn, hsearch, hi]
    exact ⟨fresh, hrun, htwin.board_eq.symm, htwin.arena_eq.symm, htwin.head_eq.symm, hinf.symm⟩
  cases refused with
  | false =>
    cases hrun
    exact ⟨hremaining, hrenewed e₃ rfl rfl rfl⟩
  | true =>
    cases hrun
    obtain ⟨search, analyser, control⟩ := e₃
    exact ⟨hremaining, hrenewed _ rfl rfl rfl⟩

/-! ## Calls that rebuild -/

theorem Standing.remove_renewed {s : Session κ} (h : s.Standing) {handle : Nat}
    (hpresent : s.Present handle) :
    ∃ s', (remove handle).run s = (.ok (), s') ∧
      s'.remaining = s.remaining.filter (fun constraint => constraint.1 != handle) ∧
      s'.engine.Renewed s'.remaining := by
  obtain ⟨_, s', hrun, -⟩ := (h.remove_ends fun hnot => absurd hpresent hnot).exists_run
  refine ⟨s', hrun, ?_⟩
  obtain ⟨_, s₁, hmark, hrebuild⟩ := ok_of_run_bind hrun
  have h₁ : s₁.Standing :=
    ((h.markRemoved_ends (Q := fun _ => False) fun hnot => absurd hpresent hnot).of_run hmark).1
  obtain ⟨hsame, hrenewed⟩ := h₁.rebuild_renewed hrebuild
  obtain ⟨entry, hentry, -, rfl⟩ := ok_of_run_markRemoved hmark
  have hleft : remaining ⟨s.engine, { s.book with
      entries := s.book.entries.setIfInBounds handle { entry with removed := true } }⟩ =
        s.remaining.filter fun constraint => constraint.1 != handle := by
    have hlt : handle < s.book.entries.toList.length :=
      (Array.getElem?_eq_some_iff.mp hentry).1
    have hset : presentFrom 0 (s.book.entries.toList.set handle { entry with removed := true }) =
        _ :=
      presentFrom_set 0 hlt rfl
    rw [Nat.zero_add, ← Array.toList_setIfInBounds] at hset
    exact hset
  rw [hsame]
  exact ⟨hleft, hrenewed⟩

/-- What was derived under the old restriction is given up together with everything else. -/
theorem Standing.restrictDecisions_renewed {s s' : Session κ} (h : s.Standing)
    (hrestricted : s.engine.control.restricted = true) {vs : Option (List Nat)}
    (hrun : (restrictDecisions vs).run s = (.ok (), s')) :
    s'.remaining = s.remaining ∧ s'.engine.Renewed s'.remaining := by
  obtain ⟨_, s₁, h₁, hrun⟩ := ok_of_run_bind hrun
  obtain ⟨hback, hbook⟩ := ok_of_run_ofEngine h₁
  obtain ⟨e, hback, hret⟩ := ok_of_bind hback
  have he : e.restrictDecisions vs = s₁.engine := (Prod.mk.inj (Except.ok.inj hret)).2
  obtain ⟨hreach, -, hsize⟩ := (h.engine.backtrack_yields 0).of_run hback
  obtain ⟨-, -, hcontrol⟩ := Engine.backtrack_spec h.engine.orderly.wellFormed hback
  obtain ⟨-, hflag, -⟩ := Engine.restrictDecisions_spec hreach.orderly.wellFormed vs
  have hstanding : s₁.Standing := by
    refine h.grown ⟨he ▸ hreach.confined vs, ?_⟩ (congrArg Book.entries hbook)
      (.inr (congrArg Book.model hbook))
    rw [← he]
    obtain ⟨⟨board, arena, learned, order, head⟩, analyser, control⟩ := e
    exact Nat.le_of_eq hsize.symm
  obtain ⟨restricted, s₂, h₂, hrun⟩ := ok_of_run_bind hrun
  cases h₂
  have hrebuilds : s₁.engine.control.restricted = true := by
    rw [← he, hflag, hcontrol]
    exact hrestricted
  simp only [hrebuilds, if_true] at hrun
  obtain ⟨hsame, hrenewed⟩ := hstanding.rebuild_renewed hrun
  have hleft : s₁.remaining = s.remaining :=
    congrArg (fun book : Book κ => presentFrom 0 book.entries.toList) hbook
  rw [hsame]
  exact ⟨hleft, hrenewed⟩

section

variable {τ : Type} [Termination τ] {assumptions : List Int} {limit : Book κ → τ}
  {settle : τ → Book κ → Book κ}

/-- A question that is left open leaves nothing of its search. -/
theorem Standing.ask_renewed {s s' : Session κ} (h : s.Standing)
    (hentries : ∀ limit book, (settle limit book).entries = book.entries)
    (hmodel : ∀ limit book, (settle limit book).model = book.model)
    (hrun : (ask assumptions limit settle).run s = (.ok (.error .inconclusive), s')) :
    s'.remaining = s.remaining ∧ s'.engine.Renewed s'.remaining := by
  obtain ⟨ls, limit', outcome, e, hls, hsolve, hanswer⟩ := ok_of_run_ask hrun
  have hne := (ok_of_run_literals hls).2.1
  obtain ⟨hg, -⟩ := h.engine.growAll (assumptions.map Int.natAbs)
  have h₁ : Standing ⟨s.engine.growAll (assumptions.map Int.natAbs), s.book⟩ :=
    h.grown hg rfl (.inr rfl)
  have hsolved : Engine.Grown
      (s.engine.growAll (assumptions.map Int.natAbs)).search.assignment.cells.size
      e := by
    rcases hg.reachable.solve_cases hne (limit (forgetAnswer s.book)) with hy | ⟨hfault, -⟩
    · exact hy.of_run hsolve
    · rw [hfault] at hsolve
      cases hsolve
  have h₂ : Standing ⟨e, settle limit' (forgetAnswer s.book)⟩ :=
    h₁.grown hsolved (hentries limit' _) (.inl (hmodel limit' _))
  cases outcome with
  | inconclusive =>
    obtain ⟨_, s₃, hrebuild, hret⟩ := ok_of_run_bind hanswer
    cases hret
    obtain ⟨hsame, hrenewed⟩ := h₂.rebuild_renewed hrebuild
    have hleft : remaining ⟨e, settle limit' (forgetAnswer s.book)⟩ = s.remaining :=
      congrArg (fun entries : Array (BookEntry κ) => presentFrom 0 entries.toList)
        (hentries limit' (forgetAnswer s.book))
    rw [hsame]
    exact ⟨hleft, hrenewed⟩
  | satisfiable =>
    obtain ⟨model, s₃, -, hret⟩ := ok_of_run_bind hanswer
    cases hret
  | _ => cases hanswer

end

/-- Every call that rebuilds leaves what a new engine comes to with the constraints that are left:
the removal of a constraint that is present, another restriction of decisions while something
depends on the old one, and a query that is left open. -/
theorem Reachable.renews {s : Session κ} (h : s.Reachable) :
    (∀ handle, s.Present handle → ∃ s', (remove handle).run s = (.ok (), s') ∧
      s'.remaining = s.remaining.filter (fun constraint => constraint.1 != handle) ∧
      s'.engine.Renewed s'.remaining) ∧
    (s.engine.control.restricted = true → ∀ s',
      ((decideAll).run s = (.ok (), s') ∨ ∃ vs, (decideOnly vs).run s = (.ok (), s')) →
        s'.remaining = s.remaining ∧ s'.engine.Renewed s'.remaining) ∧
    ∀ assumptions s',
      ((∃ shared, (query assumptions shared).run s = (.ok (.error .inconclusive), s')) ∨
        ∃ polls budget, (queryInterrupted assumptions polls budget).run s =
          (.ok (.error .inconclusive), s')) →
        s'.remaining = s.remaining ∧ s'.engine.Renewed s'.remaining := by
  have hs := h.standing
  refine ⟨fun handle hpresent => hs.remove_renewed hpresent, fun hr s' hrun => ?_,
    fun assumptions s' hrun => ?_⟩
  · rcases hrun with hrun | ⟨vs, hrun⟩
    · exact hs.restrictDecisions_renewed hr hrun
    · obtain ⟨ls, s₁, hls, hrun⟩ := ok_of_run_bind hrun
      cases ok_of_run_decisionVariables hls
      obtain ⟨hg, -⟩ := hs.engine.growAll (vs.map id)
      have hs₁ : Standing ⟨s.engine.growAll (vs.map id), s.book⟩ := hs.grown hg rfl (.inr rfl)
      have hr₁ : (s.engine.growAll (vs.map id)).control.restricted = true :=
        (Engine.growAll_idles hs.engine.orderly.wellFormed (vs.map id)).alike.restricted.trans hr
      exact hs₁.restrictDecisions_renewed hr₁ hrun
  · rcases hrun with ⟨shared, hrun⟩ | ⟨polls, budget, hrun⟩
    · rw [query_eq_ask] at hrun
      refine hs.ask_renewed ?_ ?_ hrun
      · exact fun _ _ => rfl
      · exact fun _ _ => rfl
    · refine hs.ask_renewed ?_ ?_ hrun
      · exact fun _ _ => rfl
      · exact fun _ _ => rfl

/-- Two constraints, decisions on a third variable only, and a query that is stopped after such a
decision was forbidden. -/
def blockedChain : Session Empty :=
  ((queryInterrupted [] (Nat.ble 4) none).run ((decideOnly [3]).run withChain).2).2

theorem reachable_blockedChain : blockedChain.Reachable := by
  have hrestrict : ((Call.decideOnly [3]).run).run withChain =
      (.ok (), ((decideOnly [3]).run withChain).2) := Prod.ext (by decide +kernel) rfl
  have hstopped : (queryInterrupted [] (Nat.ble 4) none).run ((decideOnly [3]).run withChain).2 =
      (.ok (.error .budgetExceeded), blockedChain) := Prod.ext (by decide +kernel) rfl
  exact .call (c := .interrupted [] (Nat.ble 4) none)
    (.call undisturbed_withChain.lawful.reachable hrestrict) (run_discard_of_ok hstopped)

/-- One constraint is removed and the other one stays; and the restriction is lifted, with which the
forbidden decision is given up. -/
theorem Reachable.renews_of_blocked :
    (∃ s' : Session Empty, (remove 0).run blockedChain = (.ok (), s') ∧
      s'.remaining.map Prod.fst = [1] ∧ s'.engine.Renewed s'.remaining) ∧
    blockedChain.engine.control.restricted = true ∧
    ∃ s' : Session Empty, (decideAll).run blockedChain = (.ok (), s') ∧
      s'.remaining.map Prod.fst = [0, 1] ∧ s'.engine.Renewed s'.remaining := by
  have hpresent : blockedChain.Present 0 := by
    have hcheck : (blockedChain.book.entries[0]?.map (·.removed)) = some false := by decide +kernel
    obtain ⟨entry, hentry, hremoved⟩ := Option.map_eq_some_iff.mp hcheck
    exact ⟨entry, hentry, hremoved⟩
  have hrestricted : blockedChain.engine.control.restricted = true := by decide +kernel
  obtain ⟨hremove, hlift, -⟩ := Reachable.renews reachable_blockedChain
  obtain ⟨s₁, hrun₁, hleft₁, hrenewed₁⟩ := hremove 0 hpresent
  obtain ⟨_, s₂, hrun₂, -⟩ :=
    (reachable_blockedChain.standing.restrictDecisions_ends none).exists_run
  obtain ⟨hleft₂, hrenewed₂⟩ := hlift hrestricted s₂ (.inl hrun₂)
  refine ⟨⟨s₁, hrun₁, ?_, hrenewed₁⟩, hrestricted, s₂, hrun₂, ?_, hrenewed₂⟩
  · rw [hleft₁]
    decide +kernel
  · rw [hleft₂]
    decide +kernel

end Session

end ClauseLearning
