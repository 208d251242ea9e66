import ClauseLearning.Proofs.Running

/-!
# Calls of a session come to an end

A call that a caller may make (`Call.Valid`) returns, unless it is a query whose search goes through
as many stages as it may (`Call.Endures`). Whatever it returns with, the engine is one that was
accounted for, and the literals of the book and of the last model are of variables that the engine
knows (`Session.Standing`).

* `Session.Ends`: how a call ends, put together from its steps.
* `Call.ends`: any call.
* `Session.Reachable.standing`, `Session.Meets.reachable`: the engines of sessions, between two
  calls and in the midst of a query.
-/

namespace ClauseLearning

variable {κ : Type}

/-! ## Numbers -/

/-- The signed number denotes a literal. -/
def Denotes (n : Int) : Prop := n ≠ 0 ∧ 2 * n.natAbs + 1 < Word.bound32

theorem Denotes.ofDimacs {n : Int} (h : Denotes n) : ∃ l, Literal.ofDimacs n = .ok l := by
  unfold Literal.ofDimacs
  rw [if_neg h.1, if_pos h.2]
  exact ⟨_, rfl⟩

namespace Session

/-! ## Ends -/

section

variable {α β : Type}

/-- A call comes to a result of which `P` holds, together with the session that it leaves, or to a
violation of which `Q` holds. -/
def Ends (x : SessionM κ α) (s : Session κ) (P : α → Session κ → Prop) (Q : Violation → Prop) :
    Prop :=
  match x.run s with
  | (.ok a, s') => P a s'
  | (.error v, _) => Q v

namespace Ends

variable {x : SessionM κ α} {s s' : Session κ} {P : α → Session κ → Prop} {Q : Violation → Prop}

theorem of_run {a : α} (h : Ends x s P Q) (hrun : x.run s = (.ok a, s')) : P a s' := by
  unfold Ends at h
  rwa [hrun] at h

/-- A call without a violation comes to a result. -/
theorem exists_run (h : Ends x s P fun _ => False) : ∃ a s', x.run s = (.ok a, s') ∧ P a s' := by
  unfold Ends at h
  rcases hrun : x.run s with ⟨result, s'⟩
  rw [hrun] at h
  cases result with
  | ok a => exact ⟨a, s', rfl, h⟩
  | error v => exact h.elim

theorem mono (h : Ends x s P Q) {P' : α → Session κ → Prop}
    (hp : ∀ a s', x.run s = (.ok a, s') → P a s' → P' a s') : Ends x s P' Q := by
  unfold Ends at h ⊢
  rcases hrun : x.run s with ⟨result, s'⟩
  rw [hrun] at h
  cases result with
  | ok a => exact hp a s' hrun h
  | error v => exact h

theorem bind {f : α → SessionM κ β} {R : β → Session κ → Prop} (h : Ends x s P Q)
    (hf : ∀ a s', P a s' → Ends (f a) s' R Q) : Ends (x >>= f) s R Q := by
  unfold Ends at h ⊢
  rw [run_bind]
  rcases hrun : x.run s with ⟨result, s'⟩
  rw [hrun] at h
  cases result with
  | ok a => exact hf a s' h
  | error v => exact h

theorem discard (h : Ends x s P Q) :
    Ends (Functor.discard x) s (fun _ s' => ∃ a, P a s') Q := by
  have hbind : Ends (x >>= fun _ => pure ()) s (fun _ s' => ∃ a, P a s') Q :=
    h.bind fun a s' ha => ⟨a, ha⟩
  exact hbind

/-- What every element keeps, a list keeps. -/
theorem mapM {f : α → SessionM κ β} {xs : List α} {I : Session κ → Prop}
    (hf : ∀ x ∈ xs, ∀ s, I s → Ends (f x) s (fun _ s' => I s') Q) {s : Session κ} (h : I s) :
    Ends (xs.mapM f) s (fun _ s' => I s') Q := by
  induction xs generalizing s with
  | nil => exact h
  | cons x xs ih =>
    rw [List.mapM_cons]
    refine (hf x List.mem_cons_self s h).bind fun _ s' h' => ?_
    exact (ih (fun y hy => hf y (List.mem_cons_of_mem _ hy)) h').bind fun _ _ h'' => h''

theorem ofEngine [CustomConstraint κ] {f : Engine κ → Except Fault (α × Engine κ)}
    (h : Yields (f s.engine) fun x => P x.1 ⟨x.2, s.book⟩) : Ends (ofEngine f) s P Q := by
  obtain ⟨x, hx, hp⟩ := h
  obtain ⟨engine, book⟩ := s
  simp only [Ends, Session.ofEngine, ExceptT.run]
  rw [hx]
  exact hp

theorem of_fault [CustomConstraint κ] {f : Engine κ → Except Fault (α × Engine κ)} {fault : Fault}
    (h : f s.engine = .error fault) (hq : Q (.internal fault)) :
    Ends (Session.ofEngine f) s P Q := by
  obtain ⟨engine, book⟩ := s
  simp only [Ends, Session.ofEngine, ExceptT.run]
  rw [h]
  exact hq

end Ends

end

end Session

/-! ## What is in the book -/

/-- The literals of the entry are of known variables, and its parts are attached at different
places. -/
structure BookEntry.Fits (size : Nat) (entry : BookEntry κ) : Prop where
  known : ∀ d ∈ entry.descriptions, d.Known size
  nodup : entry.references.Nodup

theorem Description.Known.mono {d : Description κ} {size size' : Nat} (h : d.Known size)
    (hle : size ≤ size') : d.Known size' := by
  cases d with
  | clause ls => exact fun l hl => (h l hl).mono hle
  | atLeast ls degree => exact fun l hl => (h l hl).mono hle
  | parity ls even => exact fun l hl => (h l hl).mono hle
  | custom c => exact h.elim

theorem BookEntry.Fits.mono {entry : BookEntry κ} {size size' : Nat} (h : entry.Fits size)
    (hle : size ≤ size') : entry.Fits size' :=
  ⟨fun d hd => (h.known d hd).mono hle, h.nodup⟩

variable [CustomConstraint κ]

/-- The engine is accounted for, and it knows all variables that there are in the book. -/
structure Session.Standing (s : Session κ) : Prop where
  engine : Engine.Reachable .resting s.engine
  entries : ∀ entry ∈ s.book.entries.toList, entry.Fits s.engine.search.assignment.cells.size
  model : ∀ ls, s.book.model = some ls → ∀ l ∈ ls, l.Known s.engine.search.assignment.cells.size

namespace Session

namespace Standing

variable {s s' : Session κ}

/-- A call of the engine that leaves the constraints in the book alone. -/
theorem grown (h : s.Standing) (hg : Engine.Grown s.engine.search.assignment.cells.size s'.engine)
    (hentries : s'.book.entries = s.book.entries)
    (hmodel : s'.book.model = none ∨ s'.book.model = s.book.model) : s'.Standing := by
  refine ⟨hg.reachable, fun entry hentry => ?_, fun ls hls l hl => ?_⟩
  · rw [hentries] at hentry
    exact (h.entries entry hentry).mono hg.size_le
  · rcases hmodel with hnone | hsame
    · rw [hnone] at hls
      cases hls
    · rw [hsame] at hls
      exact (h.model ls hls l hl).mono hg.size_le

theorem known {s : Session κ} (h : s.Standing) {entry : BookEntry κ} {i : Nat}
    (hentry : s.book.entries[i]? = some entry) :
    entry.Fits s.engine.search.assignment.cells.size :=
  h.entries entry (Array.mem_toList_iff.mpr (Array.mem_of_getElem? hentry))

theorem make (o : Options) : (make o : Session κ).Standing := ⟨.make o, nofun, nofun⟩

end Standing

end Session

/-- Variables that are made known one after the other. -/
theorem Engine.Reachable.growAll {e : Engine κ} (h : Reachable .resting e) (ns : List Nat) :
    Grown e.search.assignment.cells.size (e.growAll ns) ∧
      ∀ n ∈ ns, n ≠ 0 → n < (e.growAll ns).search.assignment.cells.size := by
  induction ns generalizing e with
  | nil => exact ⟨⟨h, Nat.le_refl _⟩, nofun⟩
  | cons m ns ih =>
    obtain ⟨hadv, -, -, -, hknown⟩ := grow_spec h.orderly.wellFormed m
    obtain ⟨hg, hall⟩ := ih (h.grown m)
    refine ⟨⟨hg.reachable, Nat.le_trans hadv.size hg.size_le⟩, fun n hn hne => ?_⟩
    rcases List.mem_cons.mp hn with rfl | hn
    · exact Nat.lt_of_lt_of_le (hknown n hne (Nat.le_refl n)) hg.size_le
    · exact hall n hn hne

namespace Session

variable {s : Session κ} {Q : Violation → Prop}

/-! ## Additions -/

/-- A number that denotes a literal is read without a violation. -/
theorem Standing.literal_ends (h : s.Standing) {n : Int} (hq : ¬ Denotes n → ∀ v, Q v) :
    Ends (literal n) s (fun _ s' => s'.Standing) Q := by
  have h₁ : Standing ⟨s.engine.grow n.natAbs, s.book⟩ :=
    h.grown (h.engine.growAll [n.natAbs]).1 rfl (.inr rfl)
  refine Ends.bind (x := ofSteadyEngine (·.literal n)) (P := fun result s' =>
    result = Literal.ofDimacs n ∧ s'.Standing) ⟨rfl, h₁⟩ fun result s' ⟨hresult, h'⟩ => ?_
  cases result with
  | ok l => exact h'
  | error e =>
    refine hq (fun hdenotes => ?_) _
    obtain ⟨l, hl⟩ := hdenotes.ofDimacs
    rw [hl] at hresult
    cases hresult

/-- The literals that are read are of known variables then. -/
theorem Standing.literals_ends (h : s.Standing) {ns : List Int}
    (hq : (¬ ∀ n ∈ ns, Denotes n) → ∀ v, Q v) :
    Ends (literals ns) s (fun ls s' => (literals ns).run s = (.ok ls, s') ∧ s'.Standing ∧
      ∀ l ∈ ls, l.Known s'.engine.search.assignment.cells.size) Q := by
  have hone : ∀ n ∈ ns, ∀ s : Session κ, s.Standing →
      Ends (literal n) s (fun _ s' => s'.Standing) Q :=
    fun n hn s hs => hs.literal_ends fun hnot => hq fun hall => hnot (hall n hn)
  refine (Ends.mapM hone h).mono fun ls s' hrun h' => ⟨hrun, h', ?_⟩
  obtain ⟨rfl, hne, hns⟩ := ok_of_run_literals hrun
  obtain ⟨-, hknown⟩ := h.engine.growAll (ns.map Int.natAbs)
  refine fun l hl => ⟨hne l hl, hknown l.var ?_ (hne l hl)⟩
  rw [← Literal.natAbs_toDimacs l, ← hns]
  exact List.mem_map_of_mem (List.mem_map_of_mem hl)

theorem Standing.addConstraint_ends (h : s.Standing) {ds : List (Description κ)}
    (hk : ∀ d ∈ ds, d.Known s.engine.search.assignment.cells.size) :
    Ends (addConstraint ds) s (fun _ s' => s'.Standing) Q := by
  have hadd := h.engine.add_yields s.book.entries.size fun d hd => (hk d hd).proper
  refine Ends.bind (x := ofEngine (·.add s.book.entries.size ds)) (P := fun result s' =>
    s'.book = s.book ∧ Engine.Grown s.engine.search.assignment.cells.size s'.engine ∧
      ∀ attached, result = .ok attached → attached.Nodup)
    (.ofEngine (hadd.mono fun x hx => ⟨rfl, hx⟩)) fun result s₁ ⟨hbook, hg, hnodup⟩ => ?_
  have h₁ : s₁.Standing := h.grown hg (congrArg Book.entries hbook)
      (.inr (congrArg Book.model hbook))
  cases result with
  | error refusal => exact h₁
  | ok attached =>
    refine ⟨h₁.engine, fun entry hentry => ?_, h₁.model⟩
    have hentry' : entry ∈ (s₁.book.entries.push ⟨ds, attached, false⟩).toList := hentry
    rw [Array.toList_push] at hentry'
    rcases List.mem_append.mp hentry' with hold | hnew
    · exact h₁.entries entry hold
    · rw [List.mem_singleton.mp hnew]
      exact ⟨fun d hd => (hk d hd).mono hg.size_le, hnodup attached rfl⟩

theorem Standing.add_ends (h : s.Standing) {a : Addition}
    (hq : (¬ ∀ n ∈ a.numbers, Denotes n) → ∀ v, Q v) :
    Ends (a.run : SessionM κ (Except Refusal Nat)) s (fun _ s' => s'.Standing) Q := by
  rw [a.run_eq]
  exact (h.literals_ends hq).bind fun ls s' ⟨_, h', hk⟩ => h'.addConstraint_ends (Addition.known hk)

/-! ## Building anew -/

/-- Entries are added again, up to the first that is refused. -/
theorem attachEntries_yields (handle : Nat) {entries : List (BookEntry κ)} {e : Engine κ}
    {size : Nat} (h : Engine.Grown size e) (hfits : ∀ entry ∈ entries, entry.Fits size) :
    Yields (attachEntries handle entries e) fun x => Engine.Grown size x.2 ∧
      ∀ entry ∈ x.1.2, entry.Fits size := by
  have hbare : ∀ entry : BookEntry κ, entry.Fits size →
      ({ entry with references := [] } : BookEntry κ).Fits size :=
    fun entry hentry => ⟨hentry.known, List.nodup_nil⟩
  induction entries generalizing handle e with
  | nil => exact .ok ⟨h, fun _ hmem => absurd hmem List.not_mem_nil⟩
  | cons entry entries ih =>
    have hone := hfits entry List.mem_cons_self
    have hothers : ∀ entry' ∈ entries, entry'.Fits size := fun entry' hentry =>
      hfits entry' (List.mem_cons_of_mem _ hentry)
    unfold attachEntries
    split
    · refine (ih (handle + 1) h hothers).bind fun x hx => .ok ⟨hx.1, ?_⟩
      exact List.forall_mem_cons.mpr ⟨hbare entry hone, hx.2⟩
    · refine (h.reachable.add_yields handle fun d hd => (hone.known d hd).proper).bind
        fun x hx => ?_
      obtain ⟨hg, hnodup⟩ := hx
      obtain ⟨result, e₁⟩ := x
      have h₁ : Engine.Grown size e₁ := ⟨hg.reachable, Nat.le_trans h.size_le hg.size_le⟩
      cases result with
      | ok attached =>
        refine (ih (handle + 1) h₁ hothers).bind fun x hx => .ok ⟨hx.1, ?_⟩
        exact List.forall_mem_cons.mpr ⟨⟨hone.known, hnodup attached rfl⟩, hx.2⟩
      | error refusal =>
        refine .ok ⟨⟨h₁.reachable.report _, ?_⟩, List.forall_mem_cons.mpr ⟨hbare entry hone, ?_⟩⟩
        · obtain ⟨search, analyser, control⟩ := e₁
          exact h₁.size_le
        · intro entry' hentry
          obtain ⟨entry'', hmem, rfl⟩ := List.mem_map.mp hentry
          exact hbare entry'' (hothers entry'' hmem)

theorem Standing.rebuild_ends (h : s.Standing) :
    Ends rebuild s (fun _ s' => s'.Standing ∧ s'.book.model = s.book.model) Q := by
  have hsize : s.engine.clear.search.assignment.cells.size =
      s.engine.search.assignment.cells.size := by
    obtain ⟨⟨⟨⟨a, w⟩, arena, learned, order, head⟩, analyser, control⟩, book⟩ := s
    exact Array.size_replicate
  have hattach := attachEntries_yields 0
    (⟨h.engine.cleared, Nat.le_of_eq hsize.symm⟩ : Engine.Grown _ s.engine.clear) h.entries
  refine Ends.bind (x := modifyEngine (·.clear))
    (P := fun _ s₁ => s₁ = ⟨s.engine.clear, s.book⟩) rfl fun _ s₁ hs₁ => ?_
  subst hs₁
  refine Ends.bind (x := ofEngine (attachEntries 0 s.book.entries.toList))
    (s := ⟨s.engine.clear, s.book⟩) (P := fun x s₂ =>
    s₂.book = s.book ∧ Engine.Grown s.engine.search.assignment.cells.size s₂.engine ∧
      ∀ entry ∈ x.2, entry.Fits s.engine.search.assignment.cells.size)
    (.ofEngine (hattach.mono fun x hx => ⟨rfl, hx⟩)) fun x s₂ ⟨hbook, hg, hfits⟩ => ?_
  obtain ⟨refused, entries⟩ := x
  have h₂ : Standing ⟨s₂.engine, { s₂.book with entries := entries.toArray }⟩ := by
    refine ⟨hg.reachable, fun entry hentry => ?_, fun ls hls l hl => ?_⟩
    · exact (hfits entry hentry).mono hg.size_le
    · rw [hbook] at hls
      exact (h.model ls hls l hl).mono hg.size_le
  refine Ends.bind (x := modifyBook fun book => { book with entries := entries.toArray })
    (P := fun _ s₃ => s₃ = ⟨s₂.engine, { s₂.book with entries := entries.toArray }⟩) rfl
    fun _ s₃ hs₃ => ?_
  subst hs₃
  have hmodel : s₂.book.model = s.book.model := congrArg Book.model hbook
  cases refused with
  | false => exact ⟨h₂, hmodel⟩
  | true =>
    obtain ⟨⟨search, analyser, control⟩, book⟩ := s₂
    exact ⟨h₂.grown ⟨h₂.engine.flag true, Nat.le_refl _⟩ rfl (.inr rfl), hmodel⟩

/-! ## Queries -/

/-- The literals of a model are of known variables. -/
theorem model_known {e : Engine κ} (h : Engine.Reachable .resting e) :
    ∀ l ∈ e.model.1, l.Known e.search.assignment.cells.size := by
  have hcon := h.orderly.wellFormed.search.onBoard.consistent
  obtain ⟨-, -, ls, hmodel, hvars⟩ := e.model_spec h.orderly.wellFormed
  intro l hl
  rw [hmodel] at hl
  rcases List.mem_append.mp hl with hl | hl
  · exact ⟨hcon.var_ne_zero hl, hcon.var_lt hl⟩
  · have hv : l.var ∈ e.search.assignment.vars :=
      List.mem_of_mem_filter (hvars ▸ List.mem_map_of_mem hl)
    rw [Assignment.vars, List.mem_range'_1, Assignment.numVariables] at hv
    exact ⟨by omega, by omega⟩

theorem Standing.takeModel_ends (h : s.Standing) :
    Ends takeModel s (fun _ s' => s'.Standing) Q := by
  have hw := h.engine.orderly.wellFormed
  have hsize : s.engine.model.2.search.assignment = s.engine.search.assignment :=
    (s.engine.model_spec hw).2.1
  have hback := h.engine.modelled.backtrack_yields 0
  refine Ends.bind (x := ofSteadyEngine (·.model))
    (P := fun ls s₁ => ls = s.engine.model.1 ∧ s₁ = ⟨s.engine.model.2, s.book⟩) ⟨rfl, rfl⟩
    fun ls s₁ ⟨hls, hs₁⟩ => ?_
  subst hls hs₁
  refine Ends.bind (x := ofEngine fun e => do return ((), ← e.backtrack 0))
    (s := ⟨s.engine.model.2, s.book⟩) (P := fun _ s₂ => s₂.book = s.book ∧
      Engine.Reachable .resting s₂.engine ∧
      s₂.engine.search.assignment.cells.size = s.engine.search.assignment.cells.size)
    (.ofEngine (hback.bind fun e ⟨he, _, hsame⟩ => .ok ⟨rfl, he, by rw [hsame, hsize]⟩))
    fun _ s₂ ⟨hbook, he, hsame⟩ => ?_
  refine ⟨he, fun entry hentry => ?_, fun ls hls l hl => ?_⟩
  · have hentry' : entry ∈ s₂.book.entries.toList := hentry
    rw [hbook] at hentry'
    show entry.Fits s₂.engine.search.assignment.cells.size
    rw [hsame]
    exact h.entries entry hentry'
  · cases hls
    show l.Known s₂.engine.search.assignment.cells.size
    rw [hsame]
    exact model_known h.engine l ((List.mergeSort_perm _ _).mem_iff.mp hl)

theorem Standing.answer_ends (h : s.Standing) (outcome : Outcome) :
    Ends (answer outcome) s (fun _ s' => s'.Standing) Q := by
  cases outcome with
  | satisfiable => exact h.takeModel_ends.bind fun _ _ h' => h'
  | inconclusive => exact h.rebuild_ends.bind fun _ _ h' => h'.1
  | _ => exact ⟨h.engine, h.entries, h.model⟩

/-- A query is answered unless it lacks steps. -/
theorem Standing.ask_ends {τ : Type} [Termination τ] {assumptions : List Int} {limit : Book κ → τ}
    {settle : τ → Book κ → Book κ} (h : s.Standing)
    (hq : (¬ ∀ n ∈ assumptions, Denotes n) → ∀ v, Q v)
    (hsteps : (∃ ls s₁, (literals assumptions).run s = (.ok ls, s₁) ∧ s₁.engine.Endures ls) →
      Q (.internal .outOfSteps))
    (hentries : ∀ limit book, (settle limit book).entries = book.entries)
    (hmodel : ∀ limit book, (settle limit book).model = book.model) :
    Ends (ask assumptions limit settle) s (fun _ s' => s'.Standing) Q := by
  refine (h.literals_ends hq).bind fun ls s₁ ⟨hrun, h₁, hk⟩ => ?_
  refine Ends.bind (x := modifyBook forgetAnswer)
    (P := fun _ s₂ => s₂ = ⟨s₁.engine, forgetAnswer s₁.book⟩) rfl fun _ s₂ hs₂ => ?_
  subst hs₂
  refine Ends.bind (x := readBook limit) (s := ⟨s₁.engine, forgetAnswer s₁.book⟩)
    (P := fun _ s₂ => s₂ = ⟨s₁.engine, forgetAnswer s₁.book⟩) rfl fun limit' s₂ hs₂ => ?_
  subst hs₂
  refine Ends.bind (P := fun _ s₂ => s₂.book = forgetAnswer s₁.book ∧
    Engine.Grown s₁.engine.search.assignment.cells.size s₂.engine) ?_ fun x s₂ ⟨hbook, hg⟩ => ?_
  · rcases h₁.engine.solve_cases (fun l hl => (hk l hl).1) limit' with hy | ⟨hfault, hendures⟩
    · exact .ofEngine (hy.bind fun x hx => .ok ⟨rfl, hx⟩)
    · refine .of_fault ?_ (hsteps ⟨ls, s₁, hrun, hendures⟩)
      rw [hfault]
      rfl
  refine Ends.bind (x := modifyBook (settle x.2))
    (P := fun _ s₃ => s₃ = ⟨s₂.engine, settle x.2 s₂.book⟩) rfl fun _ s₃ hs₃ => ?_
  subst hs₃
  have h₃ : Standing ⟨s₂.engine, settle x.2 s₂.book⟩ := by
    refine h₁.grown hg ?_ (.inl ?_)
    · exact (hentries x.2 s₂.book).trans (by rw [hbook]; rfl)
    · exact (hmodel x.2 s₂.book).trans (by rw [hbook]; rfl)
  exact h₃.answer_ends x.1

/-! ## Removals and restrictions -/

/-- The handle is of a constraint that was added and not removed. -/
def Present (handle : Nat) (s : Session κ) : Prop :=
  ∃ entry, s.book.entries[handle]? = some entry ∧ entry.removed = false

theorem Standing.markRemoved_ends (h : s.Standing) {handle : Nat}
    (hq : ¬ s.Present handle → ∀ v, Q v) :
    Ends (markRemoved handle) s (fun _ s' => s'.Standing ∧
      s'.book.entries.size = s.book.entries.size) Q := by
  refine Ends.bind (x := readBook (·.entries[handle]?))
    (P := fun found s₁ => found = s.book.entries[handle]? ∧ s₁ = s) ⟨rfl, rfl⟩
    fun found s₁ ⟨hfound, hs₁⟩ => ?_
  subst hs₁
  cases found with
  | none =>
    refine hq (fun ⟨entry, hentry, _⟩ => ?_) _
    rw [← hfound] at hentry
    cases hentry
  | some entry =>
    dsimp only
    split
    · rename_i hremoved
      refine hq (fun ⟨entry', hentry, hpresent⟩ => ?_) _
      rw [← hfound] at hentry
      cases hentry
      rw [hremoved] at hpresent
      cases hpresent
    · refine ⟨⟨h.engine, fun entry' hentry => ?_, h.model⟩, Array.size_setIfInBounds⟩
      rcases List.mem_or_eq_of_mem_set (Array.toList_setIfInBounds .. ▸ hentry) with hold | rfl
      · exact h.entries entry' hold
      · exact ⟨(h.known hfound.symm).known, (h.known hfound.symm).nodup⟩

theorem Standing.remove_ends (h : s.Standing) {handle : Nat} (hq : ¬ s.Present handle → ∀ v, Q v) :
    Ends (remove handle) s (fun _ s' => s'.Standing) Q :=
  (h.markRemoved_ends hq).bind fun _ _ h' => h'.1.rebuild_ends.mono fun _ _ _ h'' => h''.1

theorem Standing.dropReferences_ends (h : s.Standing) (handle : Nat) :
    Ends (modifyBook fun book => { book with
      entries := book.entries.modify handle fun entry => { entry with references := [] } }) s
      (fun _ s' => s'.Standing) Q := by
  refine ⟨h.engine, fun entry hentry => ?_, h.model⟩
  obtain ⟨i, hi⟩ := List.mem_iff_getElem?.mp hentry
  rw [Array.getElem?_toList, Array.getElem?_modify] at hi
  split at hi
  · obtain ⟨entry', hentry', rfl⟩ := Option.map_eq_some_iff.mp hi
    exact ⟨(h.known hentry').known, List.nodup_nil⟩
  · exact h.known hi

theorem Standing.removeSubsumed_ends (h : s.Standing) {handle : Nat}
    (hq : ¬ (s.Present handle ∧ handle + 1 = s.book.entries.size) → ∀ v, Q v) :
    Ends (removeSubsumed handle) s (fun _ s' => s'.Standing) Q := by
  refine Ends.bind (x := readBook (·.entries.size))
    (P := fun size s₁ => size = s.book.entries.size ∧ s₁ = s) ⟨rfl, rfl⟩
    fun size s₁ ⟨hsize, hs₁⟩ => ?_
  subst hs₁
  split
  · rename_i hne
    exact hq (fun hvalid => hne (hvalid.2.trans hsize.symm)) _
  · rename_i heq
    have heq : handle + 1 = s₁.book.entries.size := by
      rw [← hsize]
      exact Decidable.not_not.mp heq
    refine Ends.bind (x := markRemoved handle)
      (h.markRemoved_ends fun hnot => hq fun hvalid => hnot hvalid.1) fun _ s₂ ⟨h₂, _⟩ => ?_
    have hattached : (((s₂.book.entries[handle]?).map (·.references)).getD []).Nodup := by
      cases hentry : s₂.book.entries[handle]? with
      | none => exact List.nodup_nil
      | some entry => exact (h₂.known hentry).nodup
    refine Ends.bind (P := fun references s₃ => references.Nodup ∧ s₃ = s₂) ?_
      fun references s₃ ⟨hnodup, hs₃⟩ => ?_
    · exact ⟨hattached, rfl⟩
    · subst hs₃
      refine (h₂.dropReferences_ends handle).bind fun _ s₄ h₄ => .ofEngine ?_
      refine (h₄.engine.remove_yields hnodup handle).bind fun e he => .ok ?_
      exact h₄.grown he rfl (.inr rfl)

theorem Standing.restrictDecisions_ends (h : s.Standing) (vs : Option (List Nat)) :
    Ends (restrictDecisions vs) s (fun _ s' => s'.Standing) Q := by
  have hengine : Ends (ofEngine fun e => do return ((), (← e.backtrack 0).restrictDecisions vs)) s
      (fun _ s' => s'.Standing) Q := by
    refine .ofEngine ((h.engine.backtrack_yields 0).bind fun e ⟨he, _, hsize⟩ => .ok ?_)
    refine h.grown ⟨he.confined vs, ?_⟩ rfl (.inr rfl)
    obtain ⟨⟨board, arena, learned, order, head⟩, analyser, control⟩ := e
    exact Nat.le_of_eq hsize.symm
  refine hengine.bind fun _ s₁ h₁ => ?_
  refine Ends.bind (x := readEngine (·.control.restricted)) (P := fun _ s₂ => s₂ = s₁) rfl
    fun restricted s₂ hs₂ => ?_
  subst hs₂
  cases restricted with
  | false => exact h₁
  | true => exact h₁.rebuild_ends.mono fun _ _ _ h' => h'.1

theorem Standing.decideOnly_ends (h : s.Standing) {vs : List Nat}
    (hq : (¬ ∀ v ∈ vs, v ≠ 0 ∧ v ≤ maxVariable) → ∀ w, Q w) :
    Ends (decideOnly vs) s (fun _ s' => s'.Standing) Q := by
  refine (Ends.mapM (I := Standing) (fun v hv s hs => ?_) h).bind fun vs s₁ h₁ =>
    h₁.restrictDecisions_ends (some vs)
  by_cases hvalid : v ≠ 0 ∧ v ≤ maxVariable
  · have hle : v ≤ 0x100000000 / 2 - 1 := hvalid.2
    have hdenotes : Denotes (v : Int) := by
      refine ⟨Int.natCast_ne_zero.mpr hvalid.1, ?_⟩
      show 2 * v + 1 < 0x100000000
      omega
    unfold decisionVariable
    rw [if_neg (Nat.not_lt.mpr hvalid.2)]
    exact (hs.literal_ends fun hnot => absurd hdenotes hnot).bind fun _ _ h' => h'
  · have hq' : ∀ w, Q w := hq fun hall => hvalid (hall v hv)
    unfold decisionVariable
    split
    · exact hq' _
    · exact (hs.literal_ends fun _ => hq').bind fun _ _ h' => h'

end Session

/-! ## Any call -/

namespace Call

/-- What a caller may ask of an engine: numbers denote literals, variables can be named, and what is
removed is there. A prime implicant is computed from the book alone and not among these calls. -/
inductive Valid (s : Session κ) : Call → Prop
  | newVariables {n : Nat} (h : n ≤ Session.maxVariable) : Valid s (newVariables n)
  | add {a : Addition} (h : ∀ n ∈ a.numbers, Denotes n) : Valid s (add a)
  | query {assumptions : List Int} {shared : Bool} (h : ∀ n ∈ assumptions, Denotes n) :
      Valid s (query assumptions shared)
  | interrupted {assumptions : List Int} {polls : Nat → Bool} {budget : Option Condition}
      (h : ∀ n ∈ assumptions, Denotes n) : Valid s (interrupted assumptions polls budget)
  | remove {handle : Nat} (h : s.Present handle) : Valid s (remove handle)
  | removeSubsumed {handle : Nat} (h : s.Present handle ∧ handle + 1 = s.book.entries.size) :
      Valid s (removeSubsumed handle)
  | decideOnly {vs : List Nat} (h : ∀ v ∈ vs, v ≠ 0 ∧ v ≤ Session.maxVariable) :
      Valid s (decideOnly vs)
  | decideAll : Valid s decideAll
  | takeEvents : Valid s takeEvents
  | requestStop : Valid s requestStop
  | reset : Valid s reset

/-- The call is a query whose search goes through as many stages as it may. -/
def Endures (s : Session κ) : Call → Prop
  | query assumptions _ => ∃ ls s₁, (Session.literals assumptions).run s = (.ok ls, s₁) ∧
      s₁.engine.Endures ls
  | interrupted assumptions _ _ => ∃ ls s₁,
      (Session.literals assumptions).run s = (.ok ls, s₁) ∧ s₁.engine.Endures ls
  | _ => False

/-- A call returns with a session in order. The reasons why it may not are that it is not valid, and
that it is a query that lacks steps. -/
theorem ends {s : Session κ} (h : s.Standing) (c : Call) :
    Session.Ends (c.run : SessionM κ Unit) s (fun _ s' => s'.Standing)
      fun v => c.Valid s → v = .internal .outOfSteps ∧ c.Endures s := by
  have hdiscard : ∀ {α : Type} {x : SessionM κ α} {Q : Violation → Prop},
      Session.Ends x s (fun _ s' => s'.Standing) Q →
        Session.Ends (Functor.discard x) s (fun _ s' => s'.Standing) Q :=
    fun hx => hx.discard.mono fun _ _ _ ⟨_, h'⟩ => h'
  cases c with
  | newVariables n =>
    refine hdiscard ?_
    unfold Session.newVariables
    split
    · rename_i hlarge
      intro hvalid
      cases hvalid with | newVariables hn => exact absurd hn (Nat.not_le.mpr hlarge)
    · refine Session.Ends.bind (x := Session.modifyEngine (·.grow n))
        (P := fun _ s₁ => s₁ = ⟨s.engine.grow n, s.book⟩) rfl fun _ s₁ hs₁ => ?_
      subst hs₁
      exact h.grown (h.engine.growAll [n]).1 rfl (.inr rfl)
  | add a =>
    exact hdiscard (h.add_ends fun hnot v hvalid => by
      cases hvalid with | add hn => exact absurd hn hnot)
  | query assumptions shared =>
    refine hdiscard ?_
    rw [Session.query_eq_ask]
    refine h.ask_ends (fun hnot v hvalid => ?_) (fun hsteps _ => ⟨rfl, hsteps⟩) (fun _ _ => rfl)
      fun _ _ => rfl
    cases hvalid with
    | query hn => exact absurd hn hnot
  | interrupted assumptions polls budget =>
    refine hdiscard (h.ask_ends (fun hnot v hvalid => ?_) (fun hsteps _ => ⟨rfl, hsteps⟩)
      (fun _ _ => rfl) fun _ _ => rfl)
    cases hvalid with
    | interrupted hn => exact absurd hn hnot
  | remove handle =>
    refine h.remove_ends fun hnot v hvalid => ?_
    cases hvalid with
    | remove hp => exact absurd hp hnot
  | removeSubsumed handle =>
    refine h.removeSubsumed_ends fun hnot v hvalid => ?_
    cases hvalid with
    | removeSubsumed hp => exact absurd hp hnot
  | decideOnly vs =>
    refine h.decideOnly_ends fun hnot v hvalid => ?_
    cases hvalid with
    | decideOnly hv => exact absurd hv hnot
  | decideAll => exact h.restrictDecisions_ends none
  | computeImplicant =>
    refine hdiscard ?_
    unfold Session.Ends
    rcases hrun : Session.computeImplicant.run s with ⟨result, s'⟩
    cases result with
    | ok ls =>
      obtain ⟨model, implicant, -, -, -, rfl⟩ := Session.computeImplicant_spec hrun
      obtain ⟨⟨search, analyser, control⟩, book⟩ := s
      exact h.grown ⟨h.engine.report _, Nat.le_refl _⟩ rfl (.inr rfl)
    | error v =>
      intro hvalid
      cases hvalid
  | takeEvents =>
    obtain ⟨⟨search, analyser, control⟩, book⟩ := s
    have hnoted := h.engine.noted { control with events := [] } (.of_noted rfl) rfl
    exact h.grown ⟨hnoted, Nat.le_refl _⟩ rfl (.inr rfl)
  | requestStop => exact ⟨h.engine, h.entries, h.model⟩
  | reset =>
    have hfresh := Session.Standing.make (κ := κ) s.book.options
    exact ⟨hfresh.engine, hfresh.entries, hfresh.model⟩

end Call

/-- Whatever calls return with, the engine is accounted for, and so is what the book says. -/
theorem Session.Reachable.standing {s : Session κ} (h : s.Reachable) : s.Standing := by
  induction h with
  | make o => exact .make o
  | @call c s s' _ hrun ih => exact (Call.ends ih c).of_run hrun

/-- Every stage that a query comes to is one of an engine that is accounted for. -/
theorem Session.Meets.reachable {s : Session κ} (h : s.Standing) {assumptions : List Int}
    {last : Stage} {e : Engine κ} (hm : Meets assumptions s last e) :
    Engine.Reachable (.searching last) e := by
  obtain ⟨ls, s₁, hrun, -, e₀, hback, hreaches⟩ := hm
  obtain ⟨rfl, hne, -⟩ := ok_of_run_literals hrun
  obtain ⟨hg, -⟩ := h.engine.growAll (assumptions.map Int.natAbs)
  exact (hg.reachable.posed hback hne).reaches hreaches

end ClauseLearning
