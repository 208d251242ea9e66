import ClauseLearning.Proofs.Rebuilding

/-!
# Sessions

Every call that returns leaves a session valid. It leaves it faithful to its book, too, if what is
removed in place follows from what is left. And it leaves it up to date, with two exceptions
(`Call.Loses`): an addition is refused while facts wait for their notifications, or a query is
stopped between a conflict at the root and its handling. In both cases the rest of the trail counts
as notified of although it was not.

* `Call.spec`: one call.
* `Session.Reachable`, `Session.Lawful`, `Session.Undisturbed`: sessions by their history.
* `Session.Reachable.valid`, `Session.Lawful.faithful`, `Session.Undisturbed.upToDate`: what holds
  of them.
-/

namespace ClauseLearning

variable {κ : Type}

namespace Engine

theorem head_growAll (e : Engine κ) (ns : List Nat) :
    (e.growAll ns).search.head = e.search.head := by
  induction ns generalizing e with
  | nil => rfl
  | cons n ns ih =>
    rw [show e.growAll (n :: ns) = (e.grow n).growAll ns from rfl, ih]
    obtain ⟨search, analyser, control⟩ := e
    simp only [grow]
    split
    · rfl
    · rfl

theorem trues_growAll (e : Engine κ) (ns : List Nat) :
    (e.growAll ns).search.assignment.trues = e.search.assignment.trues := by
  induction ns generalizing e with
  | nil => rfl
  | cons n ns ih =>
    rw [show e.growAll (n :: ns) = (e.grow n).growAll ns from rfl, ih]
    obtain ⟨search, analyser, control⟩ := e
    simp only [grow]
    split
    · rfl
    · exact Assignment.trues_grow search.assignment n

end Engine

namespace Session

/-! ## Calls that find nothing out -/

/-- Neither the engine nor the constraints in the book changed in a way that matters. -/
structure Idles (s s' : Session κ) : Prop where
  engine : s.engine.Idles s'.engine
  entries : s'.book.entries = s.book.entries

namespace Idles

variable {s s' : Session κ} (h : s.Idles s')
include h

theorem holds_iff (ν : Valuation) : s'.Holds ν ↔ s.Holds ν := by
  have hentries := h.entries
  rw [Session.holds_iff, Session.holds_iff, hentries]

theorem valid (hv : s.Valid) : s'.Valid := by
  refine ⟨h.engine.wellFormed, h.engine.root hv.root, ?_, ?_⟩
  · rw [h.entries]
    exact hv.proper
  · rw [h.entries]
    exact hv.nodup

theorem faithful (hf : s.Faithful) : s'.Faithful := by
  refine ⟨fun hr ν hν => ?_, fun hi ν hν => ?_, fun hi i entry hentry hpresent => ?_⟩
  · rw [h.engine.alike.restricted] at hr
    exact h.engine.admits ν (hf.admits hr ν ((h.holds_iff ν).mp hν))
  · rw [h.engine.alike.infeasible] at hi
    exact hf.infeasible hi ν ((h.holds_iff ν).mp hν)
  · rw [h.engine.alike.infeasible] at hi
    rw [h.entries] at hentry
    exact (hf.covers hi i entry hentry hpresent).retains h.engine.retains

theorem upToDate (hu : s.UpToDate) : s'.UpToDate := by
  intro hi
  rw [h.engine.alike.infeasible] at hi
  exact h.engine.upToDate (hu hi)

end Idles

theorem idles_growAll {s : Session κ} (h : s.Valid) (ns : List Nat) :
    s.Idles ⟨s.engine.growAll ns, s.book⟩ := ⟨Engine.growAll_idles h.engine ns, rfl⟩

variable [CustomConstraint κ]

/-! ## Additions -/

/-- An addition enters the book, or it is refused and nothing is different but that nothing waits
for its notifications. -/
theorem addConstraint_spec {ds : List (Description κ)} {result : Except Refusal Nat}
    {s s' : Session κ} (h : s.Valid) (hp : ∀ d ∈ ds, d.Proper)
    (hrun : (addConstraint ds).run s = (.ok result, s')) :
    (s.engine.control.infeasible = true ∧ result = .error .infeasibleState ∧ s' = s) ∨
      (s.engine.control.infeasible = false ∧
        ((∃ references, result = .ok s.book.entries.size ∧
            s'.book.entries = s.book.entries.push ⟨ds, references, false⟩ ∧
            Engine.Finishes s.book.entries.size ds s.engine.search s.engine.control (.ok references)
              s'.engine) ∨
          (result = .error .triviallyUnsatisfiable ∧ s'.book = s.book ∧
            Engine.Finishes s.book.entries.size ds s.engine.search s.engine.control
              (.error .triviallyUnsatisfiable) s'.engine))) := by
  obtain ⟨handle, s₁, h₁, hrun⟩ := ok_of_run_bind hrun
  cases h₁
  obtain ⟨added, s₂, h₂, hrun⟩ := ok_of_run_bind hrun
  obtain ⟨hadd, hbook⟩ := ok_of_run_ofEngine h₂
  obtain ⟨e₂, book₂⟩ := s₂
  cases hbook
  rcases Engine.add_spec_of_root h.engine h.root hp hadd with ⟨hinf, rfl, he⟩ | ⟨hinf, hfin⟩
  · cases hrun
    cases he
    exact Or.inl ⟨hinf, rfl, rfl⟩
  · refine Or.inr ⟨hinf, ?_⟩
    cases added with
    | ok references =>
      cases hrun
      exact Or.inl ⟨references, rfl, rfl, hfin⟩
    | error refusal =>
      obtain ⟨rfl, -⟩ := hfin.restores refusal rfl
      cases hrun
      exact Or.inr ⟨rfl, rfl, hfin⟩

omit [CustomConstraint κ] in
theorem holds_push {s s' : Session κ} {entry : BookEntry κ} {ν : Valuation}
    (h : s'.book.entries = s.book.entries.push entry) :
    s'.Holds ν ↔ s.Holds ν ∧ entry.Holds ν := by
  rw [holds_iff, holds_iff, h, Array.toList_push]
  constructor
  · exact fun hall => ⟨fun entry' hentry => hall entry' (List.mem_append_left _ hentry),
      hall entry (List.mem_append_right _ List.mem_cons_self)⟩
  · rintro ⟨hall, hone⟩ entry' hentry
    rcases List.mem_append.mp hentry with hentry | hentry
    · exact hall entry' hentry
    · rw [List.mem_singleton.mp hentry]
      exact hone

theorem addConstraint_keeps {ds : List (Description κ)} {result : Except Refusal Nat}
    {s s' : Session κ} (h : s.Valid) (hp : ∀ d ∈ ds, d.Proper)
    (hrun : (addConstraint ds).run s = (.ok result, s')) :
    s'.Valid ∧ (s.Faithful → s'.Faithful) ∧
      ((∀ refusal, result = .error refusal → s.engine.control.infeasible = false →
          s.engine.search.head = s.engine.search.assignment.trues.length) →
        s.UpToDate → s'.UpToDate) := by
  rcases addConstraint_spec h hp hrun with ⟨-, -, rfl⟩ |
    ⟨hinf, ⟨references, -, hentries, hfin⟩ | ⟨hrefused, hbook, hfin⟩⟩
  · exact ⟨h, fun hf => hf, fun _ hu => hu⟩
  · have hadds := hfin.adds references rfl
    have hinf' : s'.engine.control.infeasible = false := hfin.alike.infeasible.trans hinf
    have hmem : ∀ entry ∈ s'.book.entries.toList, entry ∈ s.book.entries.toList ∨
        entry = ⟨ds, references, false⟩ := by
      intro entry hentry
      rw [hentries, Array.toList_push] at hentry
      rcases List.mem_append.mp hentry with hentry | hentry
      · exact Or.inl hentry
      · exact Or.inr (List.mem_singleton.mp hentry)
    refine ⟨⟨hfin.wellFormed, hadds.decisionLevel_eq.trans h.root, fun entry hentry => ?_,
      fun entry hentry => ?_⟩, fun hf => ⟨fun hr ν hν => ?_, fun hi => ?_,
      fun _ i entry hentry hpresent => ?_⟩, fun _ hu _ => hadds.upToDate (hu hinf)⟩
    · rcases hmem entry hentry with hentry | rfl
      · exact h.proper entry hentry
      · exact hp
    · rcases hmem entry hentry with hentry | rfl
      · exact h.nodup entry hentry
      · exact hadds.nodup
    · rw [hfin.alike.restricted] at hr
      obtain ⟨hold, hnew⟩ := (holds_push hentries).mp hν
      exact hadds.admits ν (hf.admits hr ν hold) (hnew rfl)
    · rw [hinf'] at hi
      cases hi
    · rw [hentries, Array.getElem?_push] at hentry
      split at hentry
      · rename_i hi
        cases hentry
        rw [hi]
        exact hadds.covers
      · exact (hf.covers hinf i entry hentry hpresent).retains hadds.retains
  · obtain ⟨-, hrestores, -⟩ := hfin.restores _ rfl
    have hentries : s'.book.entries = s.book.entries := congrArg Book.entries hbook
    have hinf' : s'.engine.control.infeasible = false := hfin.alike.infeasible.trans hinf
    have hholds : ∀ ν, s'.Holds ν ↔ s.Holds ν := fun ν => by
      rw [holds_iff, holds_iff, hentries]
    refine ⟨⟨hfin.wellFormed, (congrArg Array.size hrestores.starts).trans h.root,
      hentries ▸ h.proper, hentries ▸ h.nodup⟩, fun hf => ⟨fun hr ν hν => ?_, fun hi => ?_,
      fun _ i entry hentry hpresent => ?_⟩, fun hhead hu _ => ?_⟩
    · rw [hfin.alike.restricted] at hr
      exact hrestores.admits (hf.admits hr ν ((hholds ν).mp hν))
    · rw [hinf'] at hi
      cases hi
    · rw [hentries] at hentry
      exact (hf.covers hinf i entry hentry hpresent).retains hrestores.retains
    · exact hrestores.upToDate h.root (hhead _ hrefused hinf) (hu hinf)

/-! ## Queries -/

/-- The model is taken at the end of the trail, and then the engine goes back to the root. -/
theorem takeModel_spec {model : List Literal} {s s' : Session κ} (h : s.engine.WellFormed)
    (hrun : (takeModel).run s = (.ok model, s')) :
    s.Idles s' ∧ s'.engine.search.decisionLevel = 0 ∧
      model = sortByVariable s.engine.model.1 ∧ s'.book.model = some model ∧
      s'.engine.numVariables = s.engine.numVariables := by
  obtain ⟨ls, s₁, h₁, hrun⟩ := ok_of_run_bind hrun
  cases h₁
  obtain ⟨_, s₂, h₂, hrun⟩ := ok_of_run_bind hrun
  obtain ⟨hback, hbook⟩ := ok_of_run_ofEngine h₂
  obtain ⟨e₂, hback, hret⟩ := ok_of_bind hback
  cases hret
  obtain ⟨e, book⟩ := s₂
  cases hbook
  cases hrun
  obtain ⟨hidles, ha, -⟩ := s.engine.model_spec h
  have hback' := Engine.backtrack_idles hidles.wellFormed hback
  obtain ⟨-, hsearch, -⟩ := Engine.backtrack_spec hidles.wellFormed hback
  obtain ⟨hsize, -, -⟩ := SearchState.size_backtrack hidles.wellFormed.search hsearch
  refine ⟨⟨hidles.trans hback', rfl⟩, ?_, rfl, rfl, ?_⟩
  · exact (SearchState.decisionLevel_backtrack hidles.wellFormed.search hsearch).trans
      (Nat.zero_min _)
  · have hsize' : e.search.assignment.cells.size = s.engine.search.assignment.cells.size := by
      rw [hsize, ha]
    exact congrArg (· - 1) hsize'

omit [CustomConstraint κ] in
/-- A search keeps a session faithful to its book. -/
theorem Faithful.keeps {s : Session κ} {e' : Engine κ} {book' : Book κ} (h : s.Faithful)
    (hk : s.engine.Keeps e') (hinf : s.engine.control.infeasible = false)
    (hentries : book'.entries = s.book.entries) : (⟨e', book'⟩ : Session κ).Faithful := by
  have hholds : ∀ ν, (⟨e', book'⟩ : Session κ).Holds ν ↔ s.Holds ν := fun ν => by
    rw [holds_iff, holds_iff, hentries]
  refine ⟨fun hr ν hν => ?_, fun hi ν hν => ?_, fun _ i entry hentry hpresent => ?_⟩
  · exact hk.admits hr ν (h.admits (hk.restricted_eq_false hr) ν ((hholds ν).mp hν))
  · rcases hk.infeasible hi with hi | ⟨hr, hnone⟩
    · rw [hinf] at hi
      cases hi
    · exact hnone ν (h.admits hr ν ((hholds ν).mp hν))
  · have hentry' : s.book.entries[i]? = some entry := hentries ▸ hentry
    exact (h.covers hinf i entry hentry' hpresent).retains hk.retains

/-- Turning an outcome into an answer keeps what there is; the answer that there is none starts
anew. -/
theorem answer_keeps {outcome : Outcome} {result : Except SearchError Answer} {s s' : Session κ}
    (h : s.engine.WellFormed) (hroot : outcome ≠ .satisfiable → s.engine.search.decisionLevel = 0)
    (hp : ∀ entry ∈ s.book.entries.toList, ∀ d ∈ entry.descriptions, d.Proper)
    (hn : ∀ entry ∈ s.book.entries.toList, entry.references.Nodup)
    (hrun : (answer outcome).run s = (.ok result, s')) :
    s'.Valid ∧ (s.Faithful → s'.Faithful) ∧
    (outcome = .inconclusive ∨ s.UpToDate → s'.UpToDate) := by
  have hsame : outcome ≠ .satisfiable → outcome ≠ .inconclusive → s'.engine = s.engine →
      s'.book.entries = s.book.entries → s'.Valid ∧ (s.Faithful → s'.Faithful) ∧
        (outcome = .inconclusive ∨ s.UpToDate → s'.UpToDate) := by
    intro hsat hinc hengine hentries
    have hidles : s.Idles s' := ⟨by rw [hengine]; exact .refl h, hentries⟩
    refine ⟨hidles.valid ⟨h, hroot hsat, hp, hn⟩, hidles.faithful, fun hu => ?_⟩
    exact hidles.upToDate (hu.resolve_left hinc)
  cases outcome with
  | satisfiable =>
    obtain ⟨model, s₁, h₁, hrun⟩ := ok_of_run_bind hrun
    cases hrun
    obtain ⟨hidles, hlevel, -⟩ := takeModel_spec h h₁
    refine ⟨⟨hidles.engine.wellFormed, hlevel, hidles.entries ▸ hp, hidles.entries ▸ hn⟩,
      hidles.faithful, fun hu => ?_⟩
    exact hidles.upToDate (hu.resolve_left nofun)
  | unsatisfiable =>
    cases hrun
    exact hsame nofun nofun rfl rfl
  | unsatisfiableUnder core =>
    cases hrun
    exact hsame nofun nofun rfl rfl
  | budgetExceeded =>
    cases hrun
    exact hsame nofun nofun rfl rfl
  | inconclusive =>
    obtain ⟨_, s₁, h₁, hrun⟩ := ok_of_run_bind hrun
    cases hrun
    obtain ⟨hv, hf, hu, -⟩ := rebuild_spec ⟨h, hroot nofun, hp, hn⟩ h₁
    exact ⟨hv, fun _ => hf, fun _ => hu⟩

section

variable {τ : Type} [Termination τ] {assumptions : List Int} {limit : Book κ → τ}
  {settle : τ → Book κ → Book κ} {result : Except SearchError Answer} {s s' : Session κ}

/-- A query keeps a session faithful, and up to date unless it forgets about a conflict. -/
theorem ask_keeps (h : s.Valid) (hrun : (ask assumptions limit settle).run s = (.ok result, s'))
    (hsettle : ∀ limit book, (settle limit book).entries = book.entries) :
    s'.Valid ∧ (s.Faithful → s'.Faithful) ∧
      (¬ Abandons assumptions (limit (forgetAnswer s.book)) s → s.UpToDate → s'.UpToDate) := by
  obtain ⟨ls, limit', outcome, e₁, hls, hsolve, hanswer⟩ := ok_of_run_ask hrun
  have hne := (ok_of_run_literals hls).2.1
  have hgrow := idles_growAll h (assumptions.map Int.natAbs)
  have hv := hgrow.valid h
  have hentries : (settle limit' (forgetAnswer s.book)).entries = s.book.entries :=
    hsettle limit' (forgetAnswer s.book)
  have hproper : ∀ entry ∈ (settle limit' (forgetAnswer s.book)).entries.toList,
      ∀ d ∈ entry.descriptions, d.Proper := hentries ▸ h.proper
  have hnodup : ∀ entry ∈ (settle limit' (forgetAnswer s.book)).entries.toList,
      entry.references.Nodup := hentries ▸ h.nodup
  rcases Engine.solve_spec hv.engine hne hsolve with ⟨hinf, rfl, rfl⟩ | ⟨hinf, hk, hlevel, hend⟩
  · obtain ⟨hv', hf', hu'⟩ := answer_keeps (s := ⟨_, settle limit' (forgetAnswer s.book)⟩) hv.engine
      (fun _ => hv.root) hproper hnodup hanswer
    have hidles : s.Idles ⟨s.engine.growAll (assumptions.map Int.natAbs),
        settle limit' (forgetAnswer s.book)⟩ := ⟨hgrow.engine, hentries⟩
    exact ⟨hv', fun hf => hf' (hidles.faithful hf), fun _ hu => hu' (Or.inr (hidles.upToDate hu))⟩
  · obtain ⟨hv', hf', hu'⟩ := answer_keeps hk.wellFormed hlevel hproper hnodup hanswer
    refine ⟨hv', fun hf => hf' ((hgrow.faithful hf).keeps hk hinf hentries), fun hab hu => hu' ?_⟩
    have hup := hgrow.upToDate hu hinf
    rcases hend with ⟨-, last, e, hstops, -, hw, hback, hcurrent⟩ | ⟨hconcludes, hleaves⟩
    · refine Or.inr fun _ => (hcurrent hup).backtrack hw (fun hlast => hab ?_) hback
      exact ⟨ls, _, last, e, hls, hstops, hlast⟩
    · have hleft := hleaves hup
      cases outcome with
      | satisfiable => exact Or.inr fun _ => hleft.1
      | unsatisfiable =>
        refine Or.inr fun hi => ?_
        rw [show e₁.control.infeasible = true from hconcludes.2.1] at hi
        cases hi
      | unsatisfiableUnder core => exact Or.inr fun _ => hleft
      | budgetExceeded => exact hleft.elim
      | inconclusive => exact Or.inl rfl

end

/-! ## Removals -/

omit [CustomConstraint κ] in
theorem ok_of_run_markRemoved {handle : Nat} {s s' : Session κ}
    (h : (markRemoved handle).run s = (.ok (), s')) :
    ∃ entry, s.book.entries[handle]? = some entry ∧ entry.removed = false ∧
      s' = ⟨s.engine, { s.book with
        entries := s.book.entries.setIfInBounds handle { entry with removed := true } }⟩ := by
  obtain ⟨found, s₁, h₁, h⟩ := ok_of_run_bind h
  cases h₁
  dsimp only at h
  cases hentry : s.book.entries[handle]? with
  | none =>
    rw [hentry] at h
    cases h
  | some entry =>
    rw [hentry] at h
    cases hremoved : entry.removed with
    | true =>
      simp only [hremoved, if_true] at h
      cases h
    | false =>
      simp only [hremoved, Bool.false_eq_true, if_false] at h
      cases h
      exact ⟨entry, rfl, hremoved, rfl⟩

omit [CustomConstraint κ] in
/-- Only that the constraint is gone is noted. -/
theorem markRemoved_valid {handle : Nat} {s s' : Session κ} (h : s.Valid)
    (hrun : (markRemoved handle).run s = (.ok (), s')) : s'.Valid ∧ s'.engine = s.engine := by
  obtain ⟨entry, hentry, -, rfl⟩ := ok_of_run_markRemoved hrun
  have hmem : ∀ entry' ∈ (s.book.entries.setIfInBounds handle
      { entry with removed := true }).toList, ∃ entry'' ∈ s.book.entries.toList,
        entry'.descriptions = entry''.descriptions ∧ entry'.references = entry''.references := by
    intro entry' hentry'
    rw [Array.toList_setIfInBounds] at hentry'
    rcases List.mem_or_eq_of_mem_set hentry' with hentry' | rfl
    · exact ⟨entry', hentry', rfl, rfl⟩
    · exact ⟨entry, Array.mem_toList_iff.mpr (Array.mem_of_getElem? hentry), rfl, rfl⟩
  refine ⟨⟨h.engine, h.root, fun entry' hentry' d hd => ?_, fun entry' hentry' => ?_⟩, rfl⟩
  · obtain ⟨entry'', hmem'', hdesc, -⟩ := hmem entry' hentry'
    exact h.proper entry'' hmem'' d (hdesc ▸ hd)
  · obtain ⟨entry'', hmem'', -, hrefs⟩ := hmem entry' hentry'
    exact hrefs ▸ h.nodup entry'' hmem''

/-- A removal with a rebuild is sound, whatever was wrong before. -/
theorem remove_spec {handle : Nat} {s s' : Session κ} (h : s.Valid)
    (hrun : (remove handle).run s = (.ok (), s')) : s'.Valid ∧ s'.Faithful ∧ s'.UpToDate := by
  obtain ⟨_, s₁, h₁, hrun⟩ := ok_of_run_bind hrun
  obtain ⟨hv, hf, hu, -⟩ := rebuild_spec (markRemoved_valid h h₁).1 hrun
  exact ⟨hv, hf, hu⟩

theorem ok_of_run_removeSubsumed {handle : Nat} {s s' : Session κ}
    (h : (removeSubsumed handle).run s = (.ok (), s')) :
    ∃ entry, s.book.entries[handle]? = some entry ∧ entry.removed = false ∧
      s.engine.remove entry.references handle = .ok s'.engine ∧
      ∀ i : Nat, s'.book.entries[i]? =
        if i = handle then some ⟨entry.descriptions, [], true⟩ else s.book.entries[i]? := by
  obtain ⟨size, s₁, h₁, h⟩ := ok_of_run_bind h
  cases h₁
  dsimp only at h
  split at h
  · obtain ⟨_, _, h₂, -⟩ := ok_of_run_bind h
    cases h₂
  obtain ⟨_, s₂, h₂, h⟩ := ok_of_run_bind h
  obtain ⟨entry, hentry, hpresent, rfl⟩ := ok_of_run_markRemoved h₂
  obtain ⟨references, s₃, h₃, h⟩ := ok_of_run_bind h
  cases h₃
  obtain ⟨_, s₄, h₄, h⟩ := ok_of_run_bind h
  cases h₄
  obtain ⟨hremove, hbook⟩ := ok_of_run_ofEngine h
  dsimp only at hremove hbook
  have hlt : handle < s.book.entries.size := (Array.getElem?_eq_some_iff.mp hentry).1
  obtain ⟨e', hremove, hret⟩ := ok_of_bind hremove
  rw [Array.getElem?_setIfInBounds_self_of_lt hlt] at hremove
  refine ⟨entry, hentry, hpresent, ?_, fun i => ?_⟩
  · rw [← (Prod.mk.inj (Except.ok.inj hret)).2]
    exact hremove
  · rw [congrArg Book.entries hbook]
    dsimp only
    rw [Array.getElem?_modify]
    by_cases hi : handle = i
    · subst hi
      rw [if_pos rfl, if_pos rfl, Array.getElem?_setIfInBounds_self_of_lt hlt]
      rfl
    · rw [if_neg hi, if_neg (Ne.symm hi), Array.getElem?_setIfInBounds_ne hi]

/-- A removal in place takes out what was attached for the newest constraint. -/
theorem removeSubsumed_spec {handle : Nat} {s s' : Session κ} (h : s.Valid)
    (hrun : (removeSubsumed handle).run s = (.ok (), s')) :
    s'.Valid ∧ ((∀ ν, s'.Holds ν → s.Holds ν) → s.Faithful → s'.Faithful) ∧
      (s.UpToDate → s'.UpToDate) := by
  obtain ⟨entry, hentry, -, hremove, hentries⟩ := ok_of_run_removeSubsumed hrun
  obtain ⟨⟨search, analyser, control⟩, book⟩ := s
  obtain ⟨e', book'⟩ := s'
  obtain ⟨search', hdelete, hret⟩ := ok_of_bind hremove
  cases hret
  obtain ⟨hw, hlevel, hup, hadmits, hcovers, hsize⟩ := SearchState.deleteOwned_spec h.engine.search
    (h.nodup entry (Array.mem_toList_iff.mpr (Array.mem_of_getElem? hentry))) hdelete
  have hmem : ∀ entry' ∈ book'.entries.toList, entry' = ⟨entry.descriptions, [], true⟩ ∨
      entry' ∈ book.entries.toList := by
    intro entry' hentry'
    obtain ⟨i, hi⟩ := List.mem_iff_getElem?.mp hentry'
    rw [Array.getElem?_toList, hentries] at hi
    split at hi
    · exact Or.inl (Option.some.inj hi).symm
    · exact Or.inr (Array.mem_toList_iff.mpr (Array.mem_of_getElem? hi))
  refine ⟨⟨⟨hw, ?_⟩, hlevel, fun entry' hentry' => ?_, fun entry' hentry' => ?_⟩,
    fun himplied hf => ⟨fun hr ν hν => hadmits ν (hf.admits hr ν (himplied ν hν)),
      fun hi ν hν => hf.infeasible hi ν (himplied ν hν), fun hi i entry' hentry' hpresent => ?_⟩,
    fun hu hi => hup (hu hi)⟩
  · show analyser.Clean search'.assignment.cells.size
    rw [hsize]
    exact h.engine.clean
  · rcases hmem entry' hentry' with rfl | hentry'
    · exact h.proper entry (Array.mem_toList_iff.mpr (Array.mem_of_getElem? hentry))
    · exact h.proper entry' hentry'
  · rcases hmem entry' hentry' with rfl | hentry'
    · exact List.nodup_nil
    · exact h.nodup entry' hentry'
  · rw [hentries] at hentry'
    split at hentry'
    · cases hentry'
      cases hpresent
    · rename_i hne
      exact hcovers i _ hne (hf.covers hi i entry' hentry' hpresent)

/-! ## The other calls -/

omit [CustomConstraint κ] in
/-- A call that only touches what is reported and what is kept of the last answer. -/
theorem idles_of_same {s s' : Session κ} (h : s.engine.WellFormed)
    (hsearch : s'.engine.search = s.engine.search)
    (hanalyser : s'.engine.analyser = s.engine.analyser)
    (halike : s.engine.control.Alike s'.engine.control)
    (hentries : s'.book.entries = s.book.entries) : s.Idles s' := by
  obtain ⟨⟨search, analyser, control⟩, book⟩ := s
  obtain ⟨⟨search', analyser', control'⟩, book'⟩ := s'
  cases hsearch
  cases hanalyser
  exact ⟨⟨⟨h.search, h.clean⟩, .refl _, fun _ hν => hν, fun hu => hu, halike, fun hr => hr⟩,
    hentries⟩

omit [CustomConstraint κ] in
/-- Variables that may be decided are made known one after the other. -/
theorem ok_of_run_decisionVariables {vs ls : List Nat} {s s' : Session κ}
    (hrun : (vs.mapM decisionVariable).run s = (.ok ls, s')) :
    s' = ⟨s.engine.growAll (vs.map id), s.book⟩ := by
  have hone : ∀ (v w : Nat) (s s' : Session κ), (decisionVariable v).run s = (.ok w, s') →
      s' = ⟨s.engine.grow v, s.book⟩ ∧ True := by
    intro v w s s' hrun
    unfold decisionVariable at hrun
    split at hrun
    · obtain ⟨_, _, hthrow, -⟩ := ok_of_run_bind hrun
      cases hthrow
    · obtain ⟨l, s₂, hl, hrun⟩ := ok_of_run_bind hrun
      obtain ⟨rfl, -⟩ := ok_of_run_literal hl
      cases hrun
      exact ⟨rfl, trivial⟩
  exact (ok_of_run_mapM hone hrun).1

omit [CustomConstraint κ] in
theorem decideOnly_idles {vs ls : List Nat} {s s' : Session κ} (h : s.Valid)
    (hrun : (vs.mapM decisionVariable).run s = (.ok ls, s')) : s.Idles s' := by
  cases ok_of_run_decisionVariables hrun
  exact idles_growAll h (vs.map id)

/-- The engine idles under another restriction of decisions, and is built anew if it has to be. -/
theorem ok_of_run_restrictDecisions {vs : Option (List Nat)} {s s' : Session κ} (h : s.Valid)
    (hrun : (restrictDecisions vs).run s = (.ok (), s')) :
    ∃ s₁, s.Idles s₁ ∧ s₁.book = s.book ∧ (s' = s₁ ∨ (rebuild).run s₁ = (.ok (), s')) := by
  obtain ⟨_, s₁, h₁, hrun⟩ := ok_of_run_bind hrun
  obtain ⟨hback, hbook⟩ := ok_of_run_ofEngine h₁
  obtain ⟨e, hback, hret⟩ := ok_of_bind hback
  have he : (e.restrictDecisions vs) = s₁.engine := (Prod.mk.inj (Except.ok.inj hret)).2
  have hidles : s.Idles s₁ := by
    have hback' := Engine.backtrack_idles h.engine hback
    refine ⟨?_, congrArg Book.entries hbook⟩
    rw [← he]
    exact hback'.trans (Engine.restrict_idles hback'.wellFormed vs)
  obtain ⟨restricted, s₂, h₂, hrun⟩ := ok_of_run_bind hrun
  cases h₂
  dsimp only at hrun
  split at hrun
  · exact ⟨_, hidles, hbook, Or.inr hrun⟩
  · cases hrun
    exact ⟨_, hidles, hbook, Or.inl rfl⟩

/-- Another restriction of decisions loses nothing; what was derived under the old one is built
anew. -/
theorem restrictDecisions_keeps {vs : Option (List Nat)} {s s' : Session κ} (h : s.Valid)
    (hrun : (restrictDecisions vs).run s = (.ok (), s')) :
    s'.Valid ∧ (s.Faithful → s'.Faithful) ∧ (s.UpToDate → s'.UpToDate) := by
  obtain ⟨s₁, hidles, -, hrun⟩ := ok_of_run_restrictDecisions h hrun
  have hv := hidles.valid h
  rcases hrun with rfl | hrun
  · exact ⟨hv, hidles.faithful, hidles.upToDate⟩
  · obtain ⟨hv', hf', hu', -⟩ := rebuild_spec hv hrun
    exact ⟨hv', fun _ => hf', fun _ => hu'⟩

theorem computeImplicant_spec {ls : List Literal} {s s' : Session κ}
    (hrun : (computeImplicant).run s = (.ok ls, s')) :
    ∃ model implicant, s.model = .ok model ∧
      primeImplicant s.book.options.implicant model s.requirements = .ok implicant ∧
      ls = sortByVariable implicant ∧
      s' = ⟨s.engine.report (.implicant ls.length model.length),
        { s.book with implicant := some ls }⟩ := by
  obtain ⟨_, s₁, h₁, hrun⟩ := ok_of_run_bind hrun
  cases h₁
  obtain ⟨model, s₂, h₂, hrun⟩ := ok_of_run_bind hrun
  cases hmodel : s.model with
  | error v =>
    rw [hmodel] at h₂
    cases h₂
  | ok model' =>
    rw [hmodel] at h₂
    cases h₂
    dsimp only at hrun
    split at hrun
    · cases hrun
    · rename_i implicant himplicant
      cases hrun
      exact ⟨model, implicant, rfl, himplicant, rfl, rfl⟩

theorem run_computeImplicant_eq {model : List Literal} {s : Session κ}
    (hmodel : s.model = .ok model) : ((computeImplicant).run s).1 =
      match primeImplicant s.book.options.implicant model s.requirements with
      | .error fault => .error (.internal fault)
      | .ok implicant => .ok (sortByVariable implicant) := by
  show ((get >>= _ : SessionM κ _).run s).1 = _
  rw [run_bind]
  show ((liftM s.model >>= _ : SessionM κ _).run s).1 = _
  have hlift : (liftM (.ok model : Except Violation _) : SessionM κ _).run s = (.ok model, s) := rfl
  rw [hmodel, run_bind, hlift]
  dsimp only
  cases primeImplicant s.book.options.implicant model s.requirements with
  | error fault => rfl
  | ok implicant => rfl

theorem run_computeImplicant {model implicant : List Literal} {s : Session κ}
    (hmodel : s.model = .ok model)
    (h : primeImplicant s.book.options.implicant model s.requirements = .ok implicant) :
    ((computeImplicant).run s).1 = .ok (sortByVariable implicant) := by
  rw [run_computeImplicant_eq hmodel, h]

omit [CustomConstraint κ] in
/-- A new session knows nothing and asks for nothing. -/
theorem make_spec (o : Options) :
    (make o : Session κ).Valid ∧ (make o : Session κ).Faithful ∧ (make o : Session κ).UpToDate := by
  have hblank := SearchState.blank_make (κ := κ) o
  exact ⟨⟨Engine.wellFormed_make o, hblank.decisionLevel, nofun, nofun⟩,
    ⟨fun _ ν _ => hblank.admits ν, nofun, fun _ i entry hentry => nomatch hentry⟩,
    fun _ => hblank.upToDate⟩

end Session

/-! ## Any call -/

namespace Call

variable [CustomConstraint κ]

/-- The call forgets what waits for its notifications: an addition is refused while something waits,
or a query is stopped between a conflict at the root and its handling. -/
def Loses (s : Session κ) : Call → Prop
  | add a => s.engine.control.infeasible = false ∧
      s.engine.search.head ≠ s.engine.search.assignment.trues.length ∧
      ∃ refusal s', (a.run).run s = (.ok (.error refusal), s')
  | query assumptions shared => s.Abandons assumptions
      (⟨(Session.forgetAnswer s.book).stopRequested,
        Session.budgetOf shared (Session.forgetAnswer s.book)⟩ : QueryLimit)
  | interrupted assumptions polls _ => s.Abandons assumptions (⟨polls, 0⟩ : Polls)
  | _ => False

/-- A removal in place is of a constraint that the others imply. -/
def Implied (s s' : Session κ) : Call → Prop
  | removeSubsumed _ => ∀ ν, s'.Holds ν → s.Holds ν
  | _ => True

/-- What a call that returns keeps. -/
theorem spec {c : Call} {s s' : Session κ} (h : s.Valid) (hrun : (c.run).run s = (.ok (), s')) :
    s'.Valid ∧ (c.Implied s s' → s.Faithful → s'.Faithful) ∧
      (¬ c.Loses s → s.UpToDate → s'.UpToDate) := by
  have hall : ∀ {s₁ : Session κ}, s.Idles s₁ → s₁.Valid ∧
      (c.Implied s s₁ → s.Faithful → s₁.Faithful) ∧
      (¬ c.Loses s → s.UpToDate → s₁.UpToDate) := fun hi =>
    ⟨hi.valid h, fun _ => hi.faithful, fun _ => hi.upToDate⟩
  cases c with
  | newVariables n =>
    obtain ⟨m, hrun⟩ := Session.ok_of_run_discard hrun
    obtain ⟨-, rfl⟩ := Session.ok_of_run_newVariables hrun
    exact hall ⟨Engine.grow_idles h.engine n, rfl⟩
  | add a =>
    obtain ⟨result, hrun⟩ := Session.ok_of_run_discard hrun
    have hadd := hrun
    rw [Addition.run_eq] at hrun
    obtain ⟨ls, s₁, hls, hrun⟩ := Session.ok_of_run_bind hrun
    obtain ⟨rfl, hne, -⟩ := Session.ok_of_run_literals hls
    have hgrow := Session.idles_growAll h (a.numbers.map Int.natAbs)
    obtain ⟨hv, hf, hu⟩ :=
      Session.addConstraint_keeps (hgrow.valid h) (Addition.proper hne) hrun
    refine ⟨hv, fun _ hfaithful => hf (hgrow.faithful hfaithful), fun hloses hup => ?_⟩
    refine hu (fun refusal hr hinf => ?_) (hgrow.upToDate hup)
    rw [hgrow.engine.alike.infeasible] at hinf
    rw [Engine.head_growAll, Engine.trues_growAll]
    by_contra hne
    subst hr
    exact hloses ⟨hinf, hne, refusal, s', hadd⟩
  | query assumptions shared =>
    obtain ⟨result, hrun⟩ := Session.ok_of_run_discard hrun
    rw [Session.query_eq_ask] at hrun
    obtain ⟨hv, hf, hu⟩ := Session.ask_keeps h hrun fun _ _ => rfl
    exact ⟨hv, fun _ => hf, hu⟩
  | interrupted assumptions polls budget =>
    obtain ⟨result, hrun⟩ := Session.ok_of_run_discard hrun
    obtain ⟨hv, hf, hu⟩ := Session.ask_keeps h hrun fun _ _ => rfl
    exact ⟨hv, fun _ => hf, hu⟩
  | remove handle =>
    obtain ⟨hv, hf, hu⟩ := Session.remove_spec h hrun
    exact ⟨hv, fun _ _ => hf, fun _ _ => hu⟩
  | removeSubsumed handle =>
    obtain ⟨hv, hf, hu⟩ := Session.removeSubsumed_spec h hrun
    exact ⟨hv, hf, fun _ => hu⟩
  | decideOnly vs =>
    obtain ⟨ls, s₁, hls, hrun⟩ := Session.ok_of_run_bind hrun
    have hidles := Session.decideOnly_idles h hls
    obtain ⟨hv, hf, hu⟩ := Session.restrictDecisions_keeps (hidles.valid h) hrun
    exact ⟨hv, fun _ hfaithful => hf (hidles.faithful hfaithful),
      fun _ hup => hu (hidles.upToDate hup)⟩
  | decideAll =>
    obtain ⟨hv, hf, hu⟩ := Session.restrictDecisions_keeps h hrun
    exact ⟨hv, fun _ => hf, fun _ => hu⟩
  | computeImplicant =>
    obtain ⟨ls, hrun⟩ := Session.ok_of_run_discard hrun
    obtain ⟨model, implicant, -, -, -, rfl⟩ := Session.computeImplicant_spec hrun
    obtain ⟨⟨search, analyser, control⟩, book⟩ := s
    exact hall (Session.idles_of_same h.engine rfl rfl ⟨rfl, rfl⟩ rfl)
  | takeEvents =>
    cases hrun
    obtain ⟨⟨search, analyser, control⟩, book⟩ := s
    exact hall (Session.idles_of_same h.engine rfl rfl ⟨rfl, rfl⟩ rfl)
  | requestStop =>
    cases hrun
    exact hall ⟨.refl h.engine, rfl⟩
  | reset =>
    cases hrun
    obtain ⟨hv, hf, hu⟩ := Session.make_spec (κ := κ) s.book.options
    have hsame : (Session.make s.book.options).Idles s.reset := ⟨.refl hv.engine, rfl⟩
    exact ⟨hsame.valid hv, fun _ _ => hsame.faithful hf, fun _ _ => hsame.upToDate hu⟩

end Call

/-! ## Histories -/

namespace Session

variable [CustomConstraint κ]

/-- What calls that return make of a new session. -/
inductive Reachable : Session κ → Prop
  | make (o : Options) : Reachable (make o)
  | call {c : Call} {s s' : Session κ} (h : Reachable s) (hrun : (c.run).run s = (.ok (), s')) :
      Reachable s'

/-- A session in which only implied constraints were removed in place. -/
inductive Lawful : Session κ → Prop
  | make (o : Options) : Lawful (make o)
  | call {c : Call} {s s' : Session κ} (h : Lawful s) (hrun : (c.run).run s = (.ok (), s'))
      (himplied : c.Implied s s') : Lawful s'

/-- A lawful session in which no call forgot what waits for its notifications. -/
inductive Undisturbed : Session κ → Prop
  | make (o : Options) : Undisturbed (make o)
  | call {c : Call} {s s' : Session κ} (h : Undisturbed s) (hrun : (c.run).run s = (.ok (), s'))
      (himplied : c.Implied s s') (hkeeps : ¬ c.Loses s) : Undisturbed s'

theorem Lawful.reachable {s : Session κ} (h : s.Lawful) : s.Reachable := by
  induction h with
  | make o => exact .make o
  | call _ hrun _ ih => exact .call ih hrun

theorem Undisturbed.lawful {s : Session κ} (h : s.Undisturbed) : s.Lawful := by
  induction h with
  | make o => exact .make o
  | call _ hrun himplied _ ih => exact .call ih hrun himplied

theorem Reachable.valid {s : Session κ} (h : s.Reachable) : s.Valid := by
  induction h with
  | make o => exact (make_spec o).1
  | call _ hrun ih => exact (Call.spec ih hrun).1

theorem Lawful.faithful {s : Session κ} (h : s.Lawful) : s.Faithful := by
  induction h with
  | make o => exact (make_spec o).2.1
  | call h hrun himplied ih => exact (Call.spec h.reachable.valid hrun).2.1 himplied ih

theorem Undisturbed.upToDate {s : Session κ} (h : s.Undisturbed) : s.UpToDate := by
  induction h with
  | make o => exact (make_spec o).2.2
  | call h hrun _ hkeeps ih => exact (Call.spec h.lawful.reachable.valid hrun).2.2 hkeeps ih

end Session

end ClauseLearning
