import ClauseLearning.Proofs.Calls

/-!
# Rebuilding

A rebuild starts from an engine that knows nothing and adds the present constraints again, each
under its handle. Whatever was wrong with the engine before, afterwards it asks for what the book
says and has missed nothing; or an addition was refused, and the constraints have no model.

* `Session.Valid`, `Session.Faithful`, `Session.UpToDate`: what holds of a session between two
  calls.
* `Session.attachEntries_spec`: the entries are added in order.
* `Session.rebuild_spec`: a rebuilt session is as good as new.
-/

namespace ClauseLearning

variable {κ : Type}

/-- The valuation satisfies the constraint, if it is present. -/
def BookEntry.Holds (entry : BookEntry κ) (ν : Valuation) : Prop :=
  entry.removed = false → ∀ d ∈ entry.descriptions, d.Holds ν

namespace Session

/-- The valuation satisfies every constraint that is present. -/
def Holds (s : Session κ) (ν : Valuation) : Prop := ∀ d ∈ s.descriptions, d.Holds ν

theorem holds_iff {s : Session κ} {ν : Valuation} :
    s.Holds ν ↔ ∀ entry ∈ s.book.entries.toList, entry.Holds ν := by
  constructor
  · intro h entry hentry hpresent d hd
    refine h d (List.mem_flatMap.mpr ⟨entry, List.mem_filter.mpr ⟨hentry, ?_⟩, hd⟩)
    rw [hpresent]
    rfl
  · intro h d hd
    obtain ⟨entry, hentry, hd⟩ := List.mem_flatMap.mp hd
    obtain ⟨hentry, hpresent⟩ := List.mem_filter.mp hentry
    exact h entry hentry (by simpa using hpresent) d hd

/-- The engine is at the root and the book is in order. -/
structure Valid (s : Session κ) : Prop where
  engine : s.engine.WellFormed
  root : s.engine.search.decisionLevel = 0
  proper : ∀ entry ∈ s.book.entries.toList, ∀ d ∈ entry.descriptions, d.Proper
  nodup : ∀ entry ∈ s.book.entries.toList, entry.references.Nodup

/-- The engine asks for what the book says, up to the restriction of decisions. -/
structure Faithful (s : Session κ) : Prop where
  admits : s.engine.control.restricted = false → ∀ ν, s.Holds ν → s.engine.search.Admits ν
  infeasible : s.engine.control.infeasible = true → ∀ ν, ¬ s.Holds ν
  covers : s.engine.control.infeasible = false → ∀ (i : Nat) (entry : BookEntry κ),
    s.book.entries[i]? = some entry → entry.removed = false →
      s.engine.search.Covers i entry.descriptions

/-- No notification is missing, as long as it matters. -/
def UpToDate (s : Session κ) : Prop :=
  s.engine.control.infeasible = false → s.engine.search.UpToDate

variable [CustomConstraint κ]

/-- What adding entries again leaves. -/
structure Attaches (handle : Nat) (entries : List (BookEntry κ)) (e : Engine κ) (refused : Bool)
    (entries' : List (BookEntry κ)) (e' : Engine κ) : Prop where
  wellFormed : e'.WellFormed
  root : e'.search.decisionLevel = 0
  alike : e.control.Alike e'.control
  same : entries'.map (fun entry => (entry.descriptions, entry.removed)) =
    entries.map fun entry => (entry.descriptions, entry.removed)
  nodup : ∀ entry ∈ entries', entry.references.Nodup
  retains : refused = false → e.search.Retains e'.search
  upToDate : refused = false → e.search.UpToDate → e'.search.UpToDate
  covers : refused = false → ∀ (i : Nat) (entry : BookEntry κ), entries[i]? = some entry →
    entry.removed = false → e'.search.Covers (handle + i) entry.descriptions
  admits : ∀ ν, e.search.Admits ν → (∀ entry ∈ entries, entry.Holds ν) →
    refused = false ∧ e'.search.Admits ν

namespace Attaches

variable {handle : Nat} {entry : BookEntry κ} {entries entries' : List (BookEntry κ)}
  {refused : Bool} {e e₁ e' : Engine κ}

omit [CustomConstraint κ] in
/-- An entry that was removed is passed over. -/
theorem skip (h : Attaches (handle + 1) entries e refused entries' e')
    (hremoved : entry.removed = true) :
    Attaches handle (entry :: entries) e refused ({ entry with references := [] } :: entries')
      e' where
  wellFormed := h.wellFormed
  root := h.root
  alike := h.alike
  same := by rw [List.map_cons, List.map_cons, h.same]
  nodup := List.forall_mem_cons.mpr ⟨List.nodup_nil, h.nodup⟩
  retains := h.retains
  upToDate := h.upToDate
  covers := by
    intro hr i entry' hi hpresent
    cases i with
    | zero =>
      cases hi
      rw [hremoved] at hpresent
      cases hpresent
    | succ i =>
      have hc := h.covers hr i entry' hi hpresent
      rwa [Nat.add_assoc, Nat.add_comm 1 i] at hc
  admits := fun ν hν hall => h.admits ν hν fun entry' hentry =>
    hall entry' (List.mem_cons_of_mem _ hentry)

omit [CustomConstraint κ] in
/-- An entry that is present is attached before the others are. -/
theorem cons {rs : List Reference} (h : Attaches (handle + 1) entries e₁ refused entries' e')
    (hpresent : entry.removed = false) (halike : e.control.Alike e₁.control)
    (hadds : SearchState.Adds handle entry.descriptions rs e.search e₁.search) :
    Attaches handle (entry :: entries) e refused ({ entry with references := rs } :: entries')
      e' where
  wellFormed := h.wellFormed
  root := h.root
  alike := halike.trans h.alike
  same := by rw [List.map_cons, List.map_cons, h.same]
  nodup := List.forall_mem_cons.mpr ⟨hadds.nodup, h.nodup⟩
  retains := fun hr => hadds.retains.trans (h.retains hr)
  upToDate := fun hr hu => h.upToDate hr (hadds.upToDate hu)
  covers := by
    intro hr i entry' hi hpres
    cases i with
    | zero =>
      cases hi
      exact hadds.covers.retains (h.retains hr)
    | succ i =>
      have hc := h.covers hr i entry' hi hpres
      rwa [Nat.add_assoc, Nat.add_comm 1 i] at hc
  admits := fun ν hν hall =>
    h.admits ν (hadds.admits ν hν (hall entry List.mem_cons_self hpresent)) fun entry' hentry =>
      hall entry' (List.mem_cons_of_mem _ hentry)

omit [CustomConstraint κ] in
/-- Nothing is attached from the entry on that is refused. -/
theorem refuse (hw : e₁.WellFormed) (hroot : e₁.search.decisionLevel = 0)
    (hpresent : entry.removed = false) (halike : e.control.Alike e₁.control)
    (hnone : ∀ ν, e.search.Admits ν → ¬ ∀ d ∈ entry.descriptions, d.Holds ν) (event : Event) :
    Attaches handle (entry :: entries) e true ({ entry with references := [] } ::
      entries.map fun entry => { entry with references := [] }) (e₁.report event) where
  wellFormed := ⟨hw.search, hw.clean⟩
  root := hroot
  alike := halike.trans ⟨rfl, rfl⟩
  same := by
    rw [List.map_cons, List.map_cons, List.map_map]
    rfl
  nodup := by
    refine List.forall_mem_cons.mpr ⟨List.nodup_nil, fun entry' hentry => ?_⟩
    obtain ⟨entry'', -, rfl⟩ := List.mem_map.mp hentry
    exact List.nodup_nil
  retains := nofun
  upToDate := nofun
  covers := nofun
  admits := fun ν hν hall => absurd (hall entry List.mem_cons_self hpresent) (hnone ν hν)

end Attaches

theorem attachEntries_spec {handle : Nat} {entries entries' : List (BookEntry κ)} {refused : Bool}
    {e e' : Engine κ} (h : e.WellFormed) (hroot : e.search.decisionLevel = 0)
    (hinf : e.control.infeasible = false)
    (hp : ∀ entry ∈ entries, ∀ d ∈ entry.descriptions, d.Proper)
    (hrun : attachEntries handle entries e = .ok ((refused, entries'), e')) :
    Attaches handle entries e refused entries' e' := by
  induction entries generalizing handle entries' refused e with
  | nil =>
    cases hrun
    exact ⟨h, hroot, .refl _, rfl, nofun, fun _ => .refl _, fun _ hu => hu, nofun,
      fun ν hν _ => ⟨rfl, hν⟩⟩
  | cons entry entries ih =>
    obtain ⟨hentry, hp⟩ := List.forall_mem_cons.mp hp
    unfold attachEntries at hrun
    split at hrun
    · rename_i hremoved
      obtain ⟨⟨⟨refused', rest⟩, e₁⟩, hrest, hrun⟩ := ok_of_bind hrun
      cases hrun
      exact (ih h hroot hinf hp hrest).skip hremoved
    · rename_i hpresent
      have hpresent : entry.removed = false := by simpa using hpresent
      obtain ⟨⟨result, e₁⟩, hadd, hrun⟩ := ok_of_bind hrun
      rcases Engine.add_spec_of_root h hroot hentry hadd with ⟨hinf', -⟩ | ⟨-, hfin⟩
      · rw [hinf] at hinf'
        cases hinf'
      cases result with
      | ok references =>
        obtain ⟨⟨⟨refused', rest⟩, e₂⟩, hrest, hrun⟩ := ok_of_bind hrun
        cases hrun
        have hadds := hfin.adds references rfl
        have hattaches := ih hfin.wellFormed (hadds.decisionLevel_eq.trans hroot)
          (hfin.alike.infeasible.trans hinf) hp hrest
        exact hattaches.cons hpresent hfin.alike hadds
      | error refusal =>
        cases hrun
        obtain ⟨-, hrestores, hnone⟩ := hfin.restores refusal rfl
        have hlevel : e₁.search.decisionLevel = 0 :=
          (congrArg Array.size hrestores.starts).trans hroot
        exact .refuse hfin.wellFormed hlevel hpresent hfin.alike hnone _

omit [CustomConstraint κ] in
/-- Where constraints are attached does not matter to what they say. -/
theorem descriptions_congr {s s' : Session κ}
    (h : s'.book.entries.toList.map (fun entry => (entry.descriptions, entry.removed)) =
      s.book.entries.toList.map fun entry => (entry.descriptions, entry.removed)) :
    s'.descriptions = s.descriptions := by
  have hmap : ∀ s : Session κ, s.descriptions =
      ((s.book.entries.toList.map fun entry => (entry.descriptions, entry.removed)).filter
        fun p => !p.2).flatMap (·.1) := by
    intro s
    rw [List.filter_map, List.flatMap_map]
    rfl
  rw [hmap s', hmap s, h]

/-- After a rebuild nothing is missing and nothing is wrong, whatever was before. -/
theorem rebuild_spec {s s' : Session κ} (h : s.Valid) (hrun : (rebuild).run s = (.ok (), s')) :
    s'.Valid ∧ s'.Faithful ∧ s'.UpToDate ∧ s'.descriptions = s.descriptions := by
  obtain ⟨_, s₁, h₁, hrun⟩ := ok_of_run_bind hrun
  cases h₁
  obtain ⟨_, s₂, h₂, hrun⟩ := ok_of_run_bind hrun
  cases h₂
  obtain ⟨⟨refused, entries⟩, s₃, h₃, hrun⟩ := ok_of_run_bind hrun
  obtain ⟨hattach, hbook⟩ := ok_of_run_ofEngine h₃
  obtain ⟨_, s₄, h₄, hrun⟩ := ok_of_run_bind hrun
  cases h₄
  obtain ⟨e₃, book₃⟩ := s₃
  cases hbook
  obtain ⟨hw, hblank, hrestricted, hinfeasible⟩ := Engine.clear_spec h.engine
  have ha := attachEntries_spec hw hblank.decisionLevel hinfeasible h.proper hattach
  have hsame := ha.same
  have hproper : ∀ entry ∈ entries, ∀ d ∈ entry.descriptions, d.Proper := by
    intro entry hentry d hd
    have hmem := List.mem_map_of_mem
      (f := fun entry : BookEntry κ => (entry.descriptions, entry.removed)) hentry
    rw [hsame] at hmem
    obtain ⟨entry', hentry', heq⟩ := List.mem_map.mp hmem
    refine h.proper entry' hentry' d ?_
    rw [(Prod.mk.inj heq).1]
    exact hd
  have hholds : ∀ {book : Book κ} {e : Engine κ} {ν : Valuation},
      book.entries = entries.toArray → (⟨e, book⟩ : Session κ).Holds ν →
        ∀ entry ∈ s.book.entries.toList, entry.Holds ν := by
    intro book e ν hbook hν
    refine holds_iff.mp ?_
    intro d hd
    refine hν d ?_
    rwa [descriptions_congr (s := s)]
    rw [hbook]
    exact hsame
  have hall := fun ν hν => ha.admits ν (hblank.admits ν) hν
  cases refused with
  | false =>
    cases hrun
    refine ⟨⟨ha.wellFormed, ha.root, hproper, ha.nodup⟩, ⟨fun _ ν hν => ?_, fun hi => ?_,
      fun _ i entry hi hpresent => ?_⟩, fun _ => ha.upToDate rfl hblank.upToDate,
      descriptions_congr hsame⟩
    · exact (hall ν (hholds rfl hν)).2
    · rw [show e₃.control.infeasible = s.engine.clear.control.infeasible from ha.alike.infeasible,
        hinfeasible] at hi
      cases hi
    · have hget : entries[i]? = some entry := by simpa using hi
      have hmap := congrArg (fun l => l[i]?) hsame
      simp only [List.getElem?_map, hget, Option.map_some] at hmap
      obtain ⟨entry', hentry', heq⟩ := Option.map_eq_some_iff.mp hmap.symm
      obtain ⟨hdesc, hrem⟩ := Prod.mk.inj heq
      have hc := ha.covers rfl i entry' hentry' (hrem.trans hpresent)
      rwa [Nat.zero_add, hdesc] at hc
  | true =>
    cases hrun
    refine ⟨⟨⟨ha.wellFormed.search, ha.wellFormed.clean⟩, ha.root, hproper, ha.nodup⟩,
      ⟨fun _ ν hν => ?_, fun _ ν hν => ?_, nofun⟩, nofun, descriptions_congr hsame⟩
    · cases (hall ν (hholds rfl hν)).1
    · cases (hall ν (hholds rfl hν)).1

end Session

end ClauseLearning
