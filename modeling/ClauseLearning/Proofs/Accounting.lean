import ClauseLearning.Proofs.Learning

/-!
# What the arena and the database account for

Every slot of the arena is in use or waits to be handed out again (`Arena.Recycles`), every learned
clause that is alive is in the database, and the database is in the order in which they were learned
(`SearchState.Accounted`). Constraints that hold for a restriction of decisions only are there if
the search says so; what it says is a parameter.

Most operations leave the constraints as they are, so all they have to do is to count no learned
clause that there is not (`Accounted.agree`). Constraints come in by `Accounted.attach` and
`Accounted.learn`, and they go out by `Accounted.delete` and `Accounted.reduce`.
-/

namespace ClauseLearning

variable {κ : Type}

/-! ## Slots -/

namespace Arena

/-- Every slot that is empty may be handed out again. -/
def Recycles (s : Arena κ) : Prop :=
  ∀ r : Reference, r.slot < s.slots.size → s.get? r = none → r ∈ s.recycled

namespace Recycles

theorem agree {s s' : Arena κ} (h : s.Recycles) (ha : s.Agree s') : s'.Recycles := by
  intro r hlt hnone
  rw [ha.recycled]
  refine h r (ha.size ▸ hlt) ?_
  cases hr : s.get? r with
  | none => rfl
  | some c =>
    obtain ⟨c', hc', -⟩ := ha.alive hr
    rw [hc'] at hnone
    cases hnone

/-- A slot that is handed out is in use. -/
theorem allocate {s : Arena κ} (h : s.Recycles) (ht : s.Tidy) (c : Constraint κ) :
    (s.allocate c).2.Recycles := by
  intro r hlt hnone
  rw [(allocate_spec ht c).2.2] at hnone
  split at hnone
  · cases hnone
  rename_i hne
  obtain ⟨slots, recycled⟩ := s
  cases recycled with
  | nil =>
    have hne : r.slot ≠ slots.size := fun heq => hne (Reference.ext_slot heq)
    have hlt : r.slot < (slots.push (some c)).size := hlt
    rw [Array.size_push] at hlt
    exact h r (show r.slot < slots.size by omega) hnone
  | cons q recycled =>
    have hlt : r.slot < (slots.setIfInBounds q.slot (some c)).size := hlt
    rw [Array.size_setIfInBounds] at hlt
    exact (List.mem_cons.mp (h r hlt hnone)).resolve_left hne

theorem set {s : Arena κ} (h : s.Recycles) {r : Reference} {c₀ : Constraint κ}
    (hr : s.get? r = some c₀) (c : Constraint κ) : (s.set r c).Recycles := by
  intro q hlt hnone
  have hlt : q.slot < (s.slots.setIfInBounds r.slot (some c)).size := hlt
  rw [Array.size_setIfInBounds] at hlt
  rw [get?_set hr] at hnone
  split at hnone
  · cases hnone
  · exact h q hlt hnone

/-- What was put into a slot may be changed. -/
theorem allocated {s : Arena κ} (ht : s.Tidy) {c : Constraint κ} (h : (s.allocate c).2.Recycles)
    (c' : Constraint κ) : ((s.allocate c).2.set (s.allocate c).1 c').Recycles := by
  have hget : (s.allocate c).2.get? (s.allocate c).1 = some c := by
    rw [(allocate_spec ht c).2.2, if_pos rfl]
  exact h.set hget c'

/-- Slots that are freed may be handed out again. -/
theorem freeAll {s : Arena κ} (h : s.Recycles) (rs : List Reference) :
    ((rs.foldl (fun s r => s.free r) s).recycle rs).Recycles := by
  obtain ⟨hrecycled, hsize⟩ := recycled_freeAll s rs
  intro q hlt hnone
  have hlt : q.slot < (rs.foldl (fun s r => s.free r) s).slots.size := hlt
  have hnone : (rs.foldl (fun s r => s.free r) s).get? q = none := hnone
  show q ∈ rs.reverse ++ (rs.foldl (fun s r => s.free r) s).recycled
  rw [hrecycled]
  rw [get?_freeAll] at hnone
  by_cases hq : q ∈ rs
  · exact List.mem_append_left _ (List.mem_reverse.mpr hq)
  · rw [if_neg hq] at hnone
    exact List.mem_append_right _ (h q (hsize ▸ hlt) hnone)

theorem empty : (Arena.empty : Arena κ).Recycles := fun _ hlt _ =>
  absurd hlt (Nat.not_lt_zero _)

end Recycles

end Arena

/-! ## The database -/

namespace SearchState

/-- The arena and the database account for every constraint, and if some of them hold for the
current restriction of decisions only, `restricted` says so. -/
structure Accounted (restricted : Bool) (s : SearchState κ) : Prop where
  recycles : s.arena.Recycles
  listed : ∀ {r c}, s.arena.get? r = some c → c.metadata.learned = true →
    r ∈ s.learned.references.toList
  aged : s.learned.references.toList.Pairwise fun r q => ∀ c d, s.arena.get? r = some c →
    s.arena.get? q = some d → c.metadata.age < d.metadata.age
  young : ∀ {r c}, s.arena.get? r = some c → c.metadata.learned = true →
    c.metadata.age ≤ s.learned.numLearned
  noted : ∀ {r c}, s.arena.get? r = some c → c.metadata.restricted = true → restricted = true

namespace Accounted

variable {restricted : Bool} {s s' : SearchState κ}

theorem of_empty {board : Board} {learned : LearnedDatabase} {order : DecisionOrder Generator}
    {head : Nat} (hl : learned.references = #[]) :
    Accounted restricted (⟨board, .empty, learned, order, head⟩ : SearchState κ) := by
  have hnone : ∀ r c, (Arena.empty : Arena κ).get? r ≠ some c := fun r c => by
    simp [Arena.empty, Arena.get?]
  refine ⟨Arena.Recycles.empty, fun hc => ?_, ?_, fun hc => ?_, fun hc => ?_⟩
  · exact absurd hc (hnone _ _)
  · rw [hl]
    exact List.Pairwise.nil
  · exact absurd hc (hnone _ _)
  · exact absurd hc (hnone _ _)

theorem mono (h : Accounted restricted s) {restricted' : Bool}
    (hr : restricted = true → restricted' = true) : Accounted restricted' s :=
  ⟨h.recycles, h.listed, h.aged, h.young, fun hc hm => hr (h.noted hc hm)⟩

/-- The same constraints in the same slots are accounted for, and more of them may have been counted
as learned. -/
theorem agree (h : Accounted restricted s) (ha : s.arena.Agree s'.arena)
    (hrefs : s'.learned.references = s.learned.references)
    (hnum : s.learned.numLearned ≤ s'.learned.numLearned) : Accounted restricted s' := by
  refine ⟨h.recycles.agree ha, fun hc hl => ?_, ?_, fun hc hl => ?_, fun hc hm => ?_⟩
  · obtain ⟨d, hd, -, hmeta⟩ := ha.of_alive hc
    rw [hrefs]
    exact h.listed hd (hmeta.learned.symm.trans hl)
  · rw [hrefs]
    refine h.aged.imp fun hage c d hc hd => ?_
    obtain ⟨c₀, hc₀, -, hmc⟩ := ha.of_alive hc
    obtain ⟨d₀, hd₀, -, hmd⟩ := ha.of_alive hd
    rw [hmc.age, hmd.age]
    exact hage c₀ d₀ hc₀ hd₀
  · obtain ⟨d, hd, -, hmeta⟩ := ha.of_alive hc
    rw [hmeta.age]
    exact Nat.le_trans (h.young hd (hmeta.learned.symm.trans hl)) hnum
  · obtain ⟨d, hd, -, hmeta⟩ := ha.of_alive hc
    exact h.noted hd (hmeta.restricted.symm.trans hm)

end Accounted

/-! ## What counts learned clauses -/

section

variable [CustomConstraint κ]

theorem numLearned_onPropagation (d : LearnedDatabase) (a : Assignment) (c : Constraint κ) :
    (d.onPropagation a c).2.numLearned = d.numLearned := by
  unfold LearnedDatabase.onPropagation
  split
  · show (if _ then _ else _ : Constraint κ × LearnedDatabase).2.numLearned = _
    split
    · rfl
    · rfl
  · rfl

theorem numLearned_visit {p : Literal} {r : Reference} {n : Nat} {s s' : SearchState κ} {ok : Bool}
    (h : visit p r n s = .ok (ok, s')) : s'.learned.numLearned = s.learned.numLearned := by
  obtain ⟨board, arena, learned, order, head⟩ := s
  simp only [visit] at h
  obtain ⟨c, -, h⟩ := ok_of_bind h
  rcases hp : c.propagate r p board with ⟨_ | _, c', b'⟩
  · simp only [hp] at h
    cases h
    rfl
  · simp only [hp] at h
    split at h
    · cases h
      exact numLearned_onPropagation ..
    · cases h
      rfl

theorem numLearned_notify {p : Literal} {ws : List Watcher} {conflict : Option Reference}
    {s s' : SearchState κ} (h : notify p ws s = .ok (conflict, s')) :
    s'.learned.numLearned = s.learned.numLearned := by
  induction ws generalizing s with
  | nil =>
    cases h
    rfl
  | cons w ws ih =>
    unfold notify at h
    split at h
    · exact (ih h).trans rfl
    · obtain ⟨⟨ok, s₁⟩, hvisit, h⟩ := ok_of_bind h
      have hnum := numLearned_visit hvisit
      cases ok with
      | true => exact (ih h).trans hnum
      | false =>
        cases h
        exact hnum

theorem numLearned_propagateSteps {n : Nat} {conflict : Option Reference} {s s' : SearchState κ}
    (h : propagateSteps n s = .ok (conflict, s')) :
    s'.learned.numLearned = s.learned.numLearned := by
  induction n generalizing s with
  | zero => cases h
  | succ n ih =>
    obtain ⟨⟨a, w⟩, arena, learned, order, head⟩ := s
    unfold propagateSteps at h
    cases hp : a.trail[head]? with
    | none =>
      simp only [hp] at h
      cases h
      rfl
    | some p =>
      simp only [hp] at h
      obtain ⟨⟨found, s₁⟩, hnotify, h⟩ := ok_of_bind h
      have hnum := numLearned_notify hnotify
      cases found with
      | none => exact (ih h).trans hnum
      | some r =>
        cases h
        exact hnum

theorem numLearned_analyse {r : Reference} {a : Assignment} {an : Analyser}
    {order : DecisionOrder Generator}
    {learned : LearnedDatabase} {arena : Arena κ} {lesson : Lesson κ}
    (h : an.analyse r a order learned arena = .ok lesson) :
    lesson.learned.numLearned = learned.numLearned := by
  obtain ⟨minimisation, seen, minimiser⟩ := an
  simp only [Analyser.analyse] at h
  split at h
  · cases h
  obtain ⟨start, -, h⟩ := ok_of_bind h
  obtain ⟨⟨last, ⟨seen', marked, lower, numOpen, order', arena', needsRescale⟩⟩, -, h⟩ :=
    ok_of_bind h
  dsimp only at h
  split at h
  · obtain ⟨⟨learned', arena''⟩, hscale, h⟩ := ok_of_bind h
    obtain ⟨⟨ls, an'⟩, -, h⟩ := ok_of_bind h
    cases h
    unfold LearnedDatabase.rescale at hscale
    obtain ⟨arena₁, -, hscale⟩ := ok_of_bind hscale
    cases hscale
    rfl
  · obtain ⟨⟨learned', arena''⟩, hpure, h⟩ := ok_of_bind h
    cases hpure
    obtain ⟨⟨ls, an'⟩, -, h⟩ := ok_of_bind h
    cases h
    rfl

end

theorem arena_attach [CustomConstraint κ] (c : Constraint κ) (s : SearchState κ) :
    ∃ c', (s.attach c).2.2.arena = (s.arena.allocate c).2.set (s.arena.allocate c).1 c' := by
  obtain ⟨⟨a, w⟩, arena, learned, order, head⟩ := s
  exact ⟨_, rfl⟩

namespace Accounted

variable {restricted : Bool} {s s' : SearchState κ}

/-! ## Constraints that stay -/

theorem tunes (h : Accounted restricted s) (ht : s.Tunes s')
    (hnum : s.learned.numLearned ≤ s'.learned.numLearned) : Accounted restricted s' :=
  h.agree ht.arena.agree ht.references hnum

theorem ofExtends (h : Accounted restricted s) (he : s.Extends s') : Accounted restricted s' :=
  h.agree (he.arena ▸ .refl _) (congrArg _ he.learned) (Nat.le_of_eq (congrArg _ he.learned.symm))

theorem propagate [CustomConstraint κ] (h : Accounted restricted s) (hw : s.WellFormed)
    {conflict : Option Reference} (hrun : s.propagate = .ok (conflict, s')) :
    Accounted restricted s' := by
  obtain ⟨hf, -⟩ := propagate_spec hw (Nat.zero_le _) hrun
  exact h.agree hf.agree hf.references (Nat.le_of_eq (numLearned_propagateSteps hrun).symm)

theorem rewinds (h : Accounted restricted s) {n : Nat} (hr : s.Rewinds n s') :
    Accounted restricted s' :=
  h.agree hr.recounted.agree (congrArg _ hr.learned) (Nat.le_of_eq (congrArg _ hr.learned.symm))

theorem backtrack [CustomConstraint κ] (h : Accounted restricted s) (hw : s.WellFormed)
    {level : Nat} (hrun : s.backtrack level = .ok s') : Accounted restricted s' := by
  rcases backtrack_spec hw hrun with ⟨-, rfl⟩ | ⟨-, hr, -⟩
  · exact h
  · exact h.rewinds hr

/-! ## Constraints that come in -/

/-- A constraint that came in is accounted for if it is in the database as the newest one, or was
not learned. -/
theorem gains (h : Accounted restricted s) {r : Reference} {c : Constraint κ} (hg : s.Gains r c s')
    (hrecycles : s'.arena.Recycles)
    (hrefs : s'.learned.references.toList =
      s.learned.references.toList ++ if c.metadata.learned then [r] else [])
    (hlists : s.learned.Lists s.arena)
    (hnum : s.learned.numLearned ≤ s'.learned.numLearned)
    (hage : c.metadata.learned = true → c.metadata.age ≤ s'.learned.numLearned ∧
      ∀ {q d}, s.arena.get? q = some d → d.metadata.learned = true →
        d.metadata.age < c.metadata.age)
    (hnoted : c.metadata.restricted = true → restricted = true) : Accounted restricted s' := by
  refine ⟨hrecycles, fun {q d} hd hl => ?_, ?_, fun {q d} hd hl => ?_, fun {q d} hd hm => ?_⟩
  · rw [hrefs]
    rcases hg.cases hd with ⟨rfl, rfl⟩ | hd
    · simp [hl]
    · exact List.mem_append_left _ (h.listed hd hl)
  · have hold : s.learned.references.toList.Pairwise fun q p => ∀ c d, s'.arena.get? q = some c →
        s'.arena.get? p = some d → c.metadata.age < d.metadata.age := by
      refine h.aged.imp_of_mem ?_
      intro q p hq hp hlt c' d' hc' hd'
      obtain ⟨c₀, hc₀, -⟩ := hlists.learned q hq
      obtain ⟨d₀, hd₀, -⟩ := hlists.learned p hp
      rw [hg.kept hc₀] at hc'
      rw [hg.kept hd₀] at hd'
      cases hc'
      cases hd'
      exact hlt _ _ hc₀ hd₀
    rw [hrefs]
    split
    · rename_i hl
      refine List.pairwise_append.mpr ⟨hold, List.pairwise_singleton .., ?_⟩
      intro q hq p hp c' d' hc' hd'
      cases List.mem_singleton.mp hp
      obtain ⟨c₀, hc₀, hl₀⟩ := hlists.learned q hq
      rw [hg.kept hc₀] at hc'
      rw [hg.self] at hd'
      cases hc'
      cases hd'
      exact (hage hl).2 hc₀ hl₀
    · rw [List.append_nil]
      exact hold
  · rcases hg.cases hd with ⟨rfl, rfl⟩ | hd
    · exact (hage hl).1
    · exact Nat.le_trans (h.young hd hl) hnum
  · rcases hg.cases hd with ⟨rfl, rfl⟩ | hd
    · exact hnoted hm
    · exact h.noted hd hm

theorem attach [CustomConstraint κ] (h : Accounted restricted s) (hw : s.WellFormed)
    {c : Constraint κ} (hk : c.kind.WellFormed s.assignment.cells.size)
    (hf : c.kind.falsified = 0) (hl : c.metadata.learned = false)
    (hm : c.metadata.restricted = false) {r : Reference} {ok : Bool}
    (hrun : s.attach c = (r, ok, s')) : Accounted restricted s' := by
  obtain ⟨-, -, hg, -, hlearned⟩ := attach_spec hw hk hf hrun
  refine h.gains hg ?_ (by rw [hlearned, hl]; simp) hw.lists
    (Nat.le_of_eq (by rw [hlearned]))
    (fun hl' => by rw [hl] at hl'; cases hl') (fun hm' => by rw [hm] at hm'; cases hm')
  obtain ⟨c', harena⟩ := arena_attach c s
  rw [hrun] at harena
  rw [harena]
  exact (h.recycles.allocate hw.tidy c).allocated hw.tidy c'

/-- A clause is accounted for if it is younger than all others. -/
theorem learn (h : Accounted restricted s) (hw : s.WellFormed) {k : Clause}
    {m : Metadata} {lbd : Nat}
    (hk : (Kind.clause k : Kind κ).WellFormed s.assignment.cells.size) (hm : m.learned = true)
    (hrest : ∀ l ∈ k.second :: k.rest, -l ∈ s.assignment.trues)
    (hnew : ∀ {q d}, s.arena.get? q = some d → d.metadata.learned = true → d.metadata.age < m.age)
    (hage : m.age ≤ s.learned.numLearned) (hnoted : m.restricted = true → restricted = true) :
    Accounted restricted (s.learn k m lbd) := by
  obtain ⟨r, c, hmeta, hg⟩ : ∃ r c, m.Similar c.metadata ∧ s.Gains r c (s.learn k m lbd) := by
    obtain ⟨r, c, -, hmeta, -, hg, -⟩ := learn_spec hw hk hm hrest
    exact ⟨r, c, hmeta, hg⟩
  have hr : r = (s.arena.allocate ⟨.clause k, m⟩).1 := by
    by_contra hne
    obtain ⟨⟨a, w⟩, arena, learned, order, head⟩ := s
    have hself := hg.self
    have hold := hg.dead
    have hget : ((arena.allocate ⟨.clause k, m⟩).2.set (arena.allocate ⟨.clause k, m⟩).1
        (learned.add (arena.allocate ⟨.clause k, m⟩).1 lbd ⟨.clause k, m⟩).1).get? r = some c :=
        hself
    rw [Arena.get?_set_of_ne _ _ (Ne.symm hne), (Arena.allocate_spec hw.tidy _).2.2, if_neg hne,
      hold] at hget
    cases hget
  refine h.gains hg ?_ ?_ hw.lists ?_ (fun _ => ⟨?_, ?_⟩) (fun hm' => hnoted ?_)
  · exact (h.recycles.allocate hw.tidy ⟨.clause k, m⟩).allocated hw.tidy _
  · obtain ⟨⟨a, w⟩, arena, learned, order, head⟩ := s
    rw [hmeta.learned, hm, if_pos rfl, hr]
    exact Array.toList_push
  · exact Nat.le_refl _
  · rw [hmeta.age]
    exact hage
  · rw [hmeta.age]
    exact hnew
  · rw [← hmeta.restricted]
    exact hm'

end Accounted

/-! ## Constraints that go out -/

theorem references_delete (s : SearchState κ) (rs : List Reference) :
    (s.delete rs).learned.references.toList.Sublist s.learned.references.toList ∧
      ∀ q ∈ s.learned.references.toList, (s.delete rs).arena.isAlive q = true →
        q ∈ (s.delete rs).learned.references.toList := by
  obtain ⟨⟨a, w⟩, arena, learned, order, head⟩ := s
  cases rs with
  | nil => exact ⟨.refl _, fun q hq _ => hq⟩
  | cons r rs =>
    generalize hfreed : (r :: rs).foldl (fun arena r => arena.free r) arena = freed
    have hrun : delete (r :: rs) ⟨⟨a, w⟩, arena, learned, order, head⟩ =
        ⟨⟨a, w.purge freed.isAlive⟩, freed.recycle (r :: rs), learned.forget freed.isAlive, order,
          head⟩ := by
      rw [← hfreed]
      rfl
    rw [hrun]
    show (learned.references.filter freed.isAlive).toList.Sublist _ ∧
        ∀ q ∈ learned.references.toList,
      freed.isAlive q = true → q ∈ (learned.references.filter freed.isAlive).toList
    rw [Array.toList_filter]
    exact ⟨List.filter_sublist, fun q hq hal => List.mem_filter.mpr ⟨hq, hal⟩⟩

theorem numLearned_delete (s : SearchState κ) (rs : List Reference) :
    (s.delete rs).learned.numLearned = s.learned.numLearned := by
  obtain ⟨⟨a, w⟩, arena, learned, order, head⟩ := s
  cases rs with
  | nil => rfl
  | cons r rs => rfl

namespace Accounted

variable {restricted : Bool} {s s' : SearchState κ}

/-- What is deleted need not be in the database any more. -/
theorem of_delete {rs : List Reference} (hrecycles : s.arena.Recycles)
    (hlisted : ∀ {r c}, s.arena.get? r = some c → c.metadata.learned = true → r ∉ rs →
      r ∈ s.learned.references.toList)
    (haged : s.learned.references.toList.Pairwise fun r q => ∀ c d, s.arena.get? r = some c →
      s.arena.get? q = some d → c.metadata.age < d.metadata.age)
    (hyoung : ∀ {r c}, s.arena.get? r = some c → c.metadata.learned = true →
      c.metadata.age ≤ s.learned.numLearned)
    (hnoted : ∀ {r c}, s.arena.get? r = some c → c.metadata.restricted = true →
      restricted = true) : Accounted restricted (s.delete rs) := by
  have hkept : ∀ {q c}, (s.delete rs).arena.get? q = some c → q ∉ rs ∧ s.arena.get? q = some c := by
    intro q c hc
    rw [get?_delete] at hc
    split at hc
    · cases hc
    · rename_i hq
      exact ⟨hq, hc⟩
  obtain ⟨hsub, hmem⟩ := references_delete s rs
  refine ⟨?_, fun hc hl => ?_, ?_, fun hc hl => ?_, fun hc hm => hnoted (hkept hc).2 hm⟩
  · rw [arena_delete]
    exact hrecycles.freeAll rs
  · obtain ⟨hq, hc₀⟩ := hkept hc
    exact hmem _ (hlisted hc₀ hl hq) (Arena.isAlive_iff.mpr ⟨_, hc⟩)
  · refine (haged.sublist hsub).imp fun hlt c d hc hd => ?_
    exact hlt c d (hkept hc).2 (hkept hd).2
  · rw [numLearned_delete]
    exact hyoung (hkept hc).2 hl

theorem delete (h : Accounted restricted s) (rs : List Reference) :
    Accounted restricted (s.delete rs) :=
  of_delete h.recycles (fun hc hl _ => h.listed hc hl) h.aged h.young h.noted

/-- Facts without reasons are no matter of the constraints. -/
theorem forgetReasons (h : Accounted restricted s) (hw : s.WellFormed)
    (hrun : s.forgetReasons = .ok s') : Accounted restricted s' := by
  obtain ⟨-, -, -, harena, hlearned, -⟩ := forgetReasons_spec hw hrun
  exact h.agree (harena ▸ .refl _) (congrArg _ hlearned) (Nat.le_of_eq (congrArg _ hlearned.symm))

variable [CustomConstraint κ]

theorem simplify (h : Accounted restricted s) (hw : s.WellFormed) {n : Nat}
    (hrun : s.simplify = .ok (n, s')) : Accounted restricted s' := by
  unfold SearchState.simplify at hrun
  obtain ⟨s₁, hforget, hrun⟩ := ok_of_bind hrun
  cases hrun
  exact (h.forgetReasons hw hforget).delete _

end Accounted

end SearchState

/-! ## Reductions -/

namespace LearnedDatabase

variable [CustomConstraint κ]

/-- What a reduction keeps is in the order in which it was learned. -/
theorem aged_reduce {d d' : LearnedDatabase} {arena : Arena κ} {a : Assignment}
    {rs : List Reference}
    (h : d.references.toList.Pairwise fun r q => ∀ c c', arena.get? r = some c →
      arena.get? q = some c' → c.metadata.age < c'.metadata.age)
    (hrun : d.reduce arena a = .ok (rs, d')) :
    d'.references.toList.Pairwise fun r q => ∀ c c', arena.get? r = some c →
      arena.get? q = some c' → c.metadata.age < c'.metadata.age := by
  obtain ⟨entries, deleted, kept, hfst, hget, hperm, -, haged, rfl, rfl⟩ := reduce_eq hrun
  have hentries : entries.Pairwise fun d e : Entry κ => d.2.metadata.age ≠ e.2.metadata.age := by
    rw [← hfst, List.pairwise_map] at h
    exact h.imp_of_mem fun hd he hlt => Nat.ne_of_lt (hlt _ _ (hget _ hd) (hget _ he))
  have hages : kept.Pairwise fun d e : Entry κ => d.2.metadata.age ≠ e.2.metadata.age :=
    (List.pairwise_append.mp ((hperm.pairwise_iff Ne.symm).mpr hentries)).2.1
  have hgetk : ∀ e ∈ kept, arena.get? e.1 = some e.2 := fun e he =>
    hget e (hperm.mem_iff.mp (List.mem_append_right _ he))
  show (kept.map Prod.fst).Pairwise _
  rw [List.pairwise_map]
  refine (haged.and hages).imp_of_mem fun {d e} hd he hlt c c' hc hc' => ?_
  have hcd : some d.2 = some c := (hgetk d hd).symm.trans hc
  have hce : some e.2 = some c' := (hgetk e he).symm.trans hc'
  cases hcd
  cases hce
  exact Nat.lt_of_le_of_ne hlt.1 hlt.2

end LearnedDatabase

/-- A reduction keeps the database in order. -/
theorem SearchState.Accounted.reduce [CustomConstraint κ] {restricted : Bool} {board : Board}
    {arena : Arena κ} {learned learned' : LearnedDatabase} {order : DecisionOrder Generator}
    {head : Nat} (h : Accounted restricted (⟨board, arena, learned, order, head⟩ : SearchState κ))
    {a : Assignment} {rs : List Reference} (hrun : learned.reduce arena a = .ok (rs, learned')) :
    Accounted restricted
      ((⟨board, arena, learned', order, head⟩ : SearchState κ).delete rs) := by
  refine .of_delete h.recycles (fun {r c} hc hl hr => ?_) (LearnedDatabase.aged_reduce h.aged hrun)
    ?_ h.noted
  · have hmem := (LearnedDatabase.perm_reduce hrun).mem_iff.mpr (h.listed hc hl)
    exact (List.mem_append.mp hmem).resolve_left hr
  · obtain ⟨-, -, -, -, -, -, -, -, -, rfl⟩ := LearnedDatabase.reduce_eq hrun
    exact h.young

end ClauseLearning
