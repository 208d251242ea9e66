import ClauseLearning.Proofs.NormalForms
import ClauseLearning.Proofs.Searching

/-!
# Additions

An addition works at the root. As long as nothing contradicts it, what was there before is there
still, with the new constraints beside it (`SearchState.Preserves`), and what was asked for together
with what was added is what is asked for now (`SearchState.Adds`). At a contradiction everything new
is taken back (`SearchState.Restores`): the facts, their reasons and the constraints are those from
before. What does not come back is the place up to which the trail was notified of, which is the end
of the trail then.

* `SearchState.attachNormal_spec`: a constraint in normal form.
* `Engine.withdraw_spec`: what is taken back.
* `Engine.add_spec`: an addition as a whole.
-/

namespace ClauseLearning

variable {κ : Type}

/-- Two assignments with the same trail are the same if their cells do not differ. -/
theorem Assignment.cell?_eq_of_trues {a b : Assignment} (ha : a.Consistent) (hb : b.Consistent)
    (ht : b.trues = a.trues)
    (hcell : ∀ {v c d}, a.cell? v = some c → b.cell? v = some d → d = c) (v : Nat) :
    b.cell? v = a.cell? v := by
  have hiff : b.isAssigned v = true ↔ a.isAssigned v = true := by
    rw [hb.isAssigned_iff, ha.isAssigned_iff, ht]
  simp only [isAssigned] at hiff
  cases hc : a.cell? v with
  | none =>
    cases hd : b.cell? v with
    | none => rfl
    | some d => simp [hc, hd] at hiff
  | some c =>
    cases hd : b.cell? v with
    | none => simp [hc, hd] at hiff
    | some d => rw [hcell hc hd]

namespace SearchState

/-! ## What is still there -/

/-- Facts and the constraints in `rs` came in at the root, and what was there is there still. -/
structure Preserves (rs : List Reference) (s s' : SearchState κ) : Prop where
  trues : ∃ ls, s'.assignment.trues = s.assignment.trues ++ ls
  cell : ∀ {v c}, s.assignment.cell? v = some c → s'.assignment.cell? v = some c
  starts : s'.assignment.levelStarts = s.assignment.levelStarts
  size : s.assignment.cells.size ≤ s'.assignment.cells.size
  alive : ∀ {r c}, s.arena.get? r = some c →
    ∃ c', s'.arena.get? r = some c' ∧ c.kind.Similar c'.kind ∧ c.metadata.Similar c'.metadata
  dead : ∀ {r}, s.arena.get? r = none → r ∉ rs → s'.arena.get? r = none
  nodup : rs.Nodup
  fresh : ∀ r ∈ rs, s.arena.get? r = none ∧ ∃ c, s'.arena.get? r = some c
  references : s'.learned.references = s.learned.references
  allowed : s'.order.allowed = none ↔ s.order.allowed = none
  head_le : s.head ≤ s'.head
  told : ∀ x ∈ s.assignment.trues.take s.head, ∀ r,
    s'.board.watches.numUndos x.var r = s.board.watches.numUndos x.var r
  still : ∀ n, n ≤ s.head →
    s.arena.Settles s.board.watches (s.assignment.trues.take n) (s.assignment.trues.take n) →
    s'.arena.Settles s'.board.watches (s.assignment.trues.take n) (s.assignment.trues.take n)

namespace Preserves

theorem take {rs : List Reference} {s s' : SearchState κ} (h : Preserves rs s s') {n : Nat}
    (hn : n ≤ s.assignment.trues.length) :
    s'.assignment.trues.take n = s.assignment.trues.take n := by
  obtain ⟨ls, hls⟩ := h.trues
  rw [hls, List.take_append_of_le_length hn]

theorem length_le {rs : List Reference} {s s' : SearchState κ} (h : Preserves rs s s') :
    s.assignment.trues.length ≤ s'.assignment.trues.length := by
  obtain ⟨ls, hls⟩ := h.trues
  rw [hls, List.length_append]
  exact Nat.le_add_right _ _

theorem decisionLevel_eq {rs : List Reference} {s s' : SearchState κ} (h : Preserves rs s s') :
    s'.decisionLevel = s.decisionLevel := congrArg Array.size h.starts

theorem refl (s : SearchState κ) : Preserves [] s s :=
  ⟨⟨[], by simp⟩, fun hc => hc, rfl, Nat.le_refl _, fun {_ c} hc => ⟨c, hc, .refl _, .refl _⟩,
    fun hd _ => hd, List.nodup_nil, nofun, rfl, Iff.rfl, Nat.le_refl _, fun _ _ _ => rfl,
    fun _ _ hs => hs⟩

theorem trans {rs rs' : List Reference} {s₁ s₂ s₃ : SearchState κ} (hw : s₁.WellFormed)
    (h : Preserves rs s₁ s₂) (h' : Preserves rs' s₂ s₃) : Preserves (rs ++ rs') s₁ s₃ := by
  have htake : ∀ n, n ≤ s₁.head → s₂.assignment.trues.take n = s₁.assignment.trues.take n :=
    fun n hn => h.take (Nat.le_trans hn hw.head_le)
  refine ⟨?_, fun hc => h'.cell (h.cell hc), h'.starts.trans h.starts, Nat.le_trans h.size h'.size,
    fun hc => ?_, fun hd hr => ?_, ?_, fun r hr => ?_, h'.references.trans h.references,
    h'.allowed.trans h.allowed, Nat.le_trans h.head_le h'.head_le, fun x hx r => ?_,
    fun n hn hs => ?_⟩
  · obtain ⟨ls, hls⟩ := h.trues
    obtain ⟨ms, hms⟩ := h'.trues
    exact ⟨ls ++ ms, by rw [hms, hls, List.append_assoc]⟩
  · obtain ⟨c₂, hc₂, hk, hm⟩ := h.alive hc
    obtain ⟨c₃, hc₃, hk', hm'⟩ := h'.alive hc₂
    exact ⟨c₃, hc₃, hk.trans hk', hm.trans hm'⟩
  · rw [List.mem_append, not_or] at hr
    exact h'.dead (h.dead hd hr.1) hr.2
  · refine List.nodup_append.mpr ⟨h.nodup, h'.nodup, ?_⟩
    rintro r hr q hq rfl
    obtain ⟨c, hc⟩ := (h.fresh r hr).2
    rw [(h'.fresh r hq).1] at hc
    cases hc
  · rcases List.mem_append.mp hr with hr | hr
    · obtain ⟨hnone, c, hc⟩ := h.fresh r hr
      obtain ⟨c', hc', -⟩ := h'.alive hc
      exact ⟨hnone, c', hc'⟩
    · obtain ⟨hnone, halive⟩ := h'.fresh r hr
      refine ⟨?_, halive⟩
      cases hc : s₁.arena.get? r with
      | none => rfl
      | some c =>
        obtain ⟨c', hc', -⟩ := h.alive hc
        rw [hnone] at hc'
        cases hc'
  · rw [h'.told x, h.told x hx]
    have hx' : x ∈ s₂.assignment.trues.take s₁.head := by
      rw [htake _ (Nat.le_refl _)]
      exact hx
    exact List.take_subset_take_left _ h.head_le hx'
  · have hs' := h'.still n (Nat.le_trans hn h.head_le)
    rw [htake n hn] at hs'
    exact hs' (h.still n hn hs)

theorem of_extends {s s' : SearchState κ} (h : s.Extends s') : Preserves [] s s' := by
  obtain ⟨⟨a, w⟩, arena, learned, order, head⟩ := s
  obtain ⟨⟨a', w'⟩, arena', learned', order', head'⟩ := s'
  obtain ⟨hext, rfl, rfl, rfl, rfl, rfl⟩ := h
  exact ⟨hext.trues, hext.cell, hext.starts, Nat.le_of_eq hext.size.symm,
    fun {_ c} hc => ⟨c, hc, .refl _, .refl _⟩, fun hd _ => hd, List.nodup_nil, nofun, rfl, Iff.rfl,
    Nat.le_refl _, fun _ _ _ => rfl, fun _ _ hs => hs⟩

theorem of_gains {r : Reference} {c : Constraint κ} {s s' : SearchState κ} (hw : s.WellFormed)
    (h : s.Gains r c s') (hl : s'.learned = s.learned) (hf : c.kind.Fresh s.assignment.trues) :
    Preserves [r] s s' := by
  refine ⟨h.extension.trues, h.extension.cell, h.extension.starts,
    Nat.le_of_eq h.extension.size.symm, fun {_ d} hd => ⟨d, h.kept hd, .refl _, .refl _⟩,
    fun {q} hd hq => ?_, List.pairwise_singleton _ _, fun q hq => ?_,
    congrArg LearnedDatabase.references hl, by rw [h.order], Nat.le_of_eq h.head.symm,
    fun x _ q => h.numUndos_eq x.var q, fun n _ hs => ?_⟩
  · rw [h.get, if_neg (fun he => hq (List.mem_singleton.mpr he))]
    exact hd
  · rw [List.mem_singleton.mp hq]
    exact ⟨h.dead, c, h.self⟩
  · have hsub : ∀ l ∈ s.assignment.trues.take n, l ∈ s.assignment.trues := fun l hl =>
      List.mem_of_mem_take hl
    refine h.settles hw (Or.inr hf) (fun l hl k hk hv => ?_) (fun l hl => hl) hsub hs
    exact hw.onBoard.consistent.eq_of_var (hsub l hl) (hsub k hk) hv

theorem of_follows {s s' : SearchState κ} (h : s.Follows s.head s') : Preserves [] s s' :=
  ⟨h.extension.trues, h.extension.cell, h.extension.starts, Nat.le_of_eq h.extension.size.symm,
    h.agree.alive, fun hd _ => h.agree.dead hd, List.nodup_nil, nofun, h.references, by
    rw [h.order], h.head_le, h.told, h.still⟩

theorem grow {s : SearchState κ} (hw : s.WellFormed) (n : Nat) : Preserves [] s (s.grow n) := by
  have hsize := Assignment.size_cells_grow s.assignment n
  have hle : s.assignment.cells.size ≤ (s.grow n).assignment.cells.size := by
    show _ ≤ (s.assignment.grow n).cells.size
    omega
  refine ⟨⟨[], by simp [assignment_grow, Assignment.trues_grow]⟩, fun {v c} hc => ?_, rfl, hle,
    fun {_ c} hc => ⟨c, hc, .refl _, .refl _⟩, fun hd _ => hd, List.nodup_nil, nofun, rfl, ?_,
    Nat.le_refl _, fun x _ r => numUndos_grow s n x.var r, fun k _ hs => settles_grow n hs⟩
  · rw [assignment_grow, Assignment.cell?_grow]
    exact hc
  · have hrepeat := (hw.order.repeat_addVariable (n + 1 - s.order.heap.numKeys)).2.1
    show (s.order.grow n).allowed = none ↔ s.order.allowed = none
    simp only [DecisionOrder.grow, Option.map_eq_none_iff, hrepeat]

end Preserves

/-! ## Parts that come in -/

/-- The parts `ds` came in: no more is asked for than they and the state before say, and no less. -/
structure Adds (handle : Nat) (ds : List (Description κ)) (rs : List Reference)
    (s s' : SearchState κ) : Prop extends Preserves rs s s' where
  wellFormed : s'.WellFormed
  retains : s.Retains s'
  admits : ∀ ν, s.Admits ν → (∀ d ∈ ds, d.Holds ν) → s'.Admits ν
  covers : s'.Covers handle ds
  upToDate : s.UpToDate → s'.UpToDate

namespace Adds

theorem refl {s : SearchState κ} (h : s.WellFormed) (handle : Nat) : Adds handle [] [] s s :=
  ⟨.refl s, h, .refl s, fun _ hν _ => hν, fun _ _ _ => nofun, fun hu => hu⟩

theorem trans {handle : Nat} {ds ds' : List (Description κ)} {rs rs' : List Reference}
    {s₁ s₂ s₃ : SearchState κ} (hw : s₁.WellFormed) (h : Adds handle ds rs s₁ s₂)
    (h' : Adds handle ds' rs' s₂ s₃) : Adds handle (ds ++ ds') (rs ++ rs') s₁ s₃ := by
  refine ⟨h.toPreserves.trans hw h'.toPreserves, h'.wellFormed, h.retains.trans h'.retains,
    fun ν hν hds => ?_, fun ν hroots hholds d hd => ?_, fun hu => h'.upToDate (h.upToDate hu)⟩
  · refine h'.admits ν (h.admits ν hν fun d hd => ?_) fun d hd => ?_
    · exact hds d (List.mem_append_left _ hd)
    · exact hds d (List.mem_append_right _ hd)
  · rcases List.mem_append.mp hd with hd | hd
    · exact h.covers.retains h'.retains ν hroots hholds d hd
    · exact h'.covers ν hroots hholds d hd

end Adds

theorem Extends.refl (s : SearchState κ) : s.Extends s := ⟨.refl _, rfl, rfl, rfl, rfl, rfl⟩

theorem Extends.trans {s₁ s₂ s₃ : SearchState κ} (h : s₁.Extends s₂) (h' : s₂.Extends s₃) :
    s₁.Extends s₃ :=
  ⟨h.extension.trans h'.extension, h'.watches.trans h.watches, h'.arena.trans h.arena,
    h'.order.trans h.order, h'.head.trans h.head, h'.learned.trans h.learned⟩

theorem roots_of_root {s : SearchState κ} (h : s.decisionLevel = 0) :
    s.assignment.roots = s.assignment.trues := Assignment.roots_of_root h

variable [CustomConstraint κ]

/-- At the root, what is admitted makes everything true that is true. -/
theorem Admits.holds_of_root {s : SearchState κ} {ν : Valuation} (h : s.Admits ν)
    (hw : s.WellFormed) (hroot : s.decisionLevel = 0) {l : Literal} (hl : l ∈ s.assignment.trues) :
    l.holds ν = true :=
  h.root_holds hw (by rwa [roots_of_root hroot])

/-- A constraint that is violated at the root has no model. -/
theorem not_admits_of_violated {s : SearchState κ} (hw : s.WellFormed) (hroot : s.decisionLevel = 0)
    {r : Reference} {c : Constraint κ} (hc : s.arena.get? r = some c)
    (hv : c.kind.Violated s.assignment.trues) (ν : Valuation) : ¬ s.Admits ν := by
  intro hν
  obtain ⟨hfalse, himplied⟩ := Constraint.reason_of_violated hw.onBoard.consistent hv
  obtain ⟨m, hm, hmν⟩ := himplied ν (hν.holds hc)
  have hneg := hν.holds_of_root hw hroot (hfalse m hm)
  rw [Literal.holds_negate, hmν] at hneg
  cases hneg

theorem assertUnits_spec {ls : List Literal} {s s' : SearchState κ} {ok : Bool} (h : s.WellFormed)
    (hroot : s.decisionLevel = 0) (hk : ∀ l ∈ ls, l.Known s.assignment.cells.size)
    (hrun : Engine.assertUnits ls s = (ok, s')) :
    s.Extends s' ∧ s'.WellFormed ∧ (s.UpToDate → s'.UpToDate) ∧
      (∀ ν, s.Admits ν → (∀ l ∈ ls, l.holds ν = true) → ok = true ∧ s'.Admits ν) ∧
      (ok = true → ∀ l ∈ ls, l ∈ s'.assignment.trues) := by
  induction ls generalizing s with
  | nil =>
    cases hrun
    exact ⟨.refl _, h, fun hu => hu, fun ν hν _ => ⟨rfl, hν⟩, fun _ => nofun⟩
  | cons l ls ih =>
    have hkl := hk l List.mem_cons_self
    obtain ⟨he, hw, hq⟩ := enqueue_spec h hkl
    have hup : s.UpToDate → (s.enqueue l).2.UpToDate := fun hu => hu.extend h he hq.consistent
    have hadmits : ∀ ν, s.Admits ν → (∀ m ∈ l :: ls, m.holds ν = true) →
        (s.enqueue l).2.Admits ν := fun ν hν hls =>
      hν.enqueue h hkl fun _ => hls l List.mem_cons_self
    have hroot₁ : (s.enqueue l).2.decisionLevel = 0 :=
      (congrArg Array.size he.extension.starts).trans hroot
    simp only [Engine.assertUnits] at hrun
    split at hrun
    · rename_i s₁ hs₁
      rw [hs₁] at he hw hq hup hadmits hroot₁
      obtain ⟨he', hw', hup', hadmits', htrue⟩ := ih hw hroot₁ (fun m hm => by
        rw [he.extension.size]
        exact hk m (List.mem_cons_of_mem _ hm)) hrun
      refine ⟨he.trans he', hw', fun hu => hup' (hup hu), fun ν hν hls => ?_, fun hok m hm => ?_⟩
      · exact hadmits' ν (hadmits ν hν hls) fun m hm => hls m (List.mem_cons_of_mem _ hm)
      · rcases List.mem_cons.mp hm with rfl | hm
        · exact he'.extension.mem (hq.mem rfl)
        · exact htrue hok m hm
    · rename_i s₁ hs₁
      cases hrun
      rw [hs₁] at he hw hq hup hadmits hroot₁
      refine ⟨he, hw, hup, fun ν hν hls => ?_, nofun⟩
      have hneg := (hadmits ν hν hls).holds_of_root hw hroot₁ (hq.falsified rfl).1
      rw [Literal.holds_negate, hls l List.mem_cons_self] at hneg
      cases hneg

/-- A part comes in as its normal form, or the facts and the constraints contradict it. -/
theorem attachNormal_spec {handle : Nat} {attached attached' : List Reference} {k : Normal κ}
    {d : Description κ} {s s' : SearchState κ} {ok : Bool} (h : s.WellFormed)
    (hroot : s.decisionLevel = 0) (hk : k.Represents s.assignment fun ν => d.Holds ν)
    (hrun : Engine.attachNormal handle attached k s = (ok, attached', s')) :
    ∃ rs, attached' = attached ++ rs ∧ s'.WellFormed ∧
      s'.assignment.cells.size = s.assignment.cells.size ∧ Preserves rs s s' ∧
      (ok = true → Adds handle [d] rs s s') ∧
      (ok = false → ∀ ν, s.Admits ν → ¬ d.Holds ν) := by
  have hiff : ∀ ν, s.Admits ν → (k.Holds ν ↔ d.Holds ν) := fun ν hν =>
    hk.holds_iff ν fun l hl => hν.holds_of_root h hroot hl
  have hone : ∀ {ν : Valuation}, d.Holds ν → ∀ d' ∈ [d], d'.Holds ν := by
    intro ν hd d' hd'
    rw [List.mem_singleton.mp hd']
    exact hd
  cases k with
  | satisfied =>
    cases hrun
    refine ⟨[], (List.append_nil _).symm, h, rfl, .refl s, fun _ => ?_, nofun⟩
    refine ⟨.refl s, h, .refl s, fun _ hν _ => hν, fun ν hroots _ => ?_, fun hu => hu⟩
    rw [roots_of_root hroot] at hroots
    exact hone ((hk.holds_iff ν hroots).mp trivial)
  | unsatisfiable =>
    cases hrun
    exact ⟨[], (List.append_nil _).symm, h, rfl, .refl s, nofun,
      fun _ ν hν hd => (hiff ν hν).mpr hd⟩
  | units ls =>
    have hls : ∀ l ∈ ls, l.Known s.assignment.cells.size := hk.wellFormed
    rcases hunits : Engine.assertUnits ls s with ⟨ok₁, s₁⟩
    simp only [Engine.attachNormal, hunits, Prod.mk.injEq] at hrun
    obtain ⟨rfl, rfl, rfl⟩ := hrun
    obtain ⟨he, hw, hup, hadmits, htrue⟩ := assertUnits_spec h hroot hls hunits
    have hroot₁ : s₁.decisionLevel = 0 := (congrArg Array.size he.extension.starts).trans hroot
    refine ⟨[], (List.append_nil _).symm, hw, he.extension.size, .of_extends he, fun hok => ?_,
      fun hok ν hν hd => ?_⟩
    · refine ⟨.of_extends he, hw, he.retains h, fun ν hν hds => ?_, fun ν hroots _ => ?_, hup⟩
      · exact (hadmits ν hν ((hiff ν hν).mpr (hds d List.mem_cons_self))).2
      · rw [roots_of_root hroot₁] at hroots
        refine hone ((hk.holds_iff ν fun l hl => hroots l (he.extension.mem hl)).mp fun l hl => ?_)
        exact hroots l (htrue hok l hl)
    · have hyes := (hadmits ν hν ((hiff ν hν).mpr hd)).1
      rw [hok] at hyes
      cases hyes
  | constraint k =>
    obtain ⟨hkw, hf, hfresh⟩ := hk.wellFormed
    rcases hattach : s.attach ⟨k, .ofHandle handle⟩ with ⟨r, ok₁, s₁⟩
    simp only [Engine.attachNormal, hattach, Prod.mk.injEq] at hrun
    obtain ⟨rfl, rfl, rfl⟩ := hrun
    obtain ⟨rfl, hw, hg, ha, hl⟩ := attach_spec (c := ⟨k, .ofHandle handle⟩) h hkw hf hattach
    have hp := Preserves.of_gains h hg hl hfresh
    refine ⟨[r], rfl, hw, by rw [ha], hp, fun _ => ?_, nofun⟩
    refine ⟨hp, hw, hg.retains h, fun ν hν hds => ?_, fun ν hroots hholds => ?_,
      fun hu => hg.upToDate h hw hu (Or.inr hfresh)⟩
    · exact hg.admits h hν ((hiff ν hν).mpr (hds d List.mem_cons_self))
    · rw [ha, roots_of_root hroot] at hroots
      exact hone ((hk.holds_iff ν hroots).mp (hholds r _ hg.self rfl rfl))

/-- One part after others comes in as its normal form, or contradicts them. -/
theorem Adds.attachNormal {handle : Nat} {done : List (Description κ)}
    {rs attached : List Reference} {d : Description κ} {s₀ s s' : SearchState κ} {ok : Bool}
    (h : Adds handle done rs s₀ s) (h₀ : s₀.WellFormed) (hroot : s₀.decisionLevel = 0)
    (hd : d.Known s.assignment.cells.size)
    (hrun : Engine.attachNormal handle rs (d.normalise s.assignment) s = (ok, attached, s')) :
    s'.WellFormed ∧ s'.assignment.cells.size = s.assignment.cells.size ∧
      Preserves attached s₀ s' ∧ (ok = true → Adds handle (done ++ [d]) attached s₀ s') ∧
      (ok = false → ∀ ν, s₀.Admits ν → ¬ ∀ d' ∈ done ++ [d], d'.Holds ν) := by
  have hw := h.wellFormed
  have hrep := Description.normalise_spec (d := d) hw.onBoard.consistent hd
  obtain ⟨rs', rfl, hw', hsize, hpres, hput, hcontra⟩ :=
    attachNormal_spec hw (h.decisionLevel_eq.trans hroot) hrep hrun
  refine ⟨hw', hsize, h.toPreserves.trans h₀ hpres, fun hok => h.trans h₀ (hput hok),
    fun hok ν hν hds => ?_⟩
  have hadmits : s.Admits ν := h.admits ν hν fun d' hd' => hds d' (List.mem_append_left _ hd')
  exact hcontra hok ν hadmits (hds d (List.mem_append_right _ List.mem_cons_self))

/-! ## Taking an addition back -/

omit [CustomConstraint κ] in
/-- The facts, the reasons and the constraints are the same, and all facts count as notified of. -/
structure Restores (s s' : SearchState κ) : Prop where
  trues : s'.assignment.trues = s.assignment.trues
  starts : s'.assignment.levelStarts = s.assignment.levelStarts
  cell : ∀ v, s'.assignment.cell? v = s.assignment.cell? v
  size : s.assignment.cells.size ≤ s'.assignment.cells.size
  alive : ∀ {r c}, s.arena.get? r = some c →
    ∃ c', s'.arena.get? r = some c' ∧ c.kind.Similar c'.kind ∧ c.metadata.Similar c'.metadata
  dead : ∀ {r}, s.arena.get? r = none → s'.arena.get? r = none
  references : s'.learned.references = s.learned.references
  allowed : s'.order.allowed = none ↔ s.order.allowed = none
  head : s'.head = s.assignment.trues.length
  told : ∀ x ∈ s.assignment.trues.take s.head, ∀ r c, s.arena.get? r = some c →
    s'.board.watches.numUndos x.var r = s.board.watches.numUndos x.var r
  still : s.head = s.assignment.trues.length →
    s.arena.Settles s.board.watches s.assignment.trues s.assignment.trues →
    s'.arena.Settles s'.board.watches s'.assignment.trues s'.assignment.trues

omit [CustomConstraint κ] in
theorem Restores.refl {s : SearchState κ} (hh : s.head = s.assignment.trues.length) :
    Restores s s :=
  ⟨rfl, rfl, fun _ => rfl, Nat.le_refl _, fun {_ c} hc => ⟨c, hc, .refl _, .refl _⟩,
    fun hd => hd, rfl, Iff.rfl, hh, fun _ _ _ _ _ => rfl, fun _ hs => hs⟩

omit [CustomConstraint κ] in
/-- New variables change nothing if there is nothing to notify of. -/
theorem Restores.grow {s : SearchState κ} (h : s.WellFormed)
    (hh : s.head = s.assignment.trues.length) (n : Nat) : Restores s (s.grow n) := by
  have hp := Preserves.grow h n
  refine ⟨Assignment.trues_grow s.assignment n, rfl,
    fun v => Assignment.cell?_grow s.assignment n v,
    hp.size, hp.alive, fun hd => hd, hp.references, hp.allowed, hh, fun x _ r _ _ => ?_,
    fun _ hs => ?_⟩
  · exact numUndos_grow s n x.var r
  · rw [assignment_grow, Assignment.trues_grow]
    exact settles_grow n hs

omit [CustomConstraint κ] in
theorem Restores.trans {s₁ s₂ s₃ : SearchState κ} (h : Restores s₁ s₂) (h' : Restores s₂ s₃) :
    Restores s₁ s₃ := by
  refine ⟨h'.trues.trans h.trues, h'.starts.trans h.starts, fun v => (h'.cell v).trans (h.cell v),
    h.size.trans h'.size, fun hc => ?_, fun hd => h'.dead (h.dead hd),
    h'.references.trans h.references, h'.allowed.trans h.allowed, ?_, fun x hx r c hc => ?_,
    fun hh hs => ?_⟩
  · obtain ⟨c', hc', hk, hm⟩ := h.alive hc
    obtain ⟨c'', hc'', hk', hm'⟩ := h'.alive hc'
    exact ⟨c'', hc'', hk.trans hk', hm.trans hm'⟩
  · rw [h'.head, h.trues]
  · obtain ⟨c', hc', -⟩ := h.alive hc
    refine (h'.told x ?_ r c' hc').trans (h.told x hx r c hc)
    rw [h.trues, h.head, List.take_length]
    exact List.mem_of_mem_take hx
  · refine h'.still (by rw [h.head, h.trues]) ?_
    exact h.still hh hs

omit [CustomConstraint κ] in
/-- Once the new facts are taken back, the new constraints are still there and the reason of
nothing. -/
theorem Preserves.withdrawn {rs : List Reference} {s₀ s s₁ : SearchState κ} (h : Preserves rs s₀ s)
    (h₀ : s₀.WellFormed) (hr : s.Rewinds s₀.assignment.trues.length s₁) (hw₁ : s₁.WellFormed) :
    s₁.assignment.trues = s₀.assignment.trues ∧
      (∀ v, s₁.assignment.cell? v = s₀.assignment.cell? v) ∧
      (∀ r ∈ rs, ∃ c, s₁.arena.get? r = some c) ∧
      ∀ l ∈ s₁.assignment.trues, ∀ r ∈ rs, s₁.assignment.reason? l.var ≠ some r := by
  have hcon₀ := h₀.onBoard.consistent
  have hcon₁ := hw₁.onBoard.consistent
  have htrues : s₁.assignment.trues = s₀.assignment.trues := by
    rw [hr.cut.trues, h.take (Nat.le_refl _), List.take_length]
  have hcell : ∀ v, s₁.assignment.cell? v = s₀.assignment.cell? v := by
    refine Assignment.cell?_eq_of_trues hcon₀ hcon₁ htrues fun hc hd => ?_
    exact Option.some.inj ((hr.cut.cell hd).symm.trans (h.cell hc))
  refine ⟨htrues, hcell, fun r hr' => ?_, fun l hl r hr' hreason => ?_⟩
  · obtain ⟨c, hc⟩ := (h.fresh r hr').2
    obtain ⟨n, hn⟩ := hr.recounted.alive hc
    exact ⟨_, hn⟩
  · rw [Assignment.reason?, hcell] at hreason
    rw [htrues] at hl
    obtain ⟨i, hi⟩ := List.mem_iff_getElem?.mp hl
    obtain ⟨c, hc, -⟩ := h₀.onBoard.explained hi hreason
    rw [(h.fresh r hr').1] at hc
    cases hc

/-- Forgetting the new facts and the new constraints gives back what was there. -/
theorem Preserves.restores {rs : List Reference} {s₀ s s₁ : SearchState κ} (h : Preserves rs s₀ s)
    (h₀ : s₀.WellFormed) (hw : s.WellFormed)
    (hrun : s.backtrackRoot s₀.assignment.trues.length = .ok s₁) :
    (s₁.delete rs).WellFormed ∧ Restores s₀ (s₁.delete rs) ∧
      (s₁.delete rs).assignment.cells.size = s.assignment.cells.size := by
  obtain ⟨hroot, hr, hw₁, hhead, hroot₁⟩ := backtrackRoot_spec hw h.length_le hrun
  obtain ⟨htrues, hcell, hnew, hreason⟩ := h.withdrawn h₀ hr hw₁
  obtain ⟨hw', ht, hget, ha, hrefs⟩ := delete_spec hw₁ h.nodup hnew hreason
  have hkeep : ∀ {r c}, s₀.arena.get? r = some c → r ∉ rs := by
    intro r c hc hr'
    rw [(h.fresh r hr').1] at hc
    cases hc
  refine ⟨hw', ⟨ht.trues.trans htrues, ?_, fun v => ?_, ?_, fun {r c} hc => ?_,
    fun {r} hd => ?_, ?_,
    ?_, ?_, fun x hx r c hc => ?_, fun hh hs => ?_⟩, ht.size.trans hr.cut.size⟩
  · rw [ha, ← h.starts]
    exact (Array.eq_empty_of_size_eq_zero hroot₁).trans (Array.eq_empty_of_size_eq_zero hroot).symm
  · rw [ha, hcell]
  · rw [ha, hr.cut.size]
    exact h.size
  · obtain ⟨c', hc', hk, hm⟩ := h.alive hc
    obtain ⟨n, hn⟩ := hr.recounted.alive hc'
    exact ⟨_, (hget r).trans ((if_neg (hkeep hc)).trans hn),
      hk.trans (Kind.similar_recounted n _), hm⟩
  · rw [hget]
    split
    · rfl
    · rename_i hr'
      exact hr.recounted.dead (h.dead hd hr')
  · rw [hrefs, hr.learned, h.references]
    apply Array.toList_inj.mp
    rw [Array.toList_filter, List.filter_eq_self]
    intro r hr'
    obtain ⟨c, hc, -⟩ := h₀.lists.learned r hr'
    exact decide_eq_true (hkeep hc)
  · rw [ht.order, hr.allowed, h.allowed]
  · rw [ht.head, hhead, htrues]
  · have hx' : x ∈ s.assignment.trues.take s₀.assignment.trues.length := by
      rw [h.take (Nat.le_refl _), List.take_length]
      exact List.mem_of_mem_take hx
    obtain ⟨c', hc', -⟩ := h.alive hc
    obtain ⟨n, hn⟩ := hr.recounted.alive hc'
    rw [ht.told ((hget r).trans ((if_neg (hkeep hc)).trans hn)) x.var, hr.told x hx' r,
      h.told x hx r]
  · rw [ht.trues]
    refine ht.settles ?_
    have hs₀ := h.still s₀.head (Nat.le_refl _)
    rw [hh, List.take_length] at hs₀
    have hs₁ := hr.settles (Nat.le_refl _) (by
      rw [h.take (Nat.le_refl _), List.take_length]
      exact hs₀ hs)
    rw [h.take (Nat.le_refl _), List.take_length] at hs₁
    rw [htrues]
    exact hs₁

namespace Restores

variable {s s' : SearchState κ} (h : Restores s s')
include h

omit [CustomConstraint κ] in
theorem reason?_eq (v : Nat) : s'.assignment.reason? v = s.assignment.reason? v := by
  rw [Assignment.reason?, Assignment.reason?, h.cell]

omit [CustomConstraint κ] in
theorem roots_eq : s'.assignment.roots = s.assignment.roots := by
  rw [Assignment.roots, Assignment.roots, h.trues, Assignment.startOfLevel, Assignment.startOfLevel,
    h.starts, Assignment.size_trail, Assignment.size_trail, h.trues]

omit [CustomConstraint κ] in
theorem of_alive {r : Reference} {c' : Constraint κ} (hc' : s'.arena.get? r = some c') :
    ∃ c, s.arena.get? r = some c ∧ c.kind.Similar c'.kind ∧ c.metadata.Similar c'.metadata := by
  cases hc : s.arena.get? r with
  | none =>
    rw [h.dead hc] at hc'
    cases hc'
  | some c =>
    obtain ⟨d, hd, hk, hm⟩ := h.alive hc
    cases hc'.symm.trans hd
    exact ⟨c, rfl, hk, hm⟩

omit [CustomConstraint κ] in
theorem retains : s.Retains s' :=
  ⟨fun _ hl => h.roots_eq ▸ hl, fun hc _ => Or.inl (h.alive hc)⟩

omit [CustomConstraint κ] in
theorem admits {ν : Valuation} (hν : s.Admits ν) : s'.Admits ν := by
  refine ⟨fun hc' => ?_, fun l hl hr => ?_⟩
  · obtain ⟨c, hc, hk, -⟩ := h.of_alive hc'
    exact (hk.holds_iff ν).mpr (hν.holds hc)
  · rw [h.roots_eq] at hl
    rw [h.reason?_eq] at hr
    exact hν.facts l hl hr

omit [CustomConstraint κ] in
/-- Nothing is missed if there was nothing to notify of. -/
theorem upToDate (hroot : s.decisionLevel = 0) (hh : s.head = s.assignment.trues.length)
    (hu : s.UpToDate) : s'.UpToDate := by
  have hs := hu.settles
  rw [hh, List.take_length] at hs
  refine ⟨fun m hm => ?_, ?_⟩
  · have hnone : s.assignment.levelStarts = #[] := Array.eq_empty_of_size_eq_zero hroot
    rw [h.starts, hnone] at hm
    cases hm
  · rw [h.head, ← h.trues, List.take_length]
    exact h.still hh hs

omit [CustomConstraint κ] in
/-- The counted reports are the same if there was nothing to notify of. -/
theorem falsified_eq (hw : s.WellFormed) (hw' : s'.WellFormed)
    (hh : s.head = s.assignment.trues.length) {r : Reference} {c c' : Constraint κ}
    (hc : s.arena.get? r = some c) (hc' : s'.arena.get? r = some c') :
    c'.kind.falsified = c.kind.falsified := by
  rw [← hw.onBoard.counted hc, ← hw'.onBoard.counted hc']
  refine (Watches.notified_perm_of_numUndos fun v => ?_).length_eq
  by_cases hv : v ∈ s.assignment.trues.map Literal.var
  · obtain ⟨x, hx, rfl⟩ := List.mem_map.mp hv
    refine h.told x ?_ r c hc
    rw [hh, List.take_length]
    exact hx
  · have htrues : s'.board.assignment.trues = s.assignment.trues := h.trues
    rw [hw'.onBoard.numUndos_eq_zero ?_ r, hw.onBoard.numUndos_eq_zero ?_ r]
    · rw [hh, show s.board.assignment.trues = s.assignment.trues from rfl, List.take_length]
      exact hv
    · rw [h.head, htrues, List.take_length]
      exact hv

end Restores

end SearchState

/-! ## Additions -/

namespace Description

/-- A constraint of the library's own over literals of variables from 1 on. -/
def Proper : Description κ → Prop
  | .clause ls => ∀ l ∈ ls, l.var ≠ 0
  | .atLeast ls _ => ∀ l ∈ ls, l.var ≠ 0
  | .parity ls _ => ∀ l ∈ ls, l.var ≠ 0
  | .custom _ => False

theorem Proper.known [CustomConstraint κ] {d : Description κ} (h : d.Proper) {size : Nat}
    (hsize : ∀ v, v ≠ 0 → v ≤ maxVariable d.literals → v < size) : d.Known size := by
  cases d with
  | clause ls => exact fun l hl => ⟨h l hl, hsize l.var (h l hl) (le_maxVariable hl)⟩
  | atLeast ls degree => exact fun l hl => ⟨h l hl, hsize l.var (h l hl) (le_maxVariable hl)⟩
  | parity ls even => exact fun l hl => ⟨h l hl, hsize l.var (h l hl) (le_maxVariable hl)⟩
  | custom c => exact h.elim

theorem Known.proper {d : Description κ} {size : Nat} (h : d.Known size) : d.Proper := by
  cases d with
  | clause ls => exact fun l hl => (h l hl).1
  | atLeast ls degree => exact fun l hl => (h l hl).1
  | parity ls even => exact fun l hl => (h l hl).1
  | custom c => exact h.elim

end Description

/-- What was found out about the constraints as a whole is the same. -/
structure Control.Alike (c c' : Control) : Prop where
  restricted : c'.restricted = c.restricted
  infeasible : c'.infeasible = c.infeasible

theorem Control.Alike.refl (c : Control) : c.Alike c := ⟨rfl, rfl⟩

theorem Control.Alike.trans {c₁ c₂ c₃ : Control} (h : c₁.Alike c₂) (h' : c₂.Alike c₃) :
    c₁.Alike c₃ :=
  ⟨h'.restricted.trans h.restricted, h'.infeasible.trans h.infeasible⟩

namespace Engine

variable [CustomConstraint κ]

open SearchState (Preserves Adds Restores)

omit [CustomConstraint κ] in
theorem grow_adds {e : Engine κ} (h : e.WellFormed) (handle n : Nat) :
    Adds handle [] [] e.search (e.grow n).search := by
  obtain ⟨-, -, -, hs | hs, -⟩ := grow_spec h n
  · rw [hs]
    exact .refl h.search handle
  · rw [hs]
    exact ⟨.grow h.search n, h.search.grow n, .grow _ n,
      fun _ hν _ => SearchState.admits_grow.mpr hν, fun _ _ _ => nofun, fun hu => hu.grow n⟩

/-- What was attached so far goes, and nothing else does. -/
theorem withdraw_spec {s₀ : SearchState κ} {rs : List Reference}
    {result : Except Refusal (List Reference)} {e e' : Engine κ} (h : e.WellFormed)
    (h₀ : s₀.WellFormed) (hp : Preserves rs s₀ e.search)
    (hrun : withdraw s₀.trailLength rs e = .ok (result, e')) :
    result = .error .triviallyUnsatisfiable ∧ e'.WellFormed ∧ e'.control = e.control ∧
      Restores s₀ e'.search := by
  obtain ⟨search, analyser, control⟩ := e
  obtain ⟨s₁, hback, hrun⟩ := ok_of_bind hrun
  cases hrun
  have hlen : s₀.trailLength = s₀.assignment.trues.length := Assignment.size_trail _
  rw [hlen] at hback
  obtain ⟨hw, hrestores, hsize⟩ := hp.restores h₀ h.search hback
  refine ⟨rfl, ⟨hw, ?_⟩, rfl, hrestores⟩
  show analyser.Clean (s₁.delete rs).assignment.cells.size
  rw [hsize]
  exact h.clean

/-- What an addition promises of its parts. -/
structure Finishes (handle : Nat) (ds : List (Description κ)) (s₀ : SearchState κ) (c : Control)
    (result : Except Refusal (List Reference)) (e' : Engine κ) : Prop where
  wellFormed : e'.WellFormed
  alike : c.Alike e'.control
  adds : ∀ rs, result = .ok rs → Adds handle ds rs s₀ e'.search
  restores : ∀ refusal, result = .error refusal →
    refusal = .triviallyUnsatisfiable ∧ Restores s₀ e'.search ∧
      ∀ ν, s₀.Admits ν → ¬ ∀ d ∈ ds, d.Holds ν

theorem Finishes.of_withdraw {handle : Nat} {ds : List (Description κ)} {s₀ : SearchState κ}
    {rs : List Reference} {result : Except Refusal (List Reference)} {e e' : Engine κ}
    (h : e.WellFormed) (h₀ : s₀.WellFormed) (hp : Preserves rs s₀ e.search)
    (hnone : ∀ ν, s₀.Admits ν → ¬ ∀ d ∈ ds, d.Holds ν)
    (hrun : withdraw s₀.trailLength rs e = .ok (result, e')) :
    Finishes handle ds s₀ e.control result e' := by
  obtain ⟨rfl, hw, hcontrol, hrestores⟩ := withdraw_spec h h₀ hp hrun
  refine ⟨hw, ?_, nofun, fun refusal hr => ?_⟩
  · rw [hcontrol]
    exact .refl _
  · cases hr
    exact ⟨rfl, hrestores, hnone⟩

omit [CustomConstraint κ] in
theorem Finishes.of_alike {handle : Nat} {ds : List (Description κ)} {s₀ : SearchState κ}
    {c c' : Control} {result : Except Refusal (List Reference)} {e' : Engine κ}
    (h : Finishes handle ds s₀ c' result e') (hc : c.Alike c') :
    Finishes handle ds s₀ c result e' :=
  ⟨h.wellFormed, hc.trans h.alike, h.adds, h.restores⟩

/-- Propagating what was attached at the root adds nothing to it. A conflict shows that it has no
model. -/
theorem propagate_adds {conflict : Option Reference} {e e' : Engine κ} (h : e.WellFormed)
    (hroot : e.search.decisionLevel = 0) (hrun : e.propagate = .ok (conflict, e')) (handle : Nat) :
    e'.WellFormed ∧ e.control.Alike e'.control ∧ Preserves [] e.search e'.search ∧
      (conflict = none → Adds handle [] [] e.search e'.search) ∧
      ∀ r, conflict = some r → ∀ ν, ¬ e.search.Admits ν := by
  obtain ⟨hadv, -, hviolated, hup, hf, hrestricted, hinfeasible⟩ := propagate_spec h hrun
  have hpres : Preserves [] e.search e'.search := .of_follows hf
  refine ⟨hadv.wellFormed, ⟨hrestricted, hinfeasible⟩, hpres, ?_, ?_⟩
  · rintro rfl
    exact ⟨hpres, hadv.wellFormed.search, hf.retains h.search, fun ν hν _ => hν.follows h.search hf,
      fun _ _ _ => nofun, fun hu => (hup hu).2 rfl⟩
  · rintro r rfl ν hν
    obtain ⟨c, hc, hv⟩ := hviolated r rfl
    exact SearchState.not_admits_of_violated hadv.wellFormed.search
      (hpres.decisionLevel_eq.trans hroot) hc hv ν (hν.follows h.search hf)

theorem addParts_spec {handle : Nat} {done ds : List (Description κ)} {rs : List Reference}
    {s₀ : SearchState κ} {result : Except Refusal (List Reference)} {e e' : Engine κ}
    (h : e.WellFormed) (h₀ : s₀.WellFormed) (hroot : s₀.decisionLevel = 0)
    (hadds : Adds handle done rs s₀ e.search) (hp : ∀ d ∈ ds, d.Proper)
    (hrun : addParts handle s₀.trailLength ds rs e = .ok (result, e')) :
    Finishes handle (done ++ ds) s₀ e.control result e' := by
  induction ds generalizing done rs e with
  | nil =>
    cases hrun
    refine ⟨h, .refl _, fun rs' hr => ?_, nofun⟩
    cases hr
    rw [List.append_nil]
    exact hadds
  | cons d ds ih =>
    have hpds : ∀ d' ∈ ds, d'.Proper := fun d' hd' => hp d' (List.mem_cons_of_mem _ hd')
    have hgrown := grow_adds h handle (Description.maxVariable d.literals)
    obtain ⟨hadv, -, hcontrol, -, hsize⟩ := grow_spec h (Description.maxVariable d.literals)
    have hadds₁ : Adds handle done rs s₀ (e.grow (Description.maxVariable d.literals)).search := by
      have htrans := hadds.trans h₀ hgrown
      rwa [List.append_nil, List.append_nil] at htrans
    have hw₁ := hadv.wellFormed
    unfold addParts at hrun
    generalize e.grow (Description.maxVariable d.literals) = e₁ at *
    obtain ⟨search, analyser, control⟩ := e₁
    have hknown := (hp d List.mem_cons_self).known hsize
    rw [List.append_cons, ← hcontrol]
    dsimp only at hrun
    split at hrun
    · rename_i hsat
      have hattach : attachNormal handle rs (d.normalise search.assignment) search =
          (true, rs, search) := by rw [hsat]; rfl
      obtain ⟨-, -, -, hput, -⟩ := hadds₁.attachNormal h₀ hroot hknown hattach
      exact ih hw₁ (hput rfl) hpds hrun
    · rcases hattach : attachNormal handle rs (d.normalise search.assignment) search with
        ⟨ok, attached, search₂⟩
      obtain ⟨hw₂, hsize₂, hpres₂, hput, hcontra⟩ :=
        hadds₁.attachNormal h₀ hroot hknown hattach
      have he₂ : (⟨search₂, analyser, control⟩ : Engine κ).WellFormed := by
        refine ⟨hw₂, ?_⟩
        show analyser.Clean search₂.assignment.cells.size
        rw [hsize₂]
        exact hw₁.clean
      rw [hattach] at hrun
      cases ok with
      | false =>
        refine .of_withdraw (e := ⟨search₂, analyser, control⟩) he₂ h₀ hpres₂ (fun ν hν hds => ?_)
          hrun
        exact hcontra rfl ν hν fun d' hd' => hds d' (List.mem_append_left _ hd')
      | true =>
        have hadds₂ := hput rfl
        have hroot₂ : search₂.decisionLevel = 0 := hadds₂.decisionLevel_eq.trans hroot
        obtain ⟨⟨conflict, e₃⟩, hprop, hrun⟩ := ok_of_bind hrun
        obtain ⟨hw₃, halike, hpres₃, hadds₃, hnone⟩ := propagate_adds he₂ hroot₂ hprop handle
        cases conflict with
        | none =>
          have hall := hadds₂.trans h₀ (hadds₃ rfl)
          rw [List.append_nil, List.append_nil] at hall
          exact (ih hw₃ hall hpds hrun).of_alike halike
        | some r =>
          have hpres := hpres₂.trans h₀ hpres₃
          rw [List.append_nil] at hpres
          refine (Finishes.of_withdraw hw₃ h₀ hpres (fun ν hν hds => ?_) hrun).of_alike halike
          exact hnone r rfl ν (hadds₂.admits ν hν fun d' hd' => hds d' (List.mem_append_left _ hd'))

/-- An addition is refused before anything is done, or the engine goes back to the root and takes
the parts in from there. -/
theorem add_spec {handle : Nat} {ds : List (Description κ)}
    {result : Except Refusal (List Reference)} {e e' : Engine κ} (h : e.WellFormed)
    (hp : ∀ d ∈ ds, d.Proper) (hrun : e.add handle ds = .ok (result, e')) :
    (e.control.infeasible = true ∧ result = .error .infeasibleState ∧ e' = e) ∨
      (e.control.infeasible = false ∧ ∃ s₀, e.search.backtrack 0 = .ok s₀ ∧ s₀.WellFormed ∧
        s₀.decisionLevel = 0 ∧ Finishes handle ds s₀ e.control result e') := by
  unfold add at hrun
  split at hrun
  · rename_i hinf
    cases hrun
    exact Or.inl ⟨hinf, rfl, rfl⟩
  · rename_i hinf
    obtain ⟨e₀, hback, hrun⟩ := ok_of_bind hrun
    obtain ⟨hadv, hsearch, hcontrol⟩ := backtrack_spec h hback
    have hw₀ := hadv.wellFormed
    have hroot : e₀.search.decisionLevel = 0 := by
      rw [SearchState.decisionLevel_backtrack h.search hsearch, Nat.zero_min]
    have hfin := addParts_spec hw₀ hw₀.search hroot (.refl hw₀.search handle) hp hrun
    rw [hcontrol] at hfin
    exact Or.inr ⟨by simpa using hinf, e₀.search, hsearch, hw₀.search, hroot, hfin⟩

theorem add_spec_of_root {handle : Nat} {ds : List (Description κ)}
    {result : Except Refusal (List Reference)} {e e' : Engine κ} (h : e.WellFormed)
    (hroot : e.search.decisionLevel = 0) (hp : ∀ d ∈ ds, d.Proper)
    (hrun : e.add handle ds = .ok (result, e')) :
    (e.control.infeasible = true ∧ result = .error .infeasibleState ∧ e' = e) ∨
      (e.control.infeasible = false ∧ Finishes handle ds e.search e.control result e') := by
  rcases add_spec h hp hrun with hinf | ⟨hinf, s₀, hback, -, -, hfin⟩
  · exact Or.inl hinf
  · rcases SearchState.backtrack_spec h.search hback with ⟨-, rfl⟩ | ⟨hlt, -⟩
    · exact Or.inr ⟨hinf, hfin⟩
    · rw [hroot] at hlt
      exact absurd hlt (Nat.lt_irrefl 0)

end Engine

end ClauseLearning
