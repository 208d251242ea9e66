import ClauseLearning.Proofs.Admission

/-!
# Constraints that go out

A constraint is deleted when it is no reason of a value. Its entries leave the watch lists with it,
and its slot is handed out again later, so that nothing is left that names it. Deleting never
touches what is true (`SearchState.Thins`).

* `delete_spec`: the constraints that go are the ones that were named.
* `simplify_spec`: what the root facts satisfy may go.
* `LearnedDatabase.reduce_eq`, `reduce_spec`: a reduction takes the database apart, and learned
  clauses may go, if they are not locked.
* `deleteOwned_spec`: the constraints of an addition go, and what followed from them stays.
-/

namespace ClauseLearning

variable {κ : Type}

/-! ## Slots -/

namespace Arena

theorem get?_free (s : Arena κ) (r q : Reference) :
    (s.free r).get? q = if q = r then none else s.get? q := by
  by_cases hq : q = r
  · subst hq
    simp only [free, get?, Array.getElem?_setIfInBounds_self, if_true]
    split <;> rfl
  · have hs : r.slot ≠ q.slot := fun hs => hq (Reference.ext_slot hs).symm
    simp [free, get?, hs, hq]

theorem get?_freeAll (s : Arena κ) (rs : List Reference) (q : Reference) :
    (rs.foldl (fun s r => s.free r) s).get? q = if q ∈ rs then none else s.get? q := by
  induction rs generalizing s with
  | nil => simp
  | cons r rs ih =>
    rw [List.foldl_cons, ih, get?_free]
    by_cases hq : q = r
    · simp [hq]
    · simp [hq]

theorem isAlive_freeAll (s : Arena κ) (rs : List Reference) (q : Reference) :
    (rs.foldl (fun s r => s.free r) s).isAlive q = true ↔ q ∉ rs ∧ ∃ c, s.get? q = some c := by
  rw [isAlive_iff, get?_freeAll]
  split
  · rename_i hq
    exact ⟨nofun, fun h => absurd hq h.1⟩
  · rename_i hq
    exact ⟨fun h => ⟨hq, h⟩, And.right⟩

/-- What is left is what is alive. -/
theorem get?_freeAll_eq_some (s : Arena κ) (rs : List Reference) {q : Reference}
    {c : Constraint κ} :
    (rs.foldl (fun s r => s.free r) s).get? q = some c ↔
      s.get? q = some c ∧ (rs.foldl (fun s r => s.free r) s).isAlive q = true := by
  rw [get?_freeAll, isAlive_freeAll]
  split
  · rename_i hq
    exact ⟨nofun, fun h => absurd hq h.2.1⟩
  · rename_i hq
    exact ⟨fun h => ⟨h, hq, c, h⟩, And.left⟩

theorem recycled_freeAll (s : Arena κ) (rs : List Reference) :
    (rs.foldl (fun s r => s.free r) s).recycled = s.recycled ∧
      (rs.foldl (fun s r => s.free r) s).slots.size = s.slots.size := by
  induction rs generalizing s with
  | nil => exact ⟨rfl, rfl⟩
  | cons r rs ih =>
    obtain ⟨hr, hs⟩ := ih (s.free r)
    exact ⟨hr, hs.trans (by simp [free])⟩

/-- Slots that were in use may be handed out again. -/
theorem Tidy.freeAll {s : Arena κ} (h : s.Tidy) {rs : List Reference} (hrs : rs.Nodup)
    (halive : ∀ r ∈ rs, ∃ c, s.get? r = some c) :
    ((rs.foldl (fun s r => s.free r) s).recycle rs).Tidy := by
  obtain ⟨hrec, hsize⟩ := recycled_freeAll s rs
  have hrecycled : ((rs.foldl (fun s r => s.free r) s).recycle rs).recycled =
      rs.reverse ++ s.recycled := by
    rw [← hrec]
    rfl
  have hmem : ∀ r ∈ rs.reverse ++ s.recycled, r ∈ rs ∨ r ∈ s.recycled := by
    intro r hr
    rcases List.mem_append.mp hr with hr | hr
    · exact Or.inl (List.mem_reverse.mp hr)
    · exact Or.inr hr
  refine ⟨?_, fun r hr => ?_, fun r hr => ?_⟩
  · rw [hrecycled, List.nodup_append]
    refine ⟨List.pairwise_reverse.mpr (hrs.imp fun hne => Ne.symm hne), h.nodup, ?_⟩
    rintro r hr q hq rfl
    obtain ⟨c, hc⟩ := halive r (List.mem_reverse.mp hr)
    rw [h.dead r hq] at hc
    cases hc
  · rw [hrecycled] at hr
    show (rs.foldl (fun s r => s.free r) s).get? r = none
    rw [get?_freeAll]
    rcases hmem r hr with hr | hr
    · rw [if_pos hr]
    · rw [h.dead r hr]
      split <;> rfl
  · rw [hrecycled] at hr
    show r.slot < (rs.foldl (fun s r => s.free r) s).slots.size
    rw [hsize]
    rcases hmem r hr with hr | hr
    · obtain ⟨c, hc⟩ := halive r hr
      exact slot_lt hc
    · exact h.lt r hr

/-- The constraints that are listed are those that are alive. -/
theorem mem_toList_iff (s : Arena κ) (e : Reference × Constraint κ) :
    e ∈ s.toList ↔ s.get? e.1 = some e.2 := by
  rw [toList, List.mem_filterMap, get?, Option.join_eq_some_iff]
  constructor
  · rintro ⟨⟨o, i⟩, hi, he⟩
    obtain ⟨c, rfl, rfl⟩ := Option.map_eq_some_iff.mp he
    simpa using List.mem_zipIdx_iff_getElem?.mp hi
  · intro h
    refine ⟨(some e.2, e.1.slot), List.mem_zipIdx_iff_getElem?.mpr ?_, rfl⟩
    rw [Array.getElem?_toList]
    exact h

/-- Slots are listed in ascending order, so none is listed twice. -/
theorem nodup_toList (s : Arena κ) : (s.toList.map Prod.fst).Nodup := by
  have hlt : s.slots.toList.zipIdx.Pairwise fun x y => x.2 < y.2 := by
    rw [← List.pairwise_map, List.zipIdx_map_snd]
    exact List.pairwise_lt_range'
  rw [List.Nodup, List.pairwise_map]
  refine hlt.filterMap _ fun x y hxy e he e' he' heq => ?_
  obtain ⟨c, -, rfl⟩ := Option.map_eq_some_iff.mp he
  obtain ⟨c', -, rfl⟩ := Option.map_eq_some_iff.mp he'
  exact Nat.ne_of_lt hxy (congrArg Reference.slot heq)

end Arena

/-! ## Deleting -/

/-- Constraints that are not alive and no reasons can be dropped from the lists of watchers. -/
theorem Arena.OnBoard.purge {arena arena' : Arena κ} {a : Assignment} {w : Watches} {head : Nat}
    {isAlive : Reference → Bool} (h : arena.OnBoard ⟨a, w⟩ head)
    (hget : ∀ {r c}, arena'.get? r = some c ↔ arena.get? r = some c ∧ isAlive r = true)
    (hreason : ∀ {l r}, l ∈ a.trues → a.reason? l.var = some r → isAlive r = true) :
    arena'.OnBoard ⟨a, w.purge isAlive⟩ head := by
  have hundos : ∀ {r}, isAlive r = true → ∀ v, (w.purge isAlive).numUndos v r = w.numUndos v r :=
    fun hr v => by rw [Watches.numUndos_purge, if_pos hr]
  refine ⟨h.consistent, h.sized.purge _, fun hc => h.wellFormed (hget.mp hc).1, ?_, ?_, ?_, ?_, ?_⟩
  · intro i l r hl hr
    obtain ⟨c, hc, he⟩ := h.explained hl hr
    exact ⟨c, hget.mpr ⟨hc, hreason (List.mem_of_getElem? hl) hr⟩, he⟩
  · intro r c hc l
    show (w.purge isAlive).numWatchers r l = _
    rw [Watches.numWatchers_purge, if_pos (hget.mp hc).2]
    exact h.watched (hget.mp hc).1 l
  · intro l e he
    have he' : e ∈ (w.purge isAlive).watchersOf l := he
    rw [Watches.watchersOf_purge] at he'
    obtain ⟨hmem, halive⟩ := List.mem_filter.mp he'
    obtain ⟨c, hc, hblocks⟩ := h.entries hmem
    exact ⟨c, hget.mpr ⟨hc, halive⟩, hblocks⟩
  · intro r c hc
    rw [← h.counted (hget.mp hc).1]
    exact (Watches.notified_perm_of_numUndos (hundos (hget.mp hc).2)).length_eq
  · intro v r hu
    have hu' : (w.purge isAlive).numUndos v r ≠ 0 := hu
    rw [Watches.numUndos_purge] at hu'
    split at hu'
    · rename_i halive
      obtain ⟨c, hc, x, hx, hxv, hle⟩ := h.reported hu'
      refine ⟨c, hget.mpr ⟨hc, halive⟩, x, hx, hxv, ?_⟩
      show (w.purge isAlive).numUndos v r ≤ _
      rw [hundos halive]
      exact hle
    · exact absurd rfl hu'

namespace SearchState

/-- Some constraints are gone and some values have no reason any more; everything else is as it
was. -/
structure Thins (s s' : SearchState κ) : Prop where
  trues : s'.assignment.trues = s.assignment.trues
  starts : s'.assignment.levelStarts = s.assignment.levelStarts
  size : s'.assignment.cells.size = s.assignment.cells.size
  alive : ∀ {r c}, s'.arena.get? r = some c → s.arena.get? r = some c
  told : ∀ {r c}, s'.arena.get? r = some c → ∀ v,
    s'.board.watches.numUndos v r = s.board.watches.numUndos v r
  order : s'.order = s.order
  head : s'.head = s.head

namespace Thins

theorem refl (s : SearchState κ) : s.Thins s :=
  ⟨rfl, rfl, rfl, fun h => h, fun _ _ => rfl, rfl, rfl⟩

theorem trans {s₁ s₂ s₃ : SearchState κ} (h : s₁.Thins s₂) (h' : s₂.Thins s₃) : s₁.Thins s₃ :=
  ⟨h'.trues.trans h.trues, h'.starts.trans h.starts, h'.size.trans h.size,
    fun hc => h.alive (h'.alive hc), fun hc v => (h'.told hc v).trans (h.told (h'.alive hc) v),
    h'.order.trans h.order, h'.head.trans h.head⟩

variable {s s' : SearchState κ} (h : s.Thins s')
include h

theorem roots_eq : s'.assignment.roots = s.assignment.roots := by
  rw [Assignment.roots, Assignment.roots, h.trues, Assignment.startOfLevel, Assignment.startOfLevel,
    h.starts, Assignment.size_trail, Assignment.size_trail, h.trues]

theorem decisionLevel_eq : s'.decisionLevel = s.decisionLevel := congrArg Array.size h.starts

theorem settles {trues seen : List Literal} (hs : s.arena.Settles s.board.watches trues seen) :
    s'.arena.Settles s'.board.watches trues seen :=
  fun r c hc hl => (hs r c (h.alive hc) hl).congr_told fun x _ => h.told hc x.var

theorem upToDate (hu : s.UpToDate) : s'.UpToDate := by
  refine ⟨fun m hm => ?_, ?_⟩
  · rw [h.starts] at hm
    rw [h.trues]
    exact h.settles (hu.grounded m hm)
  · rw [h.trues, h.head]
    exact h.settles hu.settles

theorem admits [CustomConstraint κ] (hw : s.WellFormed) {ν : Valuation} (ha : s.Admits ν) :
    s'.Admits ν :=
  ⟨fun hc => ha.holds (h.alive hc), fun _ hl _ => ha.root_holds hw (h.roots_eq ▸ hl)⟩

/-- Levels, the order and the trail do not depend on constraints. -/
theorem wellFormed (hw : s.WellFormed) (hb : s'.arena.OnBoard s'.board s'.head)
    (ht : s'.arena.Tidy) (hl : s'.learned.Lists s'.arena) : s'.WellFormed := by
  have hlayered : s'.assignment.Layered := by
    refine ⟨?_, ?_⟩
    · rw [h.starts]
      exact hw.layered.sorted
    · rw [h.starts, h.trues]
      exact hw.layered.le_length
  refine ⟨hb, hlayered, ?_, ?_, ht, hl, ?_, fun v hv hd hn => ?_⟩
  · rw [h.head, h.trues]
    exact hw.head_le
  · rw [h.starts, h.head]
    exact hw.starts_le
  · rw [h.order, h.size]
    exact hw.order
  · rw [h.order] at hv hd ⊢
    refine hw.offers v hv hd ?_
    have hiff := hw.onBoard.consistent.isAssigned_iff v
    have hiff' := hb.consistent.isAssigned_iff v
    have htrues : s'.board.assignment.trues = s.board.assignment.trues := h.trues
    rw [htrues, ← hiff] at hiff'
    rw [← hn]
    exact Bool.eq_iff_iff.mpr hiff'.symm

end Thins

theorem assignment_delete (s : SearchState κ) (rs : List Reference) :
    (s.delete rs).assignment = s.assignment := by
  obtain ⟨⟨a, w⟩, arena, learned, order, head⟩ := s
  simp only [delete]
  split <;> rfl

theorem arena_delete (s : SearchState κ) (rs : List Reference) :
    (s.delete rs).arena = (rs.foldl (fun arena r => arena.free r) s.arena).recycle rs := by
  obtain ⟨⟨a, w⟩, arena, learned, order, head⟩ := s
  cases rs with
  | nil => rfl
  | cons r rs => rfl

theorem get?_delete (s : SearchState κ) (rs : List Reference) (q : Reference) :
    (s.delete rs).arena.get? q = if q ∈ rs then none else s.arena.get? q := by
  rw [arena_delete, ← Arena.get?_freeAll]
  rfl

/-- Those that are freed are forgotten, and no others. -/
theorem references_forget {learned : LearnedDatabase} {arena : Arena κ} (h : learned.Lists arena)
    (rs : List Reference) :
    (learned.forget (rs.foldl (fun s r => s.free r) arena).isAlive).references =
      learned.references.filter fun r => decide (r ∉ rs) := by
  apply Array.toList_inj.mp
  show (learned.references.filter (rs.foldl (fun s r => s.free r) arena).isAlive).toList = _
  rw [Array.toList_filter, Array.toList_filter]
  refine List.filter_congr fun r hr => ?_
  obtain ⟨c, hc, -⟩ := h.learned r hr
  have hiff := arena.isAlive_freeAll rs r
  by_cases hmem : r ∈ rs
  · simpa [hmem] using hiff
  · simp only [hmem, not_false_eq_true, decide_true, true_and] at hiff ⊢
    exact hiff.mpr ⟨c, hc⟩

theorem references_delete_eq_filter {s : SearchState κ} (h : s.learned.Lists s.arena)
    (rs : List Reference) :
    (s.delete rs).learned.references = s.learned.references.filter fun r => decide (r ∉ rs) := by
  obtain ⟨⟨a, w⟩, arena, learned, order, head⟩ := s
  cases rs with
  | nil =>
    apply Array.toList_inj.mp
    rw [Array.toList_filter, eq_comm]
    exact List.filter_eq_self.mpr fun r _ => decide_eq_true List.not_mem_nil
  | cons r rs => exact references_forget h (r :: rs)

theorem thins_delete (s : SearchState κ) (rs : List Reference) : s.Thins (s.delete rs) := by
  obtain ⟨⟨a, w⟩, arena, learned, order, head⟩ := s
  cases rs with
  | nil => exact .refl _
  | cons r rs =>
    refine ⟨rfl, rfl, rfl, fun hc => ((arena.get?_freeAll_eq_some (r :: rs)).mp hc).1,
      fun {q c} hc v => ?_, rfl, rfl⟩
    show (w.purge ((r :: rs).foldl (fun s r => s.free r) arena).isAlive).numUndos v q = _
    rw [Watches.numUndos_purge, if_pos ((arena.get?_freeAll_eq_some (r :: rs)).mp hc).2]

/-- No value loses its reason. -/
theorem onBoard_delete {s : SearchState κ} (h : s.arena.OnBoard s.board s.head)
    {rs : List Reference}
    (hreason : ∀ l ∈ s.assignment.trues, ∀ r ∈ rs, s.assignment.reason? l.var ≠ some r) :
    (s.delete rs).arena.OnBoard (s.delete rs).board (s.delete rs).head := by
  obtain ⟨⟨a, w⟩, arena, learned, order, head⟩ := s
  cases rs with
  | nil => exact h
  | cons r₀ rs =>
    refine h.purge (arena.get?_freeAll_eq_some (r₀ :: rs)) fun {l r} hl hr => ?_
    obtain ⟨i, hi⟩ := List.mem_iff_getElem?.mp hl
    obtain ⟨c, hc, -⟩ := h.explained hi hr
    exact (arena.isAlive_freeAll (r₀ :: rs) r).mpr ⟨fun hmem => hreason l hl r hmem hr, c, hc⟩

/-- The constraints that are named go, and nothing else does. -/
theorem delete_spec {s : SearchState κ} (h : s.WellFormed) {rs : List Reference} (hrs : rs.Nodup)
    (halive : ∀ r ∈ rs, ∃ c, s.arena.get? r = some c)
    (hreason : ∀ l ∈ s.assignment.trues, ∀ r ∈ rs, s.assignment.reason? l.var ≠ some r) :
    (s.delete rs).WellFormed ∧ s.Thins (s.delete rs) ∧
      (∀ q, (s.delete rs).arena.get? q = if q ∈ rs then none else s.arena.get? q) ∧
      (s.delete rs).assignment = s.assignment ∧
      (s.delete rs).learned.references = s.learned.references.filter fun r => decide (r ∉ rs) := by
  have hthins := thins_delete s rs
  have hget := get?_delete s rs
  have hrefs := references_delete_eq_filter h.lists rs
  have htidy : (s.delete rs).arena.Tidy := by
    rw [arena_delete]
    exact h.tidy.freeAll hrs halive
  have hlists : (s.delete rs).learned.Lists (s.delete rs).arena := by
    refine ⟨?_, fun r hr => ?_⟩
    · rw [hrefs, Array.toList_filter]
      exact h.lists.nodup.sublist List.filter_sublist
    · rw [hrefs, Array.toList_filter] at hr
      obtain ⟨hmem, hnot⟩ := List.mem_filter.mp hr
      obtain ⟨c, hc, hl⟩ := h.lists.learned r hmem
      refine ⟨c, ?_, hl⟩
      rw [hget, if_neg (of_decide_eq_true hnot)]
      exact hc
  exact ⟨hthins.wellFormed h (onBoard_delete h.onBoard hreason) htidy hlists, hthins, hget,
    assignment_delete s rs, hrefs⟩

/-! ## Facts without reasons -/

theorem clearReasons_spec {a : Assignment} (h : a.Consistent) (ls : List Literal) :
    (ls.foldl (fun a l => a.clearReason l.var) a).Consistent ∧
      (ls.foldl (fun a l => a.clearReason l.var) a).trues = a.trues ∧
      (ls.foldl (fun a l => a.clearReason l.var) a).levelStarts = a.levelStarts ∧
      (ls.foldl (fun a l => a.clearReason l.var) a).cells.size = a.cells.size ∧
      ∀ v, (ls.foldl (fun a l => a.clearReason l.var) a).reason? v =
        if v ∈ ls.map Literal.var then none else a.reason? v := by
  induction ls generalizing a with
  | nil => exact ⟨h, rfl, rfl, rfl, fun v => by simp⟩
  | cons l ls ih =>
    obtain ⟨hc, ht, hs, hz, hr⟩ := ih (h.clearReason l.var)
    refine ⟨hc, ht, hs, hz.trans (Assignment.size_cells_clearReason a l.var), fun v => ?_⟩
    rw [List.foldl_cons, hr v, Assignment.reason?, Assignment.cell?_clearReason, Assignment.reason?]
    by_cases hv : v ∈ ls.map Literal.var
    · have hv' : v ∈ (l :: ls).map Literal.var := List.mem_cons_of_mem _ hv
      rw [if_pos hv, if_pos hv']
    · by_cases hlv : l.var = v
      · have hv' : v ∈ (l :: ls).map Literal.var := by
          rw [List.map_cons, hlv]
          exact List.mem_cons_self
        rw [if_neg hv, if_pos hlv, if_pos hv']
        cases a.cell? v <;> rfl
      · have hv' : v ∉ (l :: ls).map Literal.var := by
          rw [List.map_cons, List.mem_cons]
          rintro (rfl | hmem)
          · exact hlv rfl
          · exact hv hmem
        rw [if_neg hv, if_neg hlv, if_neg hv']

/-- At the root every value may become a fact. -/
theorem forgetReasons_spec {s s' : SearchState κ} (h : s.WellFormed)
    (hrun : s.forgetReasons = .ok s') :
    s.decisionLevel = 0 ∧ s'.WellFormed ∧ s.Thins s' ∧ s'.arena = s.arena ∧
      s'.learned = s.learned ∧ ∀ l ∈ s'.assignment.trues, s'.assignment.reason? l.var = none := by
  obtain ⟨⟨a, w⟩, arena, learned, order, head⟩ := s
  simp only [forgetReasons] at hrun
  split at hrun
  · cases hrun
  · rename_i hroot
    have hroot : a.decisionLevel = 0 := by simpa using hroot
    cases hrun
    have hb : arena.OnBoard ⟨a, w⟩ head := h.onBoard
    obtain ⟨hc, ht, hs, hz, hr⟩ := clearReasons_spec hb.consistent a.trues
    have hfold : a.trail.foldl (fun a l => a.clearReason l.var) a =
        a.trues.foldl (fun a l => a.clearReason l.var) a := by
      rw [Assignment.trues, Array.foldl_toList]
    rw [hfold]
    generalize a.trues.foldl (fun a l => a.clearReason l.var) a = a' at hc ht hs hz hr
    have hthins : (⟨⟨a, w⟩, arena, learned, order, head⟩ : SearchState κ).Thins
        ⟨⟨a', w⟩, arena, learned, order, head⟩ :=
      ⟨ht, hs, hz, fun hc => hc, fun _ _ => rfl, rfl, rfl⟩
    have hnone : ∀ l ∈ a'.trues, a'.reason? l.var = none := by
      intro l hl
      rw [ht] at hl
      rw [hr, if_pos (List.mem_map.mpr ⟨l, hl, rfl⟩)]
    refine ⟨hroot, hthins.wellFormed h ⟨hc, ?_, fun {r c} hr => ?_, ?_, hb.watched, hb.entries,
      hb.counted, fun hu => ?_⟩ h.tidy h.lists, hthins, rfl, rfl, hnone⟩
    · show w.Sized a'.cells.size
      rw [hz]
      exact hb.sized
    · show c.kind.WellFormed a'.cells.size
      rw [hz]
      exact hb.wellFormed hr
    · intro i l r hl hr
      have hr' : a'.reason? l.var = some r := hr
      rw [hnone l (List.mem_of_getElem? hl)] at hr'
      cases hr'
    · obtain ⟨c, hc, x, hx, hrest⟩ := hb.reported hu
      refine ⟨c, hc, x, ?_, hrest⟩
      show x ∈ a'.trues.take head
      rw [ht]
      exact hx

/-! ## Which constraints go -/

variable [CustomConstraint κ]

/-- What the root facts satisfy may go. -/
theorem simplify_spec {n : Nat} {s s' : SearchState κ} (h : s.WellFormed)
    (hrun : s.simplify = .ok (n, s')) :
    s.decisionLevel = 0 ∧ s'.WellFormed ∧ s.Thins s' ∧ s.Retains s' := by
  unfold simplify at hrun
  obtain ⟨s₁, hforget, hrun⟩ := ok_of_bind hrun
  cases hrun
  obtain ⟨hroot, hw₁, ht₁, harena, -, hnone⟩ := forgetReasons_spec h hforget
  have hmem := s₁.arena.mem_toList_iff
  have hnodup := s₁.arena.nodup_toList
  have hsat : ∀ r ∈ (s₁.arena.toList.filter fun e => e.2.isSatisfied s₁.assignment).map (·.1),
      ∃ c, s₁.arena.get? r = some c ∧ c.isSatisfied s₁.assignment = true := by
    intro r hr
    obtain ⟨e, he, rfl⟩ := List.mem_map.mp hr
    obtain ⟨hin, hs⟩ := List.mem_filter.mp he
    exact ⟨e.2, (hmem e).mp hin, hs⟩
  obtain ⟨hw', ht', hget, -, -⟩ := delete_spec hw₁
    (hnodup.sublist (List.Sublist.map _ List.filter_sublist))
    (fun r hr => (hsat r hr).imp fun _ hc => hc.1)
    (fun l hl r _ => by rw [hnone l hl]; exact nofun)
  refine ⟨hroot, hw', ht₁.trans ht', fun l hl => ?_, fun {r c} hc _ => ?_⟩
  · rwa [(ht₁.trans ht').roots_eq]
  · rw [hget]
    split
    · rename_i hr
      obtain ⟨d, hd, hs⟩ := hsat r hr
      rw [harena, hc] at hd
      cases hd
      refine Or.inr fun ν hν => ?_
      have hcon := hw₁.onBoard.consistent
      have hc₁ : s₁.arena.get? r = some c := by rw [harena, hc]
      refine Constraint.holds_of_isSatisfied hcon (hw₁.onBoard.wellFormed hc₁) hs fun l hl => ?_
      refine hν l ?_
      have hroot₁ : s₁.assignment.decisionLevel = 0 := ht₁.decisionLevel_eq.trans hroot
      rw [ht'.roots_eq, Assignment.roots_of_root hroot₁]
      exact hl
    · rw [harena]
      exact Or.inl ⟨c, hc, .refl _, .refl _⟩

/-- The constraints of an addition go; those of others stay. -/
theorem deleteOwned_spec {rs : List Reference} {handle : Nat} {s s' : SearchState κ}
    (h : s.WellFormed) (hrs : rs.Nodup) (hrun : s.deleteOwned rs handle = .ok s') :
    s'.WellFormed ∧ s'.decisionLevel = 0 ∧ (s.UpToDate → s'.UpToDate) ∧
      (∀ ν, s.Admits ν → s'.Admits ν) ∧
      (∀ other ds, other ≠ handle → s.Covers other ds → s'.Covers other ds) ∧
      s'.assignment.cells.size = s.assignment.cells.size := by
  unfold deleteOwned at hrun
  obtain ⟨s₁, hback, hrun⟩ := ok_of_bind hrun
  obtain ⟨s₂, hforget, hrun⟩ := ok_of_bind hrun
  cases hrun
  have hw₁ := h.backtrack hback
  obtain ⟨hroot, hw₂, ht₂, harena, -, hnone⟩ := forgetReasons_spec hw₁ hforget
  generalize howned : (rs.filter fun r =>
    (s₂.arena.get? r).any fun c => c.metadata.handle == some handle) = owned
  have hof : ∀ r ∈ owned, ∃ c, s₂.arena.get? r = some c ∧ c.metadata.handle = some handle := by
    intro r hr
    rw [← howned] at hr
    obtain ⟨c, hc, hh⟩ := (Option.any_eq_true ..).mp (List.mem_filter.mp hr).2
    exact ⟨c, hc, by simpa using hh⟩
  obtain ⟨hw', ht', hget, -, -⟩ := delete_spec hw₂
    (howned ▸ hrs.sublist List.filter_sublist)
    (fun r hr => (hof r hr).imp fun _ hc => hc.1)
    (fun l hl r _ => by rw [hnone l hl]; exact nofun)
  have hthins := ht₂.trans ht'
  have hsize₁ : s₁.assignment.cells.size = s.assignment.cells.size := by
    rcases backtrack_spec h hback with ⟨-, rfl⟩ | ⟨-, hr, -⟩
    · rfl
    · exact hr.cut.size
  refine ⟨hw', hthins.decisionLevel_eq.trans hroot, fun hu => hthins.upToDate
    (hu.backtrack h hback),
    fun ν ha => hthins.admits hw₁ (ha.backtrack h hback), fun other ds hne hcov => ?_,
    hthins.size.trans hsize₁⟩
  have hcov₁ := hcov.retains (Retains.backtrack h hback)
  intro ν hroots hholds
  refine hcov₁ ν (fun l hl => hroots l (hthins.roots_eq ▸ hl)) fun r c hc hl hh => ?_
  refine hholds r c ?_ hl hh
  rw [hget, if_neg, harena]
  · exact hc
  · intro hr
    obtain ⟨d, hd, hdh⟩ := hof r hr
    rw [harena, hc] at hd
    cases hd
    rw [hdh] at hh
    exact hne (Option.some.inj hh).symm

end SearchState

/-! ## Locked clauses -/

variable [CustomConstraint κ]

/-- The reason of a value is locked. -/
theorem Constraint.isLocked_of_reason {a : Assignment} (h : a.Consistent) {c : Constraint κ}
    {r : Reference} {before : List Literal} {l : Literal} (hl : l ∈ a.trues)
    (hr : a.reason? l.var = some r) (he : c.kind.Explains before l) : c.isLocked a r = true := by
  have hself : isReasonOf a r l = true := by
    simp only [isReasonOf, Bool.and_eq_true, beq_iff_eq]
    exact ⟨(h.isSatisfied_iff l).mpr hl, hr⟩
  obtain ⟨k, metadata⟩ := c
  cases k with
  | clause k =>
    obtain ⟨rfl, -⟩ := he
    exact hself
  | cardinality k => exact List.any_eq_true.mpr ⟨l, he.1, hself⟩
  | parity k =>
    refine List.any_eq_true.mpr ⟨Literal.make l.var true, List.mem_map.mpr ⟨l.var, he.1, rfl⟩, ?_⟩
    rw [Bool.or_eq_true]
    cases hp : l.isPositive with
    | true =>
      left
      have hl' : Literal.make l.var true = l := by rw [← hp, Literal.make_var_isPositive]
      rwa [hl']
    | false =>
      right
      have hl' : -Literal.make l.var true = l :=
        Literal.ext_var (by simp) (by simp [hp])
      rwa [hl']
  | custom k => exact he.elim

namespace LearnedDatabase

omit [CustomConstraint κ] in
theorem entries_spec {arena : Arena κ} {rs : List Reference} {entries : List (Entry κ)}
    (hrun : (rs.mapM fun r => do return (r, ← arena.get r) : Except Fault (List (Entry κ))) =
      .ok entries) :
    entries.map Prod.fst = rs ∧ ∀ e ∈ entries, arena.get? e.1 = some e.2 := by
  induction rs generalizing entries with
  | nil =>
    rw [List.mapM_nil] at hrun
    cases hrun
    exact ⟨rfl, fun e he => by cases he⟩
  | cons r rs ih =>
    rw [List.mapM_cons] at hrun
    obtain ⟨e, he, hrun⟩ := ok_of_bind hrun
    obtain ⟨c, hc, he⟩ := ok_of_bind he
    obtain ⟨es, hes, hrun⟩ := ok_of_bind hrun
    cases he
    cases hrun
    obtain ⟨hmap, hget⟩ := ih hes
    refine ⟨by rw [List.map_cons, hmap], fun e he => ?_⟩
    rcases List.mem_cons.mp he with rfl | he
    · exact Arena.get_eq_ok.mp hc
    · exact hget e he

/-- A split loses nothing, and only deletable clauses are to be forgotten. -/
theorem split_spec (rule : DeletionRule) (undefined : Int) (a : Assignment)
    (entries : List (Entry κ)) :
    ((rule.split undefined a entries).1 ++ (rule.split undefined a entries).2).Perm entries ∧
      ∀ e ∈ (rule.split undefined a entries).1, DeletionRule.isDeletable a e = true := by
  simp only [DeletionRule.split, List.partition_eq_filter_filter]
  generalize hsorted : (entries.filter (DeletionRule.isDeletable a)).mergeSort
    (fun d e => rule.isWorse undefined d.2 e.2) = sorted
  have hperm : sorted.Perm (entries.filter (DeletionRule.isDeletable a)) := by
    rw [← hsorted]
    exact List.mergeSort_perm _ _
  generalize rule.target entries.length
    (entries.filter (DeletionRule.isDeletable a)).length = n
  constructor
  · refine ((List.mergeSort_perm _ _).append_left _).trans ?_
    rw [← List.append_assoc]
    refine (List.perm_append_comm.append_right _).trans ?_
    rw [List.append_assoc, List.take_append_drop]
    refine (hperm.append_left _).trans ?_
    exact List.perm_append_comm.trans (List.filter_append_perm _ entries)
  · intro e he
    exact (List.mem_filter.mp (hperm.mem_iff.mp (List.mem_of_mem_take he))).2

/-- What a split keeps is in the order of ages. -/
theorem aged_split (rule : DeletionRule) (undefined : Int) (a : Assignment)
    (entries : List (Entry κ)) :
    (rule.split undefined a entries).2.Pairwise fun d e =>
      d.2.metadata.age ≤ e.2.metadata.age := by
  rcases hpart : entries.partition (DeletionRule.isDeletable a) with ⟨deletable, kept⟩
  simp only [DeletionRule.split, hpart]
  refine (List.pairwise_mergeSort (fun x y z hxy hyz => ?_) (fun x y => ?_) _).imp of_decide_eq_true
  · exact decide_eq_true (Nat.le_trans (of_decide_eq_true hxy) (of_decide_eq_true hyz))
  · simp only [Bool.or_eq_true, decide_eq_true_eq]
    exact Nat.le_total ..

/-- A reduction takes the references of the database apart. -/
theorem reduce_eq {d d' : LearnedDatabase} {arena : Arena κ} {a : Assignment} {rs : List Reference}
    (hrun : d.reduce arena a = .ok (rs, d')) :
    ∃ entries deleted kept : List (Entry κ), entries.map Prod.fst = d.references.toList ∧
      (∀ e ∈ entries, arena.get? e.1 = some e.2) ∧ (deleted ++ kept).Perm entries ∧
      (∀ e ∈ deleted, DeletionRule.isDeletable a e = true) ∧
      (kept.Pairwise fun d e => d.2.metadata.age ≤ e.2.metadata.age) ∧
      rs = deleted.map Prod.fst ∧ d' = { d with references := (kept.map Prod.fst).toArray } := by
  unfold reduce at hrun
  obtain ⟨entries, hentries, hrun⟩ := ok_of_bind hrun
  obtain ⟨hfst, hget⟩ := entries_spec hentries
  obtain ⟨hperm, hdeletable⟩ := split_spec d.options.deletion d.options.undefinedRank a entries
  have haged := aged_split d.options.deletion d.options.undefinedRank a entries
  rcases hsplit : d.options.deletion.split d.options.undefinedRank a entries with ⟨deleted, kept⟩
  rw [hsplit] at hperm hdeletable haged
  simp only [hsplit] at hrun
  cases hrun
  exact ⟨entries, deleted, kept, hfst, hget, hperm, hdeletable, haged, rfl, rfl⟩

/-- A reduction loses no reference and makes none up. -/
theorem perm_reduce {d d' : LearnedDatabase} {arena : Arena κ} {a : Assignment}
    {rs : List Reference} (hrun : d.reduce arena a = .ok (rs, d')) :
    (rs ++ d'.references.toList).Perm d.references.toList := by
  obtain ⟨entries, deleted, kept, hfst, -, hperm, -, -, rfl, rfl⟩ := reduce_eq hrun
  rw [← hfst, ← List.map_append]
  exact hperm.map _

/-- A reduction takes learned clauses that may be deleted out of the database. -/
theorem Lists.reduce {d d' : LearnedDatabase} {arena : Arena κ} (h : d.Lists arena) {a : Assignment}
    {rs : List Reference} (hrun : d.reduce arena a = .ok (rs, d')) :
    rs.Nodup ∧ d'.Lists arena ∧ ∀ r ∈ rs, ∃ c, arena.get? r = some c ∧ c.metadata.learned = true ∧
      DeletionRule.isDeletable a (r, c) = true := by
  have hrefs := perm_reduce hrun
  obtain ⟨hdeleted, hkept, -⟩ := List.nodup_append.mp (hrefs.nodup_iff.mpr h.nodup)
  refine ⟨hdeleted, ⟨hkept, fun r hr =>
    h.learned r (hrefs.mem_iff.mp (List.mem_append_right _ hr))⟩, fun r hr => ?_⟩
  obtain ⟨c, hc, hl⟩ := h.learned r (hrefs.mem_iff.mp (List.mem_append_left _ hr))
  obtain ⟨entries, deleted, kept, -, hget, hperm, hdeletable, -, rfl, -⟩ := reduce_eq hrun
  obtain ⟨e, he, rfl⟩ := List.mem_map.mp hr
  have hin := hget e (hperm.mem_iff.mp (List.mem_append_left _ he))
  rw [hc] at hin
  cases hin
  exact ⟨e.2, hc, hl, hdeletable e he⟩

end LearnedDatabase

/-- A reduction deletes learned clauses that are the reason of nothing. -/
theorem SearchState.reduce_spec {a : Assignment} {w : Watches} {arena : Arena κ}
    {learned learned' : LearnedDatabase} {order : DecisionOrder Generator} {head : Nat}
    (h : (⟨⟨a, w⟩, arena, learned, order, head⟩ : SearchState κ).WellFormed)
    {rs : List Reference} (hrun : learned.reduce arena a = .ok (rs, learned')) :
    let s : SearchState κ := ⟨⟨a, w⟩, arena, learned, order, head⟩
    let s' : SearchState κ := ⟨⟨a, w⟩, arena, learned', order, head⟩
    (s'.delete rs).WellFormed ∧ s.Thins (s'.delete rs) ∧ s.Retains (s'.delete rs) := by
  have hb : arena.OnBoard ⟨a, w⟩ head := h.onBoard
  have hlists : learned.Lists arena := h.lists
  obtain ⟨hnodup, hlists', hgoing⟩ := hlists.reduce hrun
  have hw' : (⟨⟨a, w⟩, arena, learned', order, head⟩ : SearchState κ).WellFormed :=
    ⟨h.onBoard, h.layered, h.head_le, h.starts_le, h.tidy, hlists', h.order, h.offers⟩
  obtain ⟨hw'', ht, hgone, -, -⟩ := delete_spec hw' hnodup
    (fun r hr => (hgoing r hr).imp fun _ hc => hc.1)
    (fun l hl r hr hreason => by
      obtain ⟨d, hd, -, hfree⟩ := hgoing r hr
      have hl : l ∈ a.trues := hl
      obtain ⟨i, hi⟩ := List.mem_iff_getElem?.mp hl
      obtain ⟨c, hc, hexp⟩ := hb.explained hi hreason
      rw [hd] at hc
      cases hc
      have hlock := Constraint.isLocked_of_reason hb.consistent hl hreason hexp
      simp [DeletionRule.isDeletable, hlock] at hfree)
  refine ⟨hw'', ⟨ht.trues, ht.starts, ht.size, ht.alive, ht.told, ht.order, ht.head⟩,
    fun l hl => ?_, fun {r c} hc hl => ?_⟩
  · rw [ht.roots_eq]
    exact hl
  · refine Or.inl ⟨c, ?_, .refl _, .refl _⟩
    rw [hgone, if_neg]
    · exact hc
    · intro hr
      obtain ⟨d, hd, hlearned, -⟩ := hgoing r hr
      have hc : arena.get? r = some c := hc
      rw [hd] at hc
      cases hc
      rw [hlearned] at hl
      cases hl

end ClauseLearning
