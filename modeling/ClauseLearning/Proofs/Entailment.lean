import ClauseLearning.Proofs.Backtracking

/-!
# What a state asks for

A state asks for its constraints and for its root facts. Answers of the search are sound for two
reasons: no step asks for more than the problem does, so every valuation that a state admits is
still admitted by the next one (`SearchState.Admits`), and no step asks for less
(`SearchState.Retains`). The third thing that the search relies on is that no notification is
missing (`SearchState.UpToDate`).

* `Admits.root_holds`: root facts with a reason follow from those without one.
* `Covers.retains`: what the attached constraints say stays said.
* `UpToDate.propagate`, `Grounded.backtrack`: what propagation and going back do to notifications.
-/

namespace ClauseLearning

variable {κ : Type}

namespace Assignment

/-- The facts of the root, oldest first. -/
def roots (a : Assignment) : List Literal := a.trues.take (a.startOfLevel 1)

theorem mem_trues_of_mem_roots {a : Assignment} {l : Literal} (h : l ∈ a.roots) : l ∈ a.trues :=
  List.mem_of_mem_take h

theorem startOfLevel_one_of_root {a : Assignment} (h : a.decisionLevel = 0) :
    a.startOfLevel 1 = a.trues.length := by
  have hnone : a.levelStarts[0]? = none := Array.getElem?_eq_none (Nat.le_of_eq h)
  rw [startOfLevel, hnone, Option.getD_none, size_trail]

theorem roots_of_root {a : Assignment} (h : a.decisionLevel = 0) : a.roots = a.trues := by
  rw [roots, startOfLevel_one_of_root h, List.take_length]

theorem Layered.startOfLevel_le {a : Assignment} (h : a.Layered) (level : Nat) :
    a.startOfLevel (level + 1) ≤ a.trues.length := by
  by_cases hl : level < a.decisionLevel
  · exact h.le_length _ (startOfLevel_mem hl)
  · have hnone : a.levelStarts[level]? = none := Array.getElem?_eq_none (Nat.le_of_not_lt hl)
    rw [startOfLevel, hnone, Option.getD_none]
    exact Nat.le_of_eq a.size_trail

theorem mem_roots_iff {a : Assignment} (h : a.Layered) {l : Literal} :
    l ∈ a.roots ↔ ∃ i, a.trues[i]? = some l ∧ a.levelAt i = 0 := by
  rw [roots, mem_take_iff]
  constructor
  · rintro ⟨i, hlt, hl⟩
    have hi : i < a.trail.size := by
      rw [size_trail]
      exact (List.getElem?_eq_some_iff.mp hl).1
    exact ⟨i, hl, Nat.le_zero.mp ((lt_startOfLevel_iff h.sorted hi).mp hlt)⟩
  · rintro ⟨i, hl, hlevel⟩
    have hi : i < a.trail.size := by
      rw [size_trail]
      exact (List.getElem?_eq_some_iff.mp hl).1
    exact ⟨i, (lt_startOfLevel_iff h.sorted hi).mpr (Nat.le_of_eq hlevel), hl⟩

theorem mem_roots_of_levelOf {a : Assignment} (hc : a.Consistent) (h : a.Layered) {l : Literal}
    (hl : l ∈ a.trues) (hlevel : a.levelOf l.var = 0) : l ∈ a.roots := by
  obtain ⟨i, hi⟩ := List.mem_iff_getElem?.mp hl
  rw [hc.levelOf_eq hi] at hlevel
  exact (mem_roots_iff h).mpr ⟨i, hi, hlevel⟩

namespace Extension

variable {a b : Assignment} (h : a.Extension b)
include h

theorem levelAt_eq (i : Nat) : b.levelAt i = a.levelAt i := by
  rw [levelAt, levelAt, h.starts]

/-- Facts that were not there before are new on the trail. -/
theorem mem_roots (ha : a.Layered) {l : Literal} (hl : l ∈ b.roots) :
    l ∈ a.roots ∨ ∃ i, a.trues.length ≤ i ∧ b.trues[i]? = some l := by
  obtain ⟨i, hi, hlevel⟩ := (mem_roots_iff (h.layered ha)).mp hl
  by_cases hlt : i < a.trues.length
  · rw [h.getElem? hlt] at hi
    rw [h.levelAt_eq] at hlevel
    exact Or.inl ((mem_roots_iff ha).mpr ⟨i, hi, hlevel⟩)
  · exact Or.inr ⟨i, Nat.le_of_not_lt hlt, hi⟩

theorem roots_subset (ha : a.Layered) {l : Literal} (hl : l ∈ a.roots) : l ∈ b.roots := by
  obtain ⟨i, hi, hlevel⟩ := (mem_roots_iff ha).mp hl
  refine (mem_roots_iff (h.layered ha)).mpr ⟨i, ?_, ?_⟩
  · rw [h.getElem? (List.getElem?_eq_some_iff.mp hi).1, hi]
  · rw [h.levelAt_eq, hlevel]

end Extension

/-- What is above a level does not matter to the root. -/
theorem Cut.roots_eq {a a' : Assignment} {level : Nat} (ha : a.Layered)
    (hlevel : level < a.decisionLevel) (h : a.Cut (a.startOfLevel (level + 1)) a')
    (hs : a'.levelStarts.toList = a.levelStarts.toList.take level) : a'.roots = a.roots := by
  have hget : ∀ k, k < level → a'.levelStarts[k]? = a.levelStarts[k]? := by
    intro k hk
    rw [← Array.getElem?_toList, hs, List.getElem?_take_of_lt hk, Array.getElem?_toList]
  cases level with
  | zero =>
    have hroot : a'.decisionLevel = 0 := by
      have : a'.levelStarts.toList.length = 0 := by rw [hs, List.take_zero, List.length_nil]
      simpa [decisionLevel] using this
    rw [roots_of_root hroot, h.trues, roots]
  | succ level =>
    have hzero : 0 < a.levelStarts.size := by
      have : level + 1 < a.levelStarts.size := hlevel
      omega
    have hfirst : a'.startOfLevel 1 = a.startOfLevel 1 := by
      rw [startOfLevel, startOfLevel, hget 0 (by omega), Array.getElem?_eq_getElem hzero]
      rfl
    have hle : a.startOfLevel 1 ≤ a.startOfLevel (level + 1 + 1) := by
      have hlast : level + 1 < a.levelStarts.size := hlevel
      rw [startOfLevel, startOfLevel, Array.getElem?_eq_getElem hzero,
        Array.getElem?_eq_getElem hlast]
      have hpair := List.pairwise_iff_getElem.mp ha.sorted 0 (level + 1) (by simpa using hzero)
        (by simpa using hlast) (by omega)
      simpa using hpair
    rw [roots, roots, hfirst, h.take hle]

end Assignment

theorem Arena.Agree.holds {s s' : Arena κ} (h : s.Agree s') {ν : Valuation}
    (hν : ∀ {r c}, s.get? r = some c → c.kind.Holds ν) {r : Reference} {c : Constraint κ}
    (hc : s'.get? r = some c) : c.kind.Holds ν := by
  obtain ⟨c₀, hc₀, hk, -⟩ := h.of_alive hc
  exact (hk.holds_iff ν).mpr (hν hc₀)

namespace SearchState

/-! ## Nothing more is asked for -/

/-- The valuation satisfies the constraints and what was put on the trail as a fact. -/
structure Admits (s : SearchState κ) (ν : Valuation) : Prop where
  holds : ∀ {r c}, s.arena.get? r = some c → c.kind.Holds ν
  facts : ∀ l ∈ s.assignment.roots, s.assignment.reason? l.var = none → l.holds ν = true

/-- Facts with a reason follow from the constraints and the facts before them. -/
theorem Admits.root_holds [CustomConstraint κ] {s : SearchState κ} {ν : Valuation}
    (h : s.Admits ν) (hw : s.WellFormed) {l : Literal} (hl : l ∈ s.assignment.roots) :
    l.holds ν = true := by
  have hcon : s.assignment.Consistent := hw.onBoard.consistent
  have hall : ∀ i m, s.assignment.trues[i]? = some m → s.assignment.levelAt i = 0 →
      m.holds ν = true := by
    intro i
    induction i using Nat.strongRecOn with
    | ind i ih =>
      intro m hm hlevel
      cases hr : s.assignment.reason? m.var with
      | none => exact h.facts m ((Assignment.mem_roots_iff hw.layered).mpr ⟨i, hm, hlevel⟩) hr
      | some r =>
        obtain ⟨c, hc, he⟩ := hw.onBoard.explained hm hr
        obtain ⟨hbefore, himplies⟩ :=
          Constraint.reason_of_explains hcon (hw.onBoard.wellFormed hc) hm he
        refine himplies ν (h.holds hc) fun n hn => ?_
        obtain ⟨j, hj, hget⟩ := mem_take_iff.mp (hbefore n hn)
        have hmono := s.assignment.levelAt_mono (Nat.le_of_lt hj)
        have := ih j hj (-n) hget (by omega)
        simpa using this
  obtain ⟨i, hi, hlevel⟩ := (Assignment.mem_roots_iff hw.layered).mp hl
  exact hall i l hi hlevel

theorem Admits.follows {m : Nat} {s s' : SearchState κ} {ν : Valuation} (h : s.Admits ν)
    (hw : s.WellFormed) (hf : s.Follows m s') : s'.Admits ν := by
  refine ⟨fun hc => hf.agree.holds h.holds hc, fun l hl hr => ?_⟩
  rcases hf.extension.mem_roots hw.layered hl with hl | ⟨i, hi, hget⟩
  · refine h.facts l hl ?_
    rw [← hr, hf.extension.reason?_eq hw.onBoard.consistent (Assignment.mem_trues_of_mem_roots hl)]
  · obtain ⟨r, hreason⟩ := hf.reasoned hi hget
    rw [hr] at hreason
    cases hreason

/-- Taking assignments back asks for nothing more if the facts that are left were facts before. -/
theorem Admits.rewinds {n : Nat} {s s' : SearchState κ} {ν : Valuation} (h : s.Admits ν)
    (hw : s'.WellFormed) (hr : s.Rewinds n s')
    (hroots : ∀ l ∈ s'.assignment.roots, l ∈ s.assignment.roots) : s'.Admits ν := by
  refine ⟨fun hc => hr.recounted.agree.holds h.holds hc, fun l hl hnone => ?_⟩
  refine h.facts l (hroots l hl) ?_
  rw [← hr.cut.reason?_eq hw.onBoard.consistent (Assignment.mem_trues_of_mem_roots hl), hnone]

/-! ## Nothing less is asked for -/

/-- Facts stay facts, and added constraints stay or are true by the facts. -/
structure Retains (s s' : SearchState κ) : Prop where
  roots : ∀ l ∈ s.assignment.roots, l ∈ s'.assignment.roots
  constraints : ∀ {r c}, s.arena.get? r = some c → c.metadata.learned = false →
    (∃ c', s'.arena.get? r = some c' ∧ c.kind.Similar c'.kind ∧ c.metadata.Similar c'.metadata) ∨
      ∀ ν : Valuation, (∀ l ∈ s'.assignment.roots, l.holds ν = true) → c.kind.Holds ν

namespace Retains

theorem refl (s : SearchState κ) : s.Retains s :=
  ⟨fun _ h => h, fun {_ c} hc _ => Or.inl ⟨c, hc, .refl _, .refl _⟩⟩

theorem trans {s₁ s₂ s₃ : SearchState κ} (h : s₁.Retains s₂) (h' : s₂.Retains s₃) :
    s₁.Retains s₃ := by
  refine ⟨fun l hl => h'.roots l (h.roots l hl), fun hc hl => ?_⟩
  rcases h.constraints hc hl with ⟨c₂, hc₂, hk, hm⟩ | htrue
  · rcases h'.constraints hc₂ (hm.learned.trans hl) with ⟨c₃, hc₃, hk', hm'⟩ | htrue
    · exact Or.inl ⟨c₃, hc₃, hk.trans hk', hm.trans hm'⟩
    · exact Or.inr fun ν hν => (hk.holds_iff ν).mp (htrue ν hν)
  · exact Or.inr fun ν hν => htrue ν fun l hl => hν l (h'.roots l hl)

theorem of_agree {s s' : SearchState κ} (ha : s.arena.Agree s'.arena)
    (hr : ∀ l ∈ s.assignment.roots, l ∈ s'.assignment.roots) : s.Retains s' :=
  ⟨hr, fun hc _ => Or.inl (ha.alive hc)⟩

end Retains

theorem Follows.retains {m : Nat} {s s' : SearchState κ} (h : s.Follows m s')
    (hw : s.WellFormed) : s.Retains s' :=
  .of_agree h.agree fun _ hl => h.extension.roots_subset hw.layered hl

theorem Rewinds.retains {n : Nat} {s s' : SearchState κ} (h : s.Rewinds n s')
    (hroots : s'.assignment.roots = s.assignment.roots) : s.Retains s' :=
  .of_agree h.recounted.agree fun _ hl => hroots ▸ hl

/-- The facts and the constraints of an addition say what its parts say. -/
def Covers (s : SearchState κ) (handle : Nat) (ds : List (Description κ)) : Prop :=
  ∀ ν : Valuation, (∀ l ∈ s.assignment.roots, l.holds ν = true) →
    (∀ r c, s.arena.get? r = some c → c.metadata.learned = false →
      c.metadata.handle = some handle → c.kind.Holds ν) →
    ∀ d ∈ ds, d.Holds ν

theorem Covers.retains {s s' : SearchState κ} {handle : Nat} {ds : List (Description κ)}
    (h : s.Covers handle ds) (hr : s.Retains s') : s'.Covers handle ds := by
  intro ν hroots hholds
  refine h ν (fun l hl => hroots l (hr.roots l hl)) fun r c hc hl hh => ?_
  rcases hr.constraints hc hl with ⟨c', hc', hk, hm⟩ | htrue
  · exact (hk.holds_iff ν).mp
      (hholds r c' hc' (hm.learned.trans hl) (hm.handle.trans hh))
  · exact htrue ν hroots

/-! ## Nothing is missed -/

/-- Where a level was opened, everything before it was settled. -/
def Grounded (s : SearchState κ) : Prop :=
  ∀ m ∈ s.assignment.levelStarts.toList,
    s.arena.Settles s.board.watches (s.assignment.trues.take m) (s.assignment.trues.take m)

/-- Everything is settled on what constraints were notified of. -/
structure UpToDate (s : SearchState κ) : Prop where
  grounded : s.Grounded
  settles : s.arena.Settles s.board.watches s.assignment.trues (s.assignment.trues.take s.head)

theorem Follows.grounded {m : Nat} {s s' : SearchState κ} (h : s.Follows m s')
    (hw : s.WellFormed) (hstarts : ∀ k ∈ s.assignment.levelStarts.toList, k ≤ m)
    (hg : s.Grounded) : s'.Grounded := by
  intro k hk
  rw [h.extension.starts] at hk
  rw [h.extension.take (hw.layered.le_length k hk)]
  exact h.still k (hstarts k hk) (hg k hk)

/-- Propagation settles everything, or it meets a conflict. -/
theorem UpToDate.propagate [CustomConstraint κ] {s s' : SearchState κ}
    {conflict : Option Reference} (h : s.UpToDate) (hw : s.WellFormed)
    (hrun : s.propagate = .ok (conflict, s')) :
    s'.Grounded ∧ (conflict = none → s'.UpToDate) := by
  obtain ⟨hf, -, hhead, hsettles, -⟩ := propagate_spec hw (Nat.le_refl s.head) hrun
  have hg := hf.grounded hw hw.starts_le h.grounded
  refine ⟨hg, fun hn => ⟨hg, ?_⟩⟩
  rw [hhead, List.take_length]
  exact hsettles hn h.settles

/-- Going back to where a level was opened leaves everything settled. -/
theorem Grounded.backtrack [CustomConstraint κ] {level : Nat} {s s' : SearchState κ}
    (h : s.Grounded) (hw : s.WellFormed) (hlevel : level < s.decisionLevel)
    (hrun : s.backtrack level = .ok s') : s'.UpToDate := by
  rcases backtrack_spec hw hrun with ⟨hle, -⟩ | ⟨-, hr, hw', hhead, hstarts⟩
  · omega
  have hmem := Assignment.startOfLevel_mem hlevel
  have htrues : s'.assignment.trues = s.assignment.trues.take
      (s.assignment.startOfLevel (level + 1)) :=
    hr.cut.trues
  refine ⟨fun m hm => ?_, ?_⟩
  · have hle : m ≤ s.assignment.startOfLevel (level + 1) := by
      have := hw'.layered.le_length m hm
      rw [htrues, List.length_take] at this
      omega
    rw [hstarts] at hm
    rw [hr.cut.take hle]
    exact hr.settles hle (h m (List.mem_of_mem_take hm))
  · rw [hhead, List.take_length, htrues]
    exact hr.settles (Nat.le_refl _) (h _ hmem)

/-- Going back, wherever to, keeps what was settled. -/
theorem Grounded.lowered [CustomConstraint κ] {level : Nat} {s s' : SearchState κ} (h : s.Grounded)
    (hw : s.WellFormed) (hrun : s.backtrack level = .ok s') : s'.Grounded := by
  rcases backtrack_spec hw hrun with ⟨-, rfl⟩ | ⟨hlt, -⟩
  · exact h
  · exact (h.backtrack hw hlt hrun).grounded

/-- Going back from a settled state, or staying where it is, leaves it settled. -/
theorem UpToDate.backtrack [CustomConstraint κ] {level : Nat} {s s' : SearchState κ}
    (h : s.UpToDate) (hw : s.WellFormed) (hrun : s.backtrack level = .ok s') : s'.UpToDate := by
  by_cases hlevel : level < s.decisionLevel
  · exact h.grounded.backtrack hw hlevel hrun
  · rcases backtrack_spec hw hrun with ⟨-, rfl⟩ | ⟨hlt, -⟩
    · exact h
    · exact absurd hlt hlevel

/-! ## Going back -/

section

variable [CustomConstraint κ] {level : Nat} {s s' : SearchState κ} (hw : s.WellFormed)
  (hrun : s.backtrack level = .ok s')
include hw hrun

theorem WellFormed.backtrack : s'.WellFormed := by
  rcases backtrack_spec hw hrun with ⟨-, rfl⟩ | ⟨-, -, hw', -⟩
  · exact hw
  · exact hw'

theorem roots_backtrack : s'.assignment.roots = s.assignment.roots := by
  rcases backtrack_spec hw hrun with ⟨-, rfl⟩ | ⟨hlevel, hr, -, -, hstarts⟩
  · rfl
  · exact hr.cut.roots_eq hw.layered hlevel hstarts

theorem decisionLevel_backtrack : s'.decisionLevel = min level s.decisionLevel := by
  rcases backtrack_spec hw hrun with ⟨hle, rfl⟩ | ⟨hlevel, -, -, -, hstarts⟩
  · exact (Nat.min_eq_right hle).symm
  · have hlen := congrArg List.length hstarts
    rw [List.length_take, Array.length_toList, Array.length_toList] at hlen
    exact hlen

theorem Retains.backtrack : s.Retains s' := by
  rcases backtrack_spec hw hrun with ⟨-, rfl⟩ | ⟨-, hr, -⟩
  · exact .refl s'
  · exact hr.retains (roots_backtrack hw hrun)

theorem Admits.backtrack {ν : Valuation} (h : s.Admits ν) : s'.Admits ν := by
  rcases backtrack_spec hw hrun with ⟨-, rfl⟩ | ⟨-, hr, hw', -⟩
  · exact h
  · refine h.rewinds hw' hr fun l hl => ?_
    rwa [roots_backtrack hw hrun] at hl

end

end SearchState

end ClauseLearning
