import ClauseLearning.Proofs.Answers
import ClauseLearning.Proofs.Asserting
import ClauseLearning.Proofs.Minimality
import ClauseLearning.Proofs.Safety

/-!
# Prime implicants of sessions

After the answer yes a prime implicant can be computed, for as long as nothing is added. It is a
part of the model and satisfies every constraint that is present by itself. Without any one of its
literals it does not, unless a constraint requires more than it takes (`Description.Loose`): one
that counts a literal and its negation, or asks for the parity of a variable that occurs an even
number of times.

* `Description.Loose`, `Description.exists_violation`: what a requirement that is not met is good
  for.
* `Session.Rests`, `Session.Rests.relaxes`: calls after which the model is still there.
* `Session.Undisturbed.computeImplicant_prime`: the prime implicant of a session.
-/

namespace ClauseLearning

variable {κ : Type}

open Requirement

/-! ## Violations -/

namespace Valuation

/-- Literals of which none is the negation of another can all be made false, up to those that have
to be true. -/
theorem exists_false {part ls : List Literal} (hvars : (part.map Literal.var).Nodup)
    (hpairs : ∀ l ∈ ls, -l ∉ ls) :
    ∃ ν : Valuation, (∀ l ∈ part, l.holds ν = true) ∧
      ∀ l ∈ ls, l.holds ν = true → l ∈ part := by
  have hmake : ∀ {l : Literal} {b : Bool}, l.isPositive = b → Literal.make l.var b = l := by
    rintro l b rfl
    exact l.make_var_isPositive
  have hnegate : ∀ {l : Literal} {b : Bool}, l.isPositive = b → Literal.make l.var (!b) = -l := by
    rintro l b rfl
    exact Literal.ext_var (by simp) (by simp)
  have hone : ∀ l ∈ part, -l ∉ part := fun l hl hn =>
    Literal.negate_ne l (List.inj_on_of_nodup_map hvars hn hl (Literal.var_negate l))
  refine ⟨fun v => if Literal.make v true ∈ part then true
    else if Literal.make v false ∈ part then false else decide (Literal.make v false ∈ ls),
    fun l hl => ?_, fun l hl hlν => ?_⟩
  · cases hp : l.isPositive with
    | true => simp only [Literal.holds, hp, hmake hp, hl, if_true, beq_self_eq_true]
    | false =>
      have hopposite := hnegate hp
      simp only [Bool.not_false] at hopposite
      simp only [Literal.holds, hp, hopposite, hmake hp, hone l hl, hl, if_true, if_false,
        beq_self_eq_true]
  · by_contra hnot
    cases hp : l.isPositive with
    | true =>
      have hopposite := hnegate hp
      simp only [Bool.not_true] at hopposite
      simp only [Literal.holds, hp, hopposite, hmake hp, hnot, hpairs l hl, if_false,
        decide_false, ite_self] at hlν
      cases hlν
    | false =>
      have hopposite := hnegate hp
      simp only [Bool.not_false] at hopposite
      simp only [Literal.holds, hp, hopposite, hmake hp, hnot, hl, if_false, decide_true] at hlν
      split at hlν
      · cases hlν
      · cases hlν

/-- The other value for one variable. -/
def flip (ν : Valuation) (v : Nat) : Valuation := fun w => if w = v then !ν w else ν w

theorem holds_flip (ν : Valuation) (v : Nat) (l : Literal) :
    l.holds (ν.flip v) = if l.var = v then !l.holds ν else l.holds ν := by
  unfold Literal.holds flip
  split
  · cases ν l.var <;> cases l.isPositive <;> rfl
  · rfl

/-- The literals of the variable are those that change. -/
theorem count_flip (ν : Valuation) (v : Nat) (ls : List Literal) :
    ((ν.flip v).count ls + ν.count ls) % 2 = (ls.map Literal.var).count v % 2 := by
  induction ls with
  | nil => rfl
  | cons l ls ih =>
    simp only [count, List.countP_cons, List.map_cons, List.count_cons, holds_flip,
      beq_iff_eq] at ih ⊢
    by_cases hv : l.var = v
    · simp only [hv, if_true]
      cases l.holds ν <;> simp <;> omega
    · simp only [hv, if_false]
      cases l.holds ν <;> simp <;> omega

end Valuation

namespace Description

/-- More is required for the constraint than it takes, and the literal is a part of it: the
constraint counts a literal and its negation, of which one is always true, or the variable of the
literal occurs an even number of times. -/
def Loose (l : Literal) : Description κ → Prop
  | .clause _ => False
  | .atLeast ls _ => l ∈ ls ∧ ∃ m ∈ ls, -m ∈ ls
  | .parity ls _ => l.var ∈ ls.map Literal.var ∧ (ls.map Literal.var).count l.var % 2 = 0
  | .custom _ => True

/-- Too few literals that are counted can be all that are true. -/
theorem exists_count_lt {part ls : List Literal} {degree : Nat}
    (hvars : (part.map Literal.var).Nodup) (hpairs : ∀ l ∈ ls, -l ∉ ls)
    (hunmet : ¬ (Requirement.atLeast ls degree).isMet (fun l => decide (l ∈ part)) = true) :
    ∃ ν : Valuation, (∀ l ∈ part, l.holds ν = true) ∧ ν.count ls < degree := by
  obtain ⟨ν, hpart, hless⟩ := Valuation.exists_false hvars hpairs
  refine ⟨ν, hpart, Nat.lt_of_le_of_lt (List.countP_mono_left fun l hl hlν => ?_)
    (Nat.lt_of_not_le fun hle => hunmet (decide_eq_true hle))⟩
  exact decide_eq_true (hless l hl hlν)

/-- A literal without which a mandatory variable is missed is one of the variable. -/
theorem mem_of_mandatory {ls xs : List Literal} {l : Literal}
    (hmet : (Requirement.mandatory (xs.map (·.var)).eraseDups).isMet
      (fun m => decide (m ∈ ls)) = true)
    (hunmet : ¬ (Requirement.mandatory (xs.map (·.var)).eraseDups).isMet
      (fun m => decide (m ∈ ls.filter (· ≠ l))) = true) :
    l ∈ ls ∧ l.var ∈ xs.map Literal.var := by
  simp only [isMet, List.all_eq_true, List.mem_eraseDups, Bool.or_eq_true,
    decide_eq_true_eq, List.mem_filter, not_forall, not_or, not_and, not_not] at hmet hunmet
  obtain ⟨v, hv, hpos, hneg⟩ := hunmet
  rcases hmet v hv with hm | hm
  · have heq := hpos hm
    rw [← heq, Literal.var_make]
    exact ⟨hm, hv⟩
  · have heq := hneg hm
    rw [← heq, Literal.var_make]
    exact ⟨hm, hv⟩

/-- A literal without which too few are left is one of those that are counted. -/
theorem mem_of_atLeast {ls xs : List Literal} {degree : Nat} {l : Literal}
    (hmet : (Requirement.atLeast xs degree).isMet (fun m => decide (m ∈ ls)) = true)
    (hunmet : ¬ (Requirement.atLeast xs degree).isMet
      (fun m => decide (m ∈ ls.filter (· ≠ l))) = true) : l ∈ xs := by
  by_contra hl
  refine hunmet ?_
  have hsame : xs.countP (fun m => decide (m ∈ ls.filter (· ≠ l))) =
      xs.countP fun m => decide (m ∈ ls) := by
    refine List.countP_congr fun m hm => ?_
    have hml : m ≠ l := fun heq => hl (heq ▸ hm)
    simp [hml]
  show decide (degree ≤ _) = true
  rw [hsame]
  exact hmet

variable [CustomConstraint κ]

/-- If a part of a model meets what a constraint requires, but not without one of its literals, then
without this literal the constraint can be violated. -/
theorem exists_violation {model ls : List Literal} (hvars : (model.map Literal.var).Nodup)
    (hsub : ls ⊆ model) (hnodup : ls.Nodup) {d : Description κ} {r : Requirement}
    (hd : d.Holds (Valuation.ofModel model)) (hr : ofDescription? d = some r)
    (hmet : r.isMet (fun m => decide (m ∈ ls)) = true) {l : Literal}
    (hunmet : ¬ r.isMet (fun m => decide (m ∈ ls.filter (· ≠ l))) = true) (hloose : ¬ d.Loose l) :
    ∃ ν : Valuation, (∀ m ∈ ls, m ≠ l → m.holds ν = true) ∧ ¬ d.Holds ν := by
  have hinj := List.inj_on_of_nodup_map hvars
  have hpart : ((ls.filter (· ≠ l)).map Literal.var).Nodup :=
    (hnodup.filter _).map_on fun m hm k hk hmk =>
      hinj (hsub (List.mem_of_mem_filter hm)) (hsub (List.mem_of_mem_filter hk)) hmk
  have hcounted : ∀ {xs : List Literal} {degree : Nat}, r = .atLeast xs degree →
      (∀ m ∈ xs, -m ∉ xs) → ∃ ν : Valuation, (∀ m ∈ ls, m ≠ l → m.holds ν = true) ∧
        ν.count xs < degree := by
    rintro xs degree rfl hpairs
    obtain ⟨ν, hν, hfew⟩ := exists_count_lt hpart hpairs hunmet
    exact ⟨ν, fun m hm hml => hν m (List.mem_filter.mpr ⟨hm, decide_eq_true hml⟩), hfew⟩
  cases d with
  | clause xs =>
    simp only [ofDescription?] at hr
    split at hr
    · cases hr
    · rename_i htaut
      cases hr
      obtain ⟨ν, hν, hfew⟩ := hcounted rfl fun m hm hn =>
        htaut (List.any_eq_true.mpr ⟨m, hm, List.contains_iff_mem.mpr hn⟩)
      refine ⟨ν, hν, fun hholds => ?_⟩
      have hpos : 0 < ν.count xs := List.countP_pos_iff.mpr hholds
      omega
  | atLeast xs degree =>
    cases hr
    have hlisted := mem_of_atLeast hmet hunmet
    obtain ⟨ν, hν, hfew⟩ := hcounted rfl fun m hm hn => hloose ⟨hlisted, m, hm, hn⟩
    exact ⟨ν, hν, Nat.not_le_of_lt hfew⟩
  | parity xs even =>
    cases hr
    obtain ⟨hl, hlv⟩ := mem_of_mandatory hmet hunmet
    refine ⟨(Valuation.ofModel model).flip l.var, fun m hm hml => ?_,
      fun hholds => hloose ⟨hlv, ?_⟩⟩
    · have hother : m.var ≠ l.var := fun hv => hml (hinj (hsub hm) (hsub hl) hv)
      rw [Valuation.holds_flip, if_neg hother]
      exact Valuation.holds_ofModel_of_mem hvars (hsub hm)
    · have hflip := (Valuation.ofModel model).count_flip l.var xs
      have hbefore : ((Valuation.ofModel model).count xs % 2 == 0) = even := hd
      have hafter := hholds
      simp only [Holds] at hafter
      rw [← hflip]
      rw [← hbefore, Bool.eq_iff_iff, beq_iff_eq, beq_iff_eq] at hafter
      omega
  | custom c => exact absurd trivial hloose

end Description

/-! ## Calls that keep the model -/

namespace Session

/-- The model is the same, and no more is asked of it. -/
structure Relaxes (s s' : Session κ) : Prop where
  model : s'.book.model = s.book.model
  descriptions : s'.descriptions ⊆ s.descriptions

theorem Relaxes.refl (s : Session κ) : s.Relaxes s := ⟨rfl, List.Subset.refl _⟩

theorem Relaxes.trans {s₁ s₂ s₃ : Session κ} (h : s₁.Relaxes s₂) (h' : s₂.Relaxes s₃) :
    s₁.Relaxes s₃ :=
  ⟨h'.model.trans h.model, fun _ hd => h.descriptions (h'.descriptions hd)⟩

theorem relaxes_of_book {s s' : Session κ} (h : s'.book = s.book) : s.Relaxes s' := by
  obtain ⟨engine, book⟩ := s
  obtain ⟨engine', book'⟩ := s'
  cases h
  exact ⟨rfl, List.Subset.refl _⟩

/-- Constraints that are still present were present. -/
theorem relaxes_of_entries {s s' : Session κ} (hmodel : s'.book.model = s.book.model)
    (hentries : ∀ entry ∈ s'.book.entries.toList, entry.removed = false →
      entry ∈ s.book.entries.toList) : s.Relaxes s' := by
  refine ⟨hmodel, fun d hd => ?_⟩
  obtain ⟨entry, hentry, hd⟩ := List.mem_flatMap.mp hd
  obtain ⟨hentry, hpresent⟩ := List.mem_filter.mp hentry
  have hold := hentries entry hentry (by simpa using hpresent)
  exact List.mem_flatMap.mpr ⟨entry, List.mem_filter.mpr ⟨hold, hpresent⟩, hd⟩

variable [CustomConstraint κ]

theorem addConstraint_model {ds : List (Description κ)} {result : Except Refusal Nat}
    {s s' : Session κ} (hrun : (addConstraint ds).run s = (.ok result, s')) :
    s'.book.model = s.book.model := by
  obtain ⟨handle, s₁, h₁, hrun⟩ := ok_of_run_bind hrun
  cases h₁
  obtain ⟨added, s₂, h₂, hrun⟩ := ok_of_run_bind hrun
  have hmodel : s₂.book.model = s.book.model :=
    congrArg Book.model (ok_of_run_ofEngine h₂).2
  cases added with
  | ok references =>
    cases hrun
    exact hmodel
  | error refusal =>
    cases hrun
    exact hmodel

theorem rebuild_model {s s' : Session κ} (hrun : (rebuild).run s = (.ok (), s')) :
    s'.book.model = s.book.model := by
  obtain ⟨_, s₁, h₁, hrun⟩ := ok_of_run_bind hrun
  cases h₁
  obtain ⟨_, s₂, h₂, hrun⟩ := ok_of_run_bind hrun
  cases h₂
  obtain ⟨⟨refused, entries⟩, s₃, h₃, hrun⟩ := ok_of_run_bind hrun
  obtain ⟨-, hbook⟩ := ok_of_run_ofEngine h₃
  obtain ⟨_, s₄, h₄, hrun⟩ := ok_of_run_bind hrun
  cases h₄
  have hmodel : s₃.book.model = s.book.model := congrArg Book.model hbook
  cases refused with
  | false =>
    cases hrun
    exact hmodel
  | true =>
    cases hrun
    exact hmodel

theorem rebuild_relaxes {s s' : Session κ} (h : s.Valid) (hrun : (rebuild).run s = (.ok (), s')) :
    s.Relaxes s' := by
  obtain ⟨-, -, -, hsame⟩ := rebuild_spec h hrun
  exact ⟨rebuild_model hrun, by rw [hsame]; exact List.Subset.refl _⟩

omit [CustomConstraint κ] in
theorem markRemoved_relaxes {handle : Nat} {s s' : Session κ}
    (hrun : (markRemoved handle).run s = (.ok (), s')) : s.Relaxes s' := by
  obtain ⟨entry, -, -, rfl⟩ := ok_of_run_markRemoved hrun
  refine relaxes_of_entries rfl fun entry' hentry hpresent => ?_
  rcases List.mem_or_eq_of_mem_set (Array.toList_setIfInBounds .. ▸ hentry) with hold | rfl
  · exact hold
  · cases hpresent

theorem removeSubsumed_relaxes {handle : Nat} {s s' : Session κ}
    (hrun : (removeSubsumed handle).run s = (.ok (), s')) : s.Relaxes s' := by
  obtain ⟨entry, -, -, -, hentries⟩ := ok_of_run_removeSubsumed hrun
  refine relaxes_of_entries ?_ fun entry' hentry hpresent => ?_
  · obtain ⟨size, s₁, h₁, hrun⟩ := ok_of_run_bind hrun
    cases h₁
    dsimp only at hrun
    split at hrun
    · obtain ⟨_, _, h₂, -⟩ := ok_of_run_bind hrun
      cases h₂
    obtain ⟨_, s₂, h₂, hrun⟩ := ok_of_run_bind hrun
    obtain ⟨entry, -, -, rfl⟩ := ok_of_run_markRemoved h₂
    obtain ⟨references, s₃, h₃, hrun⟩ := ok_of_run_bind hrun
    cases h₃
    obtain ⟨_, s₄, h₄, hrun⟩ := ok_of_run_bind hrun
    cases h₄
    have hbook := (ok_of_run_ofEngine hrun).2
    rw [hbook]
  · obtain ⟨i, hi⟩ := List.mem_iff_getElem?.mp hentry
    rw [Array.getElem?_toList, hentries] at hi
    split at hi
    · cases hi
      cases hpresent
    · exact Array.mem_toList_iff.mpr (Array.mem_of_getElem? hi)

theorem restrictDecisions_relaxes {vs : Option (List Nat)} {s s' : Session κ} (h : s.Valid)
    (hrun : (restrictDecisions vs).run s = (.ok (), s')) : s.Relaxes s' := by
  obtain ⟨s₁, hidles, hbook, hrun⟩ := ok_of_run_restrictDecisions h hrun
  have h₁ := relaxes_of_book hbook
  rcases hrun with rfl | hrun
  · exact h₁
  · exact h₁.trans (rebuild_relaxes (hidles.valid h) hrun)

end Session

/-- The call gives up the last answer. -/
def Call.Forgets : Call → Prop
  | query .. => True
  | interrupted .. => True
  | reset => True
  | _ => False

/-- A call that keeps the last answer keeps the model, and asks for no more if it adds nothing. -/
theorem Call.relaxes [CustomConstraint κ] {c : Call} {s s' : Session κ} (h : s.Valid)
    (hrun : (c.run).run s = (.ok (), s')) (hkeeps : ¬ c.Forgets) :
    s'.book.model = s.book.model ∧
      (s'.book.entries.size = s.book.entries.size → s.Relaxes s') := by
  have hall : s.Relaxes s' → s'.book.model = s.book.model ∧
      (s'.book.entries.size = s.book.entries.size → s.Relaxes s') :=
    fun hr => ⟨hr.model, fun _ => hr⟩
  cases c with
  | newVariables n =>
    obtain ⟨m, hrun⟩ := Session.ok_of_run_discard hrun
    obtain ⟨-, rfl⟩ := Session.ok_of_run_newVariables hrun
    exact hall (Session.relaxes_of_book rfl)
  | add a =>
    obtain ⟨result, hrun⟩ := Session.ok_of_run_discard hrun
    rw [Addition.run_eq] at hrun
    obtain ⟨ls, s₁, hls, hrun⟩ := Session.ok_of_run_bind hrun
    obtain ⟨rfl, hne, -⟩ := Session.ok_of_run_literals hls
    have hgrow := Session.idles_growAll h (a.numbers.map Int.natAbs)
    have hmodel := Session.addConstraint_model hrun
    refine ⟨hmodel, fun hsize => ?_⟩
    rcases Session.addConstraint_spec (hgrow.valid h) (Addition.proper hne) hrun with
      ⟨-, -, rfl⟩ | ⟨-, ⟨references, -, hentries, -⟩ | ⟨-, hbook, -⟩⟩
    · exact Session.relaxes_of_book rfl
    · rw [hentries, Array.size_push] at hsize
      exact absurd hsize (Nat.succ_ne_self _)
    · exact Session.relaxes_of_book hbook
  | query assumptions shared => exact absurd trivial hkeeps
  | interrupted assumptions polls budget => exact absurd trivial hkeeps
  | remove handle =>
    obtain ⟨_, s₁, h₁, hrun⟩ := Session.ok_of_run_bind hrun
    exact hall ((Session.markRemoved_relaxes h₁).trans
      (Session.rebuild_relaxes (Session.markRemoved_valid h h₁).1 hrun))
  | removeSubsumed handle => exact hall (Session.removeSubsumed_relaxes hrun)
  | decideOnly vs =>
    obtain ⟨ls, s₁, hls, hrun⟩ := Session.ok_of_run_bind hrun
    have hbook : s₁.book = s.book := by rw [Session.ok_of_run_decisionVariables hls]
    exact hall ((Session.relaxes_of_book hbook).trans
      (Session.restrictDecisions_relaxes ((Session.decideOnly_idles h hls).valid h) hrun))
  | decideAll => exact hall (Session.restrictDecisions_relaxes h hrun)
  | computeImplicant =>
    obtain ⟨ls, hrun⟩ := Session.ok_of_run_discard hrun
    obtain ⟨model, implicant, -, -, -, rfl⟩ := Session.computeImplicant_spec hrun
    exact hall ⟨rfl, List.Subset.refl _⟩
  | takeEvents =>
    cases hrun
    obtain ⟨⟨search, analyser, control⟩, book⟩ := s
    exact hall (Session.relaxes_of_book rfl)
  | requestStop =>
    cases hrun
    exact hall ⟨rfl, List.Subset.refl _⟩
  | reset => exact absurd trivial hkeeps

namespace Session

variable [CustomConstraint κ]

/-- What calls that return make of a session as long as none of them is a query or a reset, or
enters a constraint in the book. -/
inductive Rests (s : Session κ) : Session κ → Prop
  | refl : Rests s s
  | call {c : Call} {s₁ s₂ : Session κ} (h : Rests s s₁) (hrun : (c.run).run s₁ = (.ok (), s₂))
      (hkeeps : ¬ c.Forgets) (hsize : s₂.book.entries.size = s₁.book.entries.size) : Rests s s₂

theorem Rests.relaxes {s s' : Session κ} (h : s.Reachable) (hrests : s.Rests s') :
    s.Relaxes s' := by
  have hall : s'.Reachable ∧ s.Relaxes s' := by
    induction hrests with
    | refl => exact ⟨h, .refl s⟩
    | call _ hrun hkeeps hsize ih =>
      exact ⟨ih.1.call hrun, ih.2.trans ((Call.relaxes ih.1.valid hrun hkeeps).2 hsize)⟩
  exact hall.2

/-! ## After the answer yes -/

theorem Answers.reachable {assumptions : List Int} {a : Answer} {s s' : Session κ}
    (h : s.Reachable) (hrun : s.Answers assumptions a s') : s'.Reachable := by
  cases hrun with
  | query shared hrun => exact .call (c := .query assumptions shared) h (run_discard_of_ok hrun)
  | interrupted polls budget hrun =>
    exact .call (c := .interrupted assumptions polls budget) h (run_discard_of_ok hrun)

/-- The model in a session that nothing disturbed assigns the known variables and satisfies the
constraints. -/
theorem Answers.modelled {assumptions : List Int} {model : List Literal} {s s' : Session κ}
    (h : s.Undisturbed) (hrun : s.Answers assumptions (.satisfiable model) s') :
    s'.model = .ok model ∧ model.map Literal.var = List.range' 1 s'.numVariables ∧
      s'.descriptions = s.descriptions ∧
        ∀ d ∈ s'.descriptions, d.Holds (Valuation.ofModel model) := by
  have hask : s'.model = .ok model ∧ model.map Literal.var = List.range' 1 s'.numVariables ∧
      (∀ n ∈ assumptions, ∃ l ∈ model, l.toDimacs = n) ∧ s'.descriptions = s.descriptions ∧
      ∀ ν, (∀ l ∈ model, l.holds ν = true) → s.Holds ν := by
    have hv := h.lawful.reachable.valid
    cases hrun with
    | query shared hrun =>
      rw [query_eq_ask] at hrun
      exact ask_satisfiable hv h.lawful.faithful h.upToDate hrun fun _ _ => rfl
    | interrupted polls budget hrun =>
      exact ask_satisfiable hv h.lawful.faithful h.upToDate hrun fun _ _ => rfl
  obtain ⟨hmodel, hvars, -, hsame, hholds⟩ := hask
  have hnodup : (model.map Literal.var).Nodup := hvars ▸ List.nodup_range'
  refine ⟨hmodel, hvars, hsame, fun d hd => ?_⟩
  rw [hsame] at hd
  exact hholds _ (fun l hl => Valuation.holds_ofModel_of_mem hnodup hl) d hd

/-- After the answer yes, and until something is added, there is a prime implicant, whatever the
strategy: a part of the model that satisfies all constraints by itself, and of which no literal can
be left out but those of a constraint that requires more than it takes. -/
theorem Undisturbed.computeImplicant_prime {assumptions : List Int} {model : List Literal}
    {s s' s'' : Session κ} (h : s.Undisturbed)
    (hrun : s.Answers assumptions (.satisfiable model) s') (hrests : s'.Rests s'') :
    s''.model = .ok model ∧ ∃ ls : List Literal, ((computeImplicant).run s'').1 = .ok ls ∧
      ls ⊆ model ∧ (∀ ν : Valuation, (∀ l ∈ ls, l.holds ν = true) → s''.Holds ν) ∧
      ∀ l ∈ ls, (∀ d ∈ s''.descriptions, ¬ d.Loose l) →
        ∃ ν : Valuation, (∀ m ∈ ls, m ≠ l → m.holds ν = true) ∧ ¬ s''.Holds ν := by
  obtain ⟨hmodel, hvars, -, hholds⟩ := Answers.modelled h hrun
  have hreach := Answers.reachable h.lawful.reachable hrun
  obtain ⟨hsame, hsub⟩ := hrests.relaxes hreach
  have hnodup : (model.map Literal.var).Nodup := hvars ▸ List.nodup_range'
  have hholds'' : ∀ d ∈ s''.descriptions, d.Holds (Valuation.ofModel model) :=
    fun d hd => hholds d (hsub hd)
  have hknown : ∀ d ∈ s''.descriptions, ∀ l ∈ d.literals, l.var ∈ model.map Literal.var := by
    intro d hd l hl
    obtain ⟨hne, hle⟩ := le_numVariables (hreach.standing.described (hsub hd) l hl)
    rw [hvars, List.mem_range'_1]
    omega
  have hmodel'' : s''.model = .ok model := by
    rw [← hmodel, Session.model, Session.model, hsame]
  obtain ⟨implicant, himplicant, hprime⟩ :=
    primeImplicant_of_holds s''.book.options.implicant hnodup hknown hholds''
  have hmem : ∀ l, l ∈ sortByVariable implicant ↔ l ∈ implicant :=
    fun l => (List.mergeSort_perm _ _).mem_iff
  refine ⟨hmodel'', sortByVariable implicant, run_computeImplicant hmodel'' himplicant,
    fun l hl => hprime.subset ((hmem l).mp hl), fun ν hν d hd => ?_, fun l hl hloose => ?_⟩
  · exact Description.holds_of_meetsAll hnodup hprime.subset hprime.meets hd (hholds'' d hd)
      fun l hl => hν l ((hmem l).mpr hl)
  · -- Some requirement is not met without the literal, so its constraint can be violated.
    have hunmet := hprime.minimal l ((hmem l).mp hl)
    simp only [MeetsAll, not_forall] at hunmet
    obtain ⟨r, hr, hunmet⟩ := hunmet
    obtain ⟨d, hd, hofd⟩ := List.mem_filterMap.mp hr
    obtain ⟨ν, hν, hviolated⟩ := Description.exists_violation hnodup hprime.subset hprime.nodup
      (hholds'' d hd) hofd (hprime.meets r hr) hunmet (hloose d hd)
    exact ⟨ν, fun m hm => hν m ((hmem m).mp hm), fun hall => hviolated (hall d hd)⟩

/-- The literal of which two copies have to be true is needed, also after more variables were made
known. -/
theorem Undisturbed.computeImplicant_prime_of_copies :
    ∃ (s' s'' : Session Empty) (ls : List Literal), withCopies.Undisturbed ∧
      withCopies.Answers [1] (.satisfiable [.make 1 true]) s' ∧ s'.Rests s'' ∧
      s'' = ⟨s'.engine.grow 5, s'.book⟩ ∧ ((computeImplicant).run s'').1 = .ok ls ∧
      ls ⊆ [.make 1 true] ∧ (∀ ν : Valuation, (∀ l ∈ ls, l.holds ν = true) → s''.Holds ν) ∧
      ∀ l ∈ ls, ∃ ν : Valuation, (∀ m ∈ ls, m ≠ l → m.holds ν = true) ∧ ¬ s''.Holds ν := by
  have hanswer : ((query [1] false).run withCopies).1 =
      .ok (.ok (.satisfiable [.make 1 true])) := by
    decide +kernel
  have hrun := Answers.query false (Prod.ext hanswer rfl)
  obtain ⟨-, -, hsame, -⟩ := Answers.modelled undisturbed_withCopies hrun
  have hrests := Rests.call (c := .newVariables 5) .refl (s := ((query [1] false).run withCopies).2)
    rfl id rfl
  have hpairs : ∀ m ∈ copies.literals, -m ∉ copies.literals := by decide
  obtain ⟨-, ls, himplicant, hsub, hholds, hneeded⟩ :=
    Undisturbed.computeImplicant_prime undisturbed_withCopies hrun hrests
  refine ⟨_, _, ls, undisturbed_withCopies, hrun, hrests, rfl, himplicant, hsub, hholds,
    fun l hl => hneeded l hl fun d hd => ?_⟩
  have hd : d ∈ withCopies.descriptions := hsame ▸ hd
  rw [List.mem_singleton.mp hd]
  rintro ⟨-, m, hm, hn⟩
  exact hpairs m hm hn

end Session

end ClauseLearning
