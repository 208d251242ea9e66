import ClauseLearning.Proofs.Formulas
import ClauseLearning.Proofs.Minimality
import ClauseLearning.Race.Basic

/-!
# Racing in any order

The contestants of a race take their steps in any order, and an interruption may come at any time.
What they share is the podium: a contestant looks at it when it registers, before every stage of its
search, and when it claims it. Everything else a contestant does on its own. A wall clock runs at a
speed of its own.

Whoever wins is right, because a contestant is right by the time it has an answer, however the
others ran meanwhile.

* `Race.Contestant`, `Race.Field`: the state of a race, and `Race.Field.after`: the steps.
* `Race.Field.verdict_right_after`: what a race gives.
-/

namespace ClauseLearning

/-! ## The podium -/

namespace Podium

variable {α : Type} {i : Nat} {a : α} {p p' : Podium α}

theorem winner_register (h : p.register i = some p') : p'.winner = p.winner := by
  unfold register at h
  split at h
  · cases h
  · cases h
    rfl

/-- Whoever is let in is not told to stop yet. -/
theorem isToldToStop_register (h : p.register i = some p') (j : Nat) :
    p'.isToldToStop j = false := by
  unfold register at h
  split at h
  · cases h
  · rename_i hfinished
    cases h
    simp [isToldToStop, hfinished]

theorem winner_claim {w : Nat × α} (h : (p.claim i a).winner = some w) :
    p.winner = some w ∨ w = (i, a) := by
  unfold claim at h
  split at h
  · exact Or.inl h
  · exact Or.inr (Option.some.inj h).symm

end Podium

/-! ## Searches in stages -/

namespace Engine

variable {κ : Type} [CustomConstraint κ]

/-- A search under assumptions that started from `e₀` is about to go through a stage. -/
structure Searches (assumptions : List Literal) (e₀ : Engine κ) (stage : Stage) (e : Engine κ) :
    Prop where
  advances : (e₀.under assumptions).Advances e
  honours : e.Honours
  known : ∀ l ∈ e.control.assumptions, l.Known e.search.assignment.cells.size
  at_stage : e.At stage
  current : e.Current stage

variable {assumptions : List Literal} {e₀ e e' : Engine κ}

theorem Searches.start (h : e₀.WellFormed) (hne : ∀ l ∈ assumptions, l.var ≠ 0)
    (hu : e₀.search.UpToDate) (hback : e₀.backtrack 0 = .ok e) :
    e₀.Searches assumptions .propagating (e.posed assumptions) := by
  obtain ⟨hadv, hhonours, hknown, hup⟩ := posed_spec h hne hback
  exact ⟨hadv, hhonours, hknown, trivial, hup hu⟩

/-- A stage leads to another stage, or to an outcome that is right. -/
theorem Searches.step {stage : Stage} {next : Except Outcome Stage}
    (h : e₀.Searches assumptions stage e) (hrun : e.step stage = .ok (next, e')) :
    (∀ stage', next = .ok stage' → e₀.Searches assumptions stage' e') ∧
      ∀ o, next = .error o →
        (e₀.under assumptions).Advances e' ∧ (e₀.under assumptions).Concludes e' o ∧
        e'.Leaves o := by
  have hs := step_spec h.advances.wellFormed h.honours h.known h.at_stage hrun
  have hadv := h.advances.trans hs.advances
  refine ⟨fun stage' hnext => ?_, fun o hnext => ?_⟩
  · exact ⟨hadv, hs.advances.honours h.honours, hs.advances.known h.known, hs.at_next stage' hnext,
      hs.current stage' hnext h.current⟩
  · exact ⟨hadv, (hs.concludes o hnext).of_advances h.advances hs.advances,
      hs.leaves o hnext h.current⟩

end Engine

namespace Race

/-! ## Steps of a race -/

/-- What a contestant is about to do. -/
inductive Contestant
  | waiting
  | registered
  /-- It goes through a stage of its search, if it is not told to stop. -/
  | searching (stage : Stage) (budget : Condition) (s : PlainSession)
  | answered (answer : Answer) (s : PlainSession)
  | gone

namespace Contestant

/-- Turns the outcome of a search into an answer; without one the contestant leaves. -/
def conclude (outcome : Outcome) (s : PlainSession) : Contestant :=
  match (Session.answer (κ := Empty) outcome).run s with
  | (.ok (.ok a), s) => .answered a s.takeEvents.2
  | _ => .gone

/-- The book of a query that has a budget of its own. -/
def opened (book : Book Empty) : Book Empty :=
  { Session.forgetAnswer book with sharedBudget := none }

/-- Starts to search, unless it is known already that there is no model. -/
def pose : PlainSession → Contestant
  | ⟨engine, book⟩ =>
    let book := opened book
    if engine.control.infeasible then conclude .unsatisfiable ⟨engine, book⟩
    else
      match engine.backtrack 0 with
      | .error _ => .gone
      | .ok engine =>
        .searching .propagating (Session.budgetOf false book) ⟨engine.posed [], book⟩

/-- Adds the formula to a new session. -/
def load (f : Formula) (o : Options) : Contestant :=
  match (f.addTo (κ := Empty)).run (.make o) with
  | (.error _, _) => .gone
  | (.ok (.error _), s) => .answered (.unsatisfiable []) s
  | (.ok (.ok ()), s) => pose s

/-- Goes through a stage, unless told to stop or out of budget. -/
def search (told : Bool) (stage : Stage) (budget : Condition) (s : PlainSession) : Contestant :=
  match Termination.poll (⟨told, budget⟩ : QueryLimit) with
  | (true, _) => .gone
  | (false, limit) =>
    match s.engine.step stage with
    | .error _ => .gone
    | .ok (.ok next, engine) => .searching next (stage.announce limit).budget ⟨engine, s.book⟩
    | .ok (.error outcome, engine) => conclude outcome ⟨engine, s.book⟩

/-- One step of the contestant with number `i`. -/
def act (f : Formula) (withImplicant : Bool) (i : Nat) (o : Options) (p : Podium Verdict) :
    Contestant → Podium Verdict × Contestant
  | .waiting =>
    match p.register i with
    | none => (p, .gone)
    | some p => (p, .registered)
  | .registered => (p, load f o)
  | .searching stage budget s => (p, search (p.isToldToStop i) stage budget s)
  | .answered answer s => (p.claim i (verdict withImplicant answer s).1, .gone)
  | .gone => (p, .gone)

/-- The clock of a search, if it has one, shows another time. -/
def setClock (ticks : Nat) : Contestant → Contestant
  | .searching stage (.clock _) s => .searching stage (.clock ticks) s
  | c => c

end Contestant

inductive Move
  | interrupt
  /-- The contestant with this number takes a step. -/
  | act (i : Nat)
  | time (i ticks : Nat)
  deriving DecidableEq, Repr

/-- What the contestants share, and what each of them is about to do. -/
structure Field where
  podium : Podium Verdict
  contestants : List Contestant

namespace Field

def start (os : List Options) : Field := ⟨.empty, os.map fun _ => .waiting⟩

def move (f : Formula) (os : List Options) (withImplicant : Bool) (r : Field) : Move → Field
  | .interrupt => { r with podium := r.podium.interrupt }
  | .act i =>
    match os[i]?, r.contestants[i]? with
    | some o, some c =>
      let (p, c) := c.act f withImplicant i o r.podium
      ⟨p, r.contestants.set i c⟩
    | _, _ => r
  | .time i ticks => { r with contestants := r.contestants.modify i (·.setClock ticks) }

/-- A race after some moves, in the order of the list. -/
def after (f : Formula) (os : List Options) (withImplicant : Bool) (moves : List Move) : Field :=
  moves.foldl (move f os withImplicant) (start os)

/-- What a race gives that ends here. -/
def verdict (r : Field) : Verdict := (r.podium.winner.map (·.2)).getD .unknown

end Field

/-! ## What is right -/

end Race

/-- What a verdict says about a formula. -/
def Verdict.Right (f : Formula) : Verdict → Prop
  | .satisfiable model implicant => f.IsTotal model ∧ f.isSatisfiedBy model = .ok true ∧
      ∀ ls ∈ implicant, ls ⊆ model ∧
        ∀ total, f.IsTotal total → ls ⊆ total → f.isSatisfiedBy total = .ok true
  | .unsatisfiable => ∀ total, f.IsTotal total → f.isSatisfiedBy total = .ok false
  | .unknown => True

namespace Race

/-- A session whose last answer is a model of the formula. -/
structure Models (f : Formula) (model : List Literal) (s : PlainSession) : Prop where
  model_eq : s.model = .ok model
  vars : ∃ k, f.numVariables ≤ k ∧ model.map Literal.var = List.range' 1 k
  holds : ∀ ν, (∀ l ∈ model, l.holds ν = true) → ∀ d ∈ s.descriptions, d.Holds ν
  meaning : ∀ ν, (∀ d ∈ s.descriptions, d.Holds ν) → f.Holds ν
  known : ∀ d ∈ s.descriptions, ∀ l ∈ d.literals, l.var ∈ model.map Literal.var

/-- What an answer says about a formula. -/
def Backs (f : Formula) (s : PlainSession) : Answer → Prop
  | .satisfiable model => Models f model s
  | .unsatisfiable _ => ∀ ν, ¬ f.Holds ν

/-- What the winner makes of its answer: that there is no model, or the numbers of the model that
its session has, with those of a prime implicant that it computes if one is asked for. -/
inductive Reports (withImplicant : Bool) (s : PlainSession) : Answer → Verdict → Prop
  | unsatisfiable (core : List Literal) :
      Reports withImplicant s (.unsatisfiable core) .unsatisfiable
  | model {model : List Literal} (hmodel : s.model = .ok model) (hwithout : withImplicant = false) :
      Reports withImplicant s (.satisfiable model) (.satisfiable (numbers model) none)
  | implicant {model ls : List Literal} (hmodel : s.model = .ok model)
      (hwith : withImplicant = true)
      (hcomputed : ((Session.computeImplicant (κ := Empty)).run s).1 = .ok ls) :
      Reports withImplicant s (.satisfiable model)
        (.satisfiable (numbers model) (some (numbers ls)))

section

variable {f : Formula} {model ls : List Literal} {s : PlainSession}

theorem Models.nodup (h : Models f model s) : (model.map Literal.var).Nodup := by
  obtain ⟨k, -, hvars⟩ := h.vars
  rw [hvars]
  exact List.nodup_range'

theorem Models.var_ne_zero (h : Models f model s) {l : Literal} (hl : l ∈ model) : l.var ≠ 0 := by
  obtain ⟨k, -, hvars⟩ := h.vars
  have hv : l.var ∈ List.range' 1 k := hvars ▸ List.mem_map_of_mem hl
  obtain ⟨i, -, hi⟩ := List.mem_range'.mp hv
  omega

theorem Models.isTotal (h : Models f model s) : f.IsTotal (numbers model) := by
  obtain ⟨k, hk, hvars⟩ := h.vars
  refine ⟨k, hk, hvars ▸ ?_⟩
  rw [numbers, List.map_map]
  exact List.map_congr_left fun l _ => Literal.natAbs_toDimacs l

/-- Whatever contains the numbers of an implicant makes its literals true. -/
theorem holds_of_numbers_subset {total : List Int} (hne : ∀ l ∈ ls, l.var ≠ 0)
    (htotal : f.IsTotal total) (hsub : numbers ls ⊆ total) :
    ∀ l ∈ ls, l.holds (Valuation.ofNumbers total) = true := by
  intro l hl
  rw [← Valuation.holdsAt_toDimacs (hne l hl)]
  exact htotal.holdsAt_of_mem (hsub (List.mem_map_of_mem hl))

/-- A total assignment that satisfies what the session asks for satisfies the formula. -/
theorem Models.isSatisfiedBy (h : Models f model s) (hf : f.Built) {total : List Int}
    (htotal : f.IsTotal total)
    (hholds : ∀ d ∈ s.descriptions, d.Holds (Valuation.ofNumbers total)) :
    f.isSatisfiedBy total = .ok true := by
  obtain ⟨b, hb, hiff⟩ := hf.isSatisfiedBy_eq htotal
  rw [hb, hiff.mpr (h.meaning _ hholds)]

theorem Models.right (h : Models f model s) (hf : f.Built) :
    f.IsTotal (numbers model) ∧ f.isSatisfiedBy (numbers model) = .ok true := by
  refine ⟨h.isTotal, h.isSatisfiedBy hf h.isTotal (h.holds _ ?_)⟩
  exact holds_of_numbers_subset (fun l hl => h.var_ne_zero hl) h.isTotal (List.Subset.refl _)

theorem Models.holds_ofModel (h : Models f model s) :
    ∀ d ∈ s.descriptions, d.Holds (Valuation.ofModel model) :=
  h.holds _ fun _ hl => Valuation.holds_ofModel_of_mem h.nodup hl

/-- A prime implicant of the model leaves nothing open. -/
theorem Models.implicant_right (h : Models f model s) (hf : f.Built)
    (hcomputed : ((Session.computeImplicant (κ := Empty)).run s).1 = .ok ls) :
    numbers ls ⊆ numbers model ∧
      ∀ total, f.IsTotal total → numbers ls ⊆ total → f.isSatisfiedBy total = .ok true := by
  obtain ⟨model', implicant, hmodel, himplicant, rfl, -⟩ :=
    Session.computeImplicant_spec (Prod.ext hcomputed rfl)
  rw [h.model_eq] at hmodel
  cases hmodel
  have hmeets : MeetsAll model s.requirements := meetsAll_of_holds h.nodup h.known h.holds_ofModel
  obtain ⟨hsub, hmeets'⟩ := primeImplicant_spec hmeets (List.Nodup.of_map _ h.nodup) himplicant
  have hmem : ∀ {l}, l ∈ Session.sortByVariable implicant ↔ l ∈ implicant :=
    (List.mergeSort_perm _ _).mem_iff
  refine ⟨List.map_subset _ fun l hl => hsub (hmem.mp hl), fun total htotal hsubset => ?_⟩
  have htrue := holds_of_numbers_subset
    (fun l hl => h.var_ne_zero (hsub (hmem.mp hl))) htotal hsubset
  refine h.isSatisfiedBy hf htotal fun d hd => ?_
  exact Description.holds_of_meetsAll h.nodup hsub hmeets' hd (h.holds_ofModel d hd)
    fun l hl => htrue l (hmem.mpr hl)

/-- Whoever has an answer can report it. -/
theorem Backs.reports {answer : Answer} (h : Backs f s answer) (withImplicant : Bool) :
    Reports withImplicant s answer (verdict withImplicant answer s).1 := by
  cases answer with
  | unsatisfiable core => exact .unsatisfiable core
  | satisfiable model =>
    have h : Models f model s := h
    cases withImplicant with
    | false => exact .model h.model_eq rfl
    | true =>
      obtain ⟨implicant, himplicant, -⟩ :=
        primeImplicant_of_holds s.book.options.implicant h.nodup h.known h.holds_ofModel
      have hcomputed := Session.run_computeImplicant h.model_eq himplicant
      rcases hrun : (Session.computeImplicant (κ := Empty)).run s with ⟨result, s'⟩
      rw [hrun] at hcomputed
      subst hcomputed
      simp only [verdict, if_true, hrun]
      exact .implicant h.model_eq rfl (congrArg Prod.fst hrun)

/-- What the winner reports is right. -/
theorem Reports.right {withImplicant : Bool} {answer : Answer} {v : Verdict}
    (h : Reports withImplicant s answer v) (hb : Backs f s answer) (hf : f.Built) : v.Right f := by
  cases h with
  | unsatisfiable core =>
    intro total htotal
    obtain ⟨b, hb', hiff⟩ := hf.isSatisfiedBy_eq htotal
    rw [hb', Bool.eq_false_iff.mpr fun htrue => hb _ (hiff.mp htrue)]
  | model hmodel hwithout =>
    obtain ⟨htotal, hright⟩ := Models.right hb hf
    exact ⟨htotal, hright, nofun⟩
  | implicant hmodel hwith hcomputed =>
    obtain ⟨htotal, hright⟩ := Models.right hb hf
    refine ⟨htotal, hright, fun ns hns => ?_⟩
    cases hns
    exact Models.implicant_right hb hf hcomputed

end

/-! ## Contestants -/

/-- A contestant that searches started from the formula, and one that has an answer is right. -/
def Contestant.Sound (f : Formula) : Contestant → Prop
  | .searching stage _ s => ∃ s₀ : PlainSession, s₀.Loaded f.constraints f.numVariables ∧
      s₀.engine.control.infeasible = false ∧ s.book.entries = s₀.book.entries ∧
      s₀.engine.Searches [] stage s.engine
  | .answered answer s => Backs f s answer
  | _ => True

namespace Contestant

variable {f : Formula}

theorem conclude_sound {s₀ : PlainSession} {e : Engine Empty} {book : Book Empty}
    {outcome : Outcome} (h : s₀.Loaded f.constraints f.numVariables)
    (hinf : s₀.engine.control.infeasible = false) (hentries : book.entries = s₀.book.entries)
    (hadv : (s₀.engine.under []).Advances e) (hconcludes : (s₀.engine.under []).Concludes e outcome)
    (hleaves : e.Leaves outcome) : (conclude outcome ⟨e, book⟩).Sound f := by
  have hk := (Engine.keeps_under h.valid.engine []).trans hadv.toKeeps
  unfold conclude
  split
  · rename_i answer s' hrun
    cases answer with
    | unsatisfiable core =>
      obtain ⟨houtcome, -⟩ := Session.ok_of_run_answer_unsatisfiable hrun
      obtain ⟨-, hsub, hnone⟩ := h.faithful.core_of_concludes hk hconcludes houtcome
      -- No assumption can be to blame.
      refine fun ν hν => hnone ν ((h.holds ν).mpr hν) fun l hl => ?_
      exact absurd (hsub l hl) List.not_mem_nil
    | satisfiable model =>
      obtain ⟨rfl, htake⟩ := Session.ok_of_run_answer_satisfiable hrun
      obtain ⟨hmodel, hvars, hnum, -, hsame, hholds⟩ :=
        h.faithful.model_of_satisfied hinf hk hentries hleaves.2 htake
      obtain ⟨⟨search, analyser, control⟩, book'⟩ := s'
      have hle : f.numVariables ≤ _ := Nat.le_trans h.numVariables hnum
      refine ⟨hmodel, ⟨_, hle, hvars⟩, fun ν hν d hd => ?_, fun ν hν => ?_, fun d hd l hl => ?_⟩
      · exact hholds ν hν d (hsame ▸ hd)
      · exact (h.holds ν).mp fun d hd => hν d (hsame.symm ▸ hd)
      · obtain ⟨hne, hbound⟩ := h.known d (hsame ▸ hd) l hl
        rw [hvars, List.mem_range'_1]
        omega
  · trivial

theorem pose_sound {s : PlainSession} (h : s.Loaded f.constraints f.numVariables) :
    (pose s).Sound f := by
  obtain ⟨engine, book⟩ := s
  unfold pose
  dsimp only
  split
  · rename_i hinf
    exact fun ν hν => h.faithful.infeasible hinf ν ((h.holds ν).mpr hν)
  · rename_i hinf
    have hinf : engine.control.infeasible = false := by simpa using hinf
    split
    · trivial
    · rename_i e hback
      exact ⟨⟨engine, book⟩, h, hinf, rfl, .start h.valid.engine nofun (h.upToDate hinf) hback⟩

theorem load_sound (f : Formula) (o : Options) : (load f o).Sound f := by
  unfold load
  split
  · trivial
  · rename_i refusal s hrun
    exact (Formula.addTo_spec hrun).2 refusal rfl
  · rename_i s hrun
    exact pose_sound ((Formula.addTo_spec hrun).1 rfl)

theorem search_sound {stage : Stage} {budget : Condition} {s : PlainSession}
    (h : (searching stage budget s).Sound f) (told : Bool) :
    (search told stage budget s).Sound f := by
  obtain ⟨s₀, hloaded, hinf, hentries, hsearches⟩ := h
  unfold search
  split
  · trivial
  · split
    · trivial
    · rename_i next e hstep
      exact ⟨s₀, hloaded, hinf, hentries, (hsearches.step hstep).1 next rfl⟩
    · rename_i outcome e hstep
      obtain ⟨hadv, hconcludes, hleaves⟩ := (hsearches.step hstep).2 outcome rfl
      exact conclude_sound hloaded hinf hentries hadv hconcludes hleaves

theorem setClock_sound {c : Contestant} (h : c.Sound f) (ticks : Nat) :
    (c.setClock ticks).Sound f := by
  unfold setClock
  split
  · exact h
  · exact h

end Contestant

/-! ## The winner -/

/-- The verdict is what somebody who was right reported. -/
def Founded (f : Formula) (withImplicant : Bool) (v : Verdict) : Prop :=
  ∃ answer s, Backs f s answer ∧ Reports withImplicant s answer v

/-- All contestants are sound, and so was the winner. -/
structure Field.Sound (f : Formula) (withImplicant : Bool) (r : Field) : Prop where
  contestants : ∀ c ∈ r.contestants, c.Sound f
  winner : ∀ w ∈ r.podium.winner, Founded f withImplicant w.2

namespace Contestant

/-- A step keeps a contestant sound, and what it puts on the podium is what it found. -/
theorem act_sound {f : Formula} {withImplicant : Bool} {i : Nat} {o : Options} {p : Podium Verdict}
    {c : Contestant} (h : c.Sound f) (hp : ∀ w ∈ p.winner, Founded f withImplicant w.2) :
    (c.act f withImplicant i o p).2.Sound f ∧
      ∀ w ∈ (c.act f withImplicant i o p).1.winner, Founded f withImplicant w.2 := by
  cases c with
  | waiting =>
    unfold act
    dsimp only
    split
    · exact ⟨trivial, hp⟩
    · rename_i p' hregister
      refine ⟨trivial, fun w hw => hp w ?_⟩
      rwa [Podium.winner_register hregister] at hw
  | registered => exact ⟨load_sound f o, hp⟩
  | searching stage budget s => exact ⟨search_sound h _, hp⟩
  | answered answer s =>
    refine ⟨trivial, fun w hw => ?_⟩
    rcases Podium.winner_claim hw with hw | rfl
    · exact hp w hw
    · exact ⟨answer, s, h, Backs.reports h withImplicant⟩
  | gone => exact ⟨trivial, hp⟩

end Contestant

namespace Field

variable {f : Formula} {os : List Options} {withImplicant : Bool}

theorem Sound.start (f : Formula) (withImplicant : Bool) (os : List Options) :
    (start os).Sound f withImplicant := by
  refine ⟨fun c hc => ?_, nofun⟩
  obtain ⟨o, -, rfl⟩ := List.mem_map.mp hc
  trivial

theorem Sound.move {r : Field} (h : r.Sound f withImplicant) (m : Move) :
    (r.move f os withImplicant m).Sound f withImplicant := by
  cases m with
  | interrupt => exact ⟨h.contestants, h.winner⟩
  | act i =>
    unfold Field.move
    dsimp only
    split
    · rename_i o c ho hc
      obtain ⟨hsound, hwinner⟩ :=
        Contestant.act_sound (h.contestants c (List.mem_of_getElem? hc)) h.winner
      refine ⟨fun c' hc' => ?_, hwinner⟩
      rcases List.mem_or_eq_of_mem_set hc' with hc' | rfl
      · exact h.contestants c' hc'
      · exact hsound
    · exact h
  | time i ticks =>
    refine ⟨fun c hc => ?_, h.winner⟩
    obtain ⟨j, hj⟩ := List.mem_iff_getElem?.mp hc
    have hj : (r.contestants.modify i (·.setClock ticks))[j]? = some c := hj
    rw [List.getElem?_modify] at hj
    obtain ⟨c', hc', rfl⟩ := Option.map_eq_some_iff.mp hj
    have hold := h.contestants c' (List.mem_of_getElem? hc')
    split
    · exact Contestant.setClock_sound hold ticks
    · exact hold

theorem Sound.after (f : Formula) (os : List Options) (withImplicant : Bool) (moves : List Move) :
    (after f os withImplicant moves).Sound f withImplicant := by
  have hall : ∀ r : Field, r.Sound f withImplicant →
      (moves.foldl (Field.move f os withImplicant) r).Sound f withImplicant := by
    induction moves with
    | nil => exact fun r hr => hr
    | cons m ms ih => exact fun r hr => ih _ (hr.move m)
  exact hall _ (.start f withImplicant os)

theorem Sound.verdict_right {r : Field} (h : r.Sound f withImplicant) (hf : f.Built) :
    r.verdict.Right f := by
  unfold verdict
  cases hwinner : r.podium.winner with
  | none => trivial
  | some w =>
    obtain ⟨answer, s, hbacks, hreports⟩ := h.winner w hwinner
    exact hreports.right hbacks hf

/-- Whatever the order of the steps, what the race gives is right. -/
theorem verdict_right_after (hf : f.Built) (os : List Options) (withImplicant : Bool)
    (moves : List Move) : (after f os withImplicant moves).verdict.Right f :=
  (Sound.after f os withImplicant moves).verdict_right hf

/-- The second of two contestants wins a race, and the first one is told to stop. -/
theorem verdict_right_of_unit_clause :
    ∃ moves : List Move, (after ((Formula.ofNumVariables 1).add (.clause [1]))
        [.standard, .standard] true moves).verdict = .satisfiable [1] (some [1]) ∧
      (Verdict.satisfiable [1] (some [1])).Right
        ((Formula.ofNumVariables 1).add (.clause [1])) := by
  have hverdict : (after ((Formula.ofNumVariables 1).add (.clause [1])) [.standard, .standard] true
      [.act 0, .act 1, .act 0, .act 1, .act 1, .act 1, .act 1, .act 0]).verdict =
        .satisfiable [1] (some [1]) := by decide +kernel
  have hbuilt : ((Formula.ofNumVariables 1).add (.clause [1])).Built :=
    .add (.ofNumVariables (by decide)) (by decide)
  have hright := verdict_right_after hbuilt [.standard, .standard] true
    [.act 0, .act 1, .act 0, .act 1, .act 1, .act 1, .act 1, .act 0]
  rw [hverdict] at hright
  exact ⟨_, hverdict, hright⟩

end Field

end Race

end ClauseLearning
