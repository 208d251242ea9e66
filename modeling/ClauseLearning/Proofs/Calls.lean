import ClauseLearning.Proofs.Addition
import ClauseLearning.Session.Query

/-!
# Calls

What a caller can ask of a session, as data, and how a call that returns normally takes a session
apart. A query may be stopped from outside, by a raised flag or by a clock that runs at a speed of
its own, so next to the queries of the library there is one that is stopped at any polls
(`Call.interrupted`).

Most of what happens between two searches finds nothing out and misses nothing (`Engine.Idles`).

* `Session.ok_of_run_bind`: a call in two steps.
* `Session.query_eq_ask`: a query of the library is one that its limits may stop.
* `Engine.growAll_idles`, `Engine.model_idles`, `Engine.restrict_idles`: what idles.
-/

namespace ClauseLearning

variable {κ : Type}

/-! ## Engines that learn nothing -/

namespace Engine

/-- Nothing was found out about the constraints, and no notification was missed. -/
structure Idles (e e' : Engine κ) : Prop where
  wellFormed : e'.WellFormed
  retains : e.search.Retains e'.search
  admits : ∀ ν, e.search.Admits ν → e'.search.Admits ν
  upToDate : e.search.UpToDate → e'.search.UpToDate
  alike : e.control.Alike e'.control
  root : e.search.decisionLevel = 0 → e'.search.decisionLevel = 0

theorem Idles.refl {e : Engine κ} (h : e.WellFormed) : e.Idles e :=
  ⟨h, .refl _, fun _ hν => hν, fun hu => hu, .refl _, fun hr => hr⟩

theorem Idles.trans {e₁ e₂ e₃ : Engine κ} (h : e₁.Idles e₂) (h' : e₂.Idles e₃) : e₁.Idles e₃ :=
  ⟨h'.wellFormed, h.retains.trans h'.retains, fun ν hν => h'.admits ν (h.admits ν hν),
    fun hu => h'.upToDate (h.upToDate hu), h.alike.trans h'.alike, fun hr => h'.root (h.root hr)⟩

/-- Makes the variables of several numbers known, one after the other. -/
def growAll (ns : List Nat) (e : Engine κ) : Engine κ := ns.foldl (fun e n => e.grow n) e

theorem grow_idles {e : Engine κ} (h : e.WellFormed) (n : Nat) : e.Idles (e.grow n) := by
  obtain ⟨hadv, hup, hcontrol, hsearch, -⟩ := grow_spec h n
  have hadds := grow_adds h 0 n
  exact ⟨hadv.wellFormed, hadv.retains, fun ν hν => hadds.admits ν hν nofun, hup,
    ⟨by rw [hcontrol], by rw [hcontrol]⟩, fun hr => hadds.decisionLevel_eq.trans hr⟩

theorem growAll_idles {e : Engine κ} (h : e.WellFormed) (ns : List Nat) :
    e.Idles (e.growAll ns) := by
  induction ns generalizing e with
  | nil => exact .refl h
  | cons n ns ih =>
    have hgrow := grow_idles h n
    exact hgrow.trans (ih hgrow.wellFormed)

/-- The preferred literals of some variables, and what asking for them leaves. -/
theorem select_spec (vs : List Nat) {order : DecisionOrder Generator} (h : order.heap.Valid)
    (ls : List Literal) :
    ((vs.foldl (fun (ls, order) v =>
        let (l, order) := order.select v
        (l :: ls, order)) ((ls, order) : List Literal × DecisionOrder Generator)).1.map
          Literal.var =
      vs.reverse ++ ls.map Literal.var) ∧
    order.SameKeys (vs.foldl (fun (ls, order) v =>
        let (l, order) := order.select v
        (l :: ls, order)) ((ls, order) : List Literal × DecisionOrder Generator)).2 := by
  induction vs generalizing order ls with
  | nil => exact ⟨rfl, .refl h⟩
  | cons v vs ih =>
    have hsame := DecisionOrder.sameKeys_select h v
    obtain ⟨hvars, hkeys⟩ := ih hsame.valid ((order.select v).1 :: ls)
    refine ⟨hvars.trans ?_, hsame.trans hkeys⟩
    have hv : (order.select v).1.var = v := by
      cases order
      exact Phase.var_select v _
    rw [List.map_cons, hv, List.reverse_cons, List.append_assoc, List.singleton_append]

/-- The literals of a model start with the trail and name every other variable once. -/
theorem model_spec (e : Engine κ) (h : e.WellFormed) :
    e.Idles e.model.2 ∧ e.model.2.search.assignment = e.search.assignment ∧
      ∃ ls : List Literal, e.model.1 = e.search.assignment.trues ++ ls ∧
        ls.map Literal.var =
          e.search.assignment.vars.filter fun v => !e.search.assignment.isAssigned v := by
  obtain ⟨⟨board, arena, learned, order, head⟩, analyser, control⟩ := e
  have hw : (⟨board, arena, learned, order, head⟩ : SearchState κ).WellFormed := h.search
  have horder : order.WellFormed board.assignment.cells.size := hw.order
  obtain ⟨hvars, hkeys⟩ := select_spec
    (board.assignment.vars.filter fun v => !board.assignment.isAssigned v) horder.valid []
  refine ⟨⟨⟨hw.reorder (hkeys.wellFormed horder) (hkeys.offers hw.offers), h.clean⟩,
    .of_agree (.refl _) fun _ hl => hl, fun ν hν => ⟨hν.holds, hν.facts⟩,
    fun hu => ⟨hu.grounded, hu.settles⟩, .refl _, fun hr => hr⟩, rfl, _, rfl, ?_⟩
  rw [List.map_reverse, hvars, List.map_nil, List.append_nil, List.reverse_reverse]
  rfl

variable [CustomConstraint κ]

theorem backtrack_idles {level : Nat} {e e' : Engine κ} (h : e.WellFormed)
    (hrun : e.backtrack level = .ok e') : e.Idles e' := by
  obtain ⟨hadv, hsearch, hcontrol⟩ := backtrack_spec h hrun
  refine ⟨hadv.wellFormed, hadv.retains, fun ν hν => hν.backtrack h.search hsearch,
    fun hu => hu.backtrack h.search hsearch, ⟨by rw [hcontrol], by rw [hcontrol]⟩, fun hr => ?_⟩
  rw [SearchState.decisionLevel_backtrack h.search hsearch, hr, Nat.min_zero]

omit [CustomConstraint κ] in
theorem restrict_idles {e : Engine κ} (h : e.WellFormed) (vs : Option (List Nat)) :
    e.Idles (e.restrictDecisions vs) := by
  obtain ⟨hw, hr, hi, hlevel, hretains, hadmits, hup⟩ := restrictDecisions_spec h vs
  exact ⟨hw, hretains, hadmits, hup, ⟨hr, hi⟩, fun hroot => hlevel.trans hroot⟩

end Engine

/-! ## Steps of a call -/

namespace Session

variable {α β : Type}

theorem run_bind (x : SessionM κ α) (f : α → SessionM κ β) (s : Session κ) :
    (x >>= f).run s =
      match x.run s with
      | (.ok a, s') => (f a).run s'
      | (.error v, s') => (.error v, s') := by
  show (ExceptT.bindCont f (x.run s).1 : StateM (Session κ) _) (x.run s).2 = _
  rcases x.run s with ⟨a | a, s'⟩
  · rfl
  · rfl

/-- A call in two steps returns when both steps do. -/
theorem ok_of_run_bind {x : SessionM κ α} {f : α → SessionM κ β} {b : β} {s s' : Session κ}
    (h : (x >>= f).run s = (.ok b, s')) :
    ∃ a s₁, x.run s = (.ok a, s₁) ∧ (f a).run s₁ = (.ok b, s') := by
  rw [run_bind] at h
  rcases hx : x.run s with ⟨v | a, s₁⟩
  · rw [hx] at h
    cases h
  · rw [hx] at h
    exact ⟨a, s₁, rfl, h⟩

theorem ok_of_run_discard {x : SessionM κ α} {s s' : Session κ}
    (h : (Functor.discard x).run s = (.ok (), s')) : ∃ a, x.run s = (.ok a, s') := by
  obtain ⟨a, s₁, hx, h⟩ := ok_of_run_bind (f := fun _ => pure ()) (x := x) (s := s) h
  cases h
  exact ⟨a, hx⟩

theorem run_discard_of_ok {x : SessionM κ α} {a : α} {s s' : Session κ}
    (h : x.run s = (.ok a, s')) : (Functor.discard x).run s = (.ok (), s') := by
  show (x >>= fun _ => pure ()).run s = _
  rw [run_bind, h]
  rfl

theorem ok_of_run_ofEngine {f : Engine κ → Except Fault (α × Engine κ)} {a : α} {s s' : Session κ}
    [CustomConstraint κ] (h : (ofEngine f).run s = (.ok a, s')) :
    f s.engine = .ok (a, s'.engine) ∧ s'.book = s.book := by
  have h : ofEngine f s = (.ok a, s') := h
  unfold ofEngine at h
  split at h
  split at h
  · rename_i hf
    cases h
    exact ⟨hf, rfl⟩
  · cases h

/-- Calls that make variables known, one after the other. -/
theorem ok_of_run_mapM {f : α → SessionM κ β} {size : α → Nat} {P : α → β → Prop}
    (hf : ∀ x b (s s' : Session κ), (f x).run s = (.ok b, s') →
      s' = ⟨s.engine.grow (size x), s.book⟩ ∧ P x b)
    {xs : List α} {bs : List β} {s s' : Session κ} (h : (xs.mapM f).run s = (.ok bs, s')) :
    s' = ⟨s.engine.growAll (xs.map size), s.book⟩ ∧ List.Forall₂ P xs bs := by
  induction xs generalizing s bs with
  | nil =>
    cases h
    exact ⟨rfl, .nil⟩
  | cons x xs ih =>
    rw [List.mapM_cons] at h
    obtain ⟨b, s₁, hx, h⟩ := ok_of_run_bind h
    obtain ⟨bs', s₂, hxs, h⟩ := ok_of_run_bind h
    cases h
    obtain ⟨rfl, hp⟩ := hf x b s s₁ hx
    obtain ⟨rfl, hall⟩ := ih hxs
    exact ⟨rfl, .cons hp hall⟩

/-- A number that denotes a literal makes its variable known. -/
theorem ok_of_run_literal {n : Int} {l : Literal} {s s' : Session κ}
    (h : (literal n).run s = (.ok l, s')) :
    s' = ⟨s.engine.grow n.natAbs, s.book⟩ ∧ l.toDimacs = n ∧ l.var ≠ 0 := by
  obtain ⟨r, s₁, hr, h⟩ := ok_of_run_bind h
  cases hr
  cases hn : Literal.ofDimacs n with
  | error e =>
    rw [hn] at h
    cases h
  | ok m =>
    rw [hn] at h
    cases h
    refine ⟨rfl, Literal.toDimacs_ofDimacs hn, fun hv => ?_⟩
    unfold Literal.ofDimacs at hn
    split at hn
    · cases hn
    · split at hn
      · cases hn
        rw [Literal.var_make] at hv
        omega
      · cases hn

theorem ok_of_run_literals {ns : List Int} {ls : List Literal} {s s' : Session κ}
    (h : (literals ns).run s = (.ok ls, s')) :
    s' = ⟨s.engine.growAll (ns.map Int.natAbs), s.book⟩ ∧ (∀ l ∈ ls, l.var ≠ 0) ∧
      ls.map Literal.toDimacs = ns := by
  obtain ⟨hs, hall⟩ := ok_of_run_mapM
    (P := fun n l => l.toDimacs = n ∧ l.var ≠ 0) (fun n l s s' => ok_of_run_literal) h
  refine ⟨hs, ?_⟩
  clear h hs
  induction hall with
  | nil => exact ⟨nofun, rfl⟩
  | cons hl _ ih =>
    obtain ⟨rfl, hne⟩ := hl
    obtain ⟨hrest, heq⟩ := ih
    rw [List.map_cons, heq]
    exact ⟨List.forall_mem_cons.mpr ⟨hne, hrest⟩, rfl⟩

/-- Variables become known unless there are too many for their literals. -/
theorem ok_of_run_newVariables {n m : Nat} {s s' : Session κ}
    (h : (newVariables n).run s = (.ok m, s')) :
    n ≤ maxVariable ∧ s' = ⟨s.engine.grow n, s.book⟩ := by
  unfold newVariables at h
  split at h
  · obtain ⟨_, _, hthrow, -⟩ := ok_of_run_bind h
    cases hthrow
  · rename_i hle
    cases h
    exact ⟨Nat.le_of_not_lt hle, rfl⟩

/-! ## Additions -/

end Session

theorem Literal.natAbs_toDimacs (l : Literal) : l.toDimacs.natAbs = l.var := by
  unfold toDimacs
  split
  · exact Int.natAbs_natCast l.var
  · rw [Int.natAbs_neg, Int.natAbs_natCast]

/-- Whether the literal that a signed number denotes is true. -/
def Valuation.holdsAt (ν : Valuation) (n : Int) : Bool := ν n.natAbs == decide (0 < n)

theorem Valuation.holdsAt_toDimacs {ν : Valuation} {l : Literal} (h : l.var ≠ 0) :
    ν.holdsAt l.toDimacs = l.holds ν := by
  have hpos : (0 : Int) < l.var := by omega
  have hneg : ¬ (0 : Int) < -(l.var : Int) := by omega
  unfold holdsAt Literal.holds Literal.toDimacs
  cases l.isPositive with
  | true => rw [if_pos rfl, Int.natAbs_natCast, decide_eq_true hpos]
  | false =>
    rw [if_neg Bool.false_ne_true, Int.natAbs_neg, Int.natAbs_natCast, decide_eq_false hneg]

/-- What a caller can add. -/
inductive Addition
  | clause (ns : List Int)
  | atLeast (ns : List Int) (degree : Nat)
  | atMost (ns : List Int) (degree : Nat)
  | exactly (ns : List Int) (degree : Nat)
  | parity (ns : List Int) (even : Bool)
  deriving DecidableEq, Repr

namespace Addition

def numbers : Addition → List Int
  | clause ns => ns
  | atLeast ns _ => ns
  | atMost ns _ => ns
  | exactly ns _ => ns
  | parity ns _ => ns

/-- What is added, given the literals of the numbers. -/
def descriptions (ls : List Literal) : Addition → List (Description κ)
  | clause _ => [.clause ls]
  | atLeast _ degree => [.atLeast ls degree]
  | atMost _ degree => [.atMost ls degree]
  | exactly _ degree => Description.exactly ls degree
  | parity _ even => [.parity ls even]

def run [CustomConstraint κ] : Addition → SessionM κ (Except Refusal Nat)
  | clause ns => Session.addClause ns
  | atLeast ns degree => Session.addAtLeast ns degree
  | atMost ns degree => Session.addAtMost ns degree
  | exactly ns degree => Session.addExactly ns degree
  | parity ns even => Session.addParity ns even

theorem run_eq [CustomConstraint κ] (a : Addition) :
    (a.run : SessionM κ (Except Refusal Nat)) =
      (do Session.addConstraint (a.descriptions (← Session.literals a.numbers))) := by
  cases a <;> rfl

theorem known {a : Addition} {ls : List Literal} {size : Nat} (h : ∀ l ∈ ls, l.Known size) :
    ∀ d ∈ (a.descriptions ls : List (Description κ)), d.Known size := by
  have hneg : ∀ l ∈ ls.map (fun l : Literal => -l), l.Known size := by
    intro l hl
    obtain ⟨m, hm, rfl⟩ := List.mem_map.mp hl
    exact (h m hm).negate
  intro d hd
  cases a with
  | clause ns =>
    cases List.mem_singleton.mp hd
    exact h
  | atLeast ns degree =>
    cases List.mem_singleton.mp hd
    exact h
  | atMost ns degree =>
    cases List.mem_singleton.mp hd
    exact hneg
  | exactly ns degree =>
    rcases List.mem_pair.mp hd with rfl | rfl
    · exact h
    · exact hneg
  | parity ns even =>
    cases List.mem_singleton.mp hd
    exact h

theorem proper {a : Addition} {ls : List Literal} (h : ∀ l ∈ ls, l.var ≠ 0) :
    ∀ d ∈ (a.descriptions ls : List (Description κ)), d.Proper := by
  have hk : ∀ l ∈ ls, l.Known (Description.maxVariable ls + 1) := fun l hl =>
    ⟨h l hl, Nat.lt_succ_of_le (Description.le_maxVariable hl)⟩
  exact fun d hd => Description.Known.proper (known hk d hd)

/-- What an addition says of a valuation. -/
def Holds (ν : Valuation) : Addition → Prop
  | clause ns => ∃ n ∈ ns, ν.holdsAt n = true
  | atLeast ns degree => degree ≤ ns.countP ν.holdsAt
  | atMost ns degree => ns.countP ν.holdsAt ≤ degree
  | exactly ns degree => ns.countP ν.holdsAt = degree
  | parity ns even => (ns.countP ν.holdsAt % 2 == 0) = even

theorem holds_iff {a : Addition} {ls : List Literal} (h : ∀ l ∈ ls, l.var ≠ 0)
    (hls : ls.map Literal.toDimacs = a.numbers) (ν : Valuation) :
    (∀ d ∈ (a.descriptions ls : List (Description κ)), d.Holds ν) ↔ a.Holds ν := by
  have hcount : ν.count ls = a.numbers.countP ν.holdsAt := by
    rw [← hls, List.countP_map]
    exact List.countP_congr fun l hl => by
      rw [Function.comp_apply, Valuation.holdsAt_toDimacs (h l hl)]
  have hmost := fun degree => Description.holds_atMost (κ := κ) ν ls degree
  cases a with
  | clause ns =>
    have hmem : (∃ l ∈ ls, l.holds ν = true) ↔ 0 < ν.count ls := List.countP_pos_iff.symm
    simp only [descriptions, List.forall_mem_singleton, Description.Holds, hmem, hcount, Holds]
    exact List.countP_pos_iff
  | atLeast ns degree =>
    simp only [descriptions, List.forall_mem_singleton, Description.Holds, hcount, Holds, numbers]
  | atMost ns degree =>
    simp only [descriptions, List.forall_mem_singleton, hmost, hcount, Holds, numbers]
  | exactly ns degree =>
    have hcount' : ν.count ls = ns.countP ν.holdsAt := hcount
    simp only [descriptions, Description.exactly, List.forall_mem_cons, hmost, List.not_mem_nil,
      false_implies, implies_true, and_true, Holds, hcount']
    show degree ≤ ν.count ls ∧ ns.countP ν.holdsAt ≤ degree ↔ ns.countP ν.holdsAt = degree
    omega
  | parity ns even =>
    simp only [descriptions, List.forall_mem_singleton, Description.Holds, hcount, Holds, numbers]

end Addition

/-! ## Queries -/

/-- A condition that answers its polls one after the other, whatever happens in the search. -/
structure Polls where
  answers : Nat → Bool
  asked : Nat

instance : Termination Polls where
  poll p := (p.answers p.asked, ⟨p.answers, p.asked + 1⟩)
  onConflict p := p

namespace Session

variable [CustomConstraint κ]

section

variable {τ : Type} [Termination τ]

/-- A query that `limit` may stop; `settle` is what the book keeps of the limit. -/
def ask (assumptions : List Int) (limit : Book κ → τ) (settle : τ → Book κ → Book κ) :
    SessionM κ (Except SearchError Answer) := do
  let assumptions ← literals assumptions
  modifyBook forgetAnswer
  let limit ← readBook limit
  let (outcome, limit) ← ofEngine fun e => do
    let (outcome, limit, e) ← e.solve assumptions limit
    return ((outcome, limit), e)
  modifyBook (settle limit)
  answer outcome

theorem query_eq_ask (assumptions : List Int) (shared : Bool) :
    (query assumptions shared : SessionM κ (Except SearchError Answer)) =
      ask assumptions (fun book => (⟨book.stopRequested, budgetOf shared book⟩ : QueryLimit))
        fun limit book => { book with
          sharedBudget := if shared then some limit.budget else none } := rfl

/-- A query searches, and turns the outcome into an answer. -/
theorem ok_of_run_ask {assumptions : List Int} {limit : Book κ → τ} {settle : τ → Book κ → Book κ}
    {result : Except SearchError Answer} {s s' : Session κ}
    (h : (ask assumptions limit settle).run s = (.ok result, s')) :
    ∃ ls limit' outcome engine, (literals assumptions).run s =
        (.ok ls, ⟨s.engine.growAll (assumptions.map Int.natAbs), s.book⟩) ∧
      (s.engine.growAll (assumptions.map Int.natAbs)).solve ls (limit (forgetAnswer s.book)) =
        .ok (outcome, limit', engine) ∧
      (answer outcome).run ⟨engine, settle limit' (forgetAnswer s.book)⟩ = (.ok result, s') := by
  obtain ⟨ls, s₁, hls, h⟩ := ok_of_run_bind h
  obtain ⟨rfl, -⟩ := ok_of_run_literals hls
  obtain ⟨_, s₂, h₂, h⟩ := ok_of_run_bind h
  cases h₂
  obtain ⟨_, s₃, h₃, h⟩ := ok_of_run_bind h
  cases h₃
  obtain ⟨⟨outcome, limit'⟩, s₄, h₄, h⟩ := ok_of_run_bind h
  obtain ⟨hsolve, hbook⟩ := ok_of_run_ofEngine h₄
  obtain ⟨⟨outcome₁, limit₁, e₁⟩, hsolve, hret⟩ := ok_of_bind hsolve
  cases hret
  obtain ⟨_, s₅, h₅, h⟩ := ok_of_run_bind h
  cases h₅
  obtain ⟨engine₄, book₄⟩ := s₄
  cases hbook
  exact ⟨ls, limit', outcome, engine₄, hls, hsolve, h⟩

/-- The query is asked to stop at a stage where that forgets about a conflict at the root. -/
def Abandons (assumptions : List Int) (limit : τ) (s : Session κ) : Prop :=
  ∃ ls s₁ last e, (literals assumptions).run s = (.ok ls, s₁) ∧
    Engine.StopsAt ls limit s₁.engine last e ∧ e.Abandons last

end

end Session

/-! ## Everything that can be called -/

inductive Call
  | newVariables (n : Nat)
  | add (a : Addition)
  | query (assumptions : List Int) (shared : Bool)
  /-- A query with the given answers to its polls; `budget` is what is left to share. -/
  | interrupted (assumptions : List Int) (polls : Nat → Bool) (budget : Option Condition)
  | remove (handle : Nat)
  | removeSubsumed (handle : Nat)
  | decideOnly (vs : List Nat)
  | decideAll
  | computeImplicant
  | takeEvents
  | requestStop
  | reset

/-- A query that is stopped from outside. -/
def Session.queryInterrupted [CustomConstraint κ] (assumptions : List Int) (polls : Nat → Bool)
    (budget : Option Condition) : SessionM κ (Except SearchError Answer) :=
  ask assumptions (fun _ => (⟨polls, 0⟩ : Polls)) fun _ book => { book with sharedBudget := budget }

/-- A call without its result. -/
def Call.run [CustomConstraint κ] : Call → SessionM κ Unit
  | newVariables n => Functor.discard (Session.newVariables n)
  | add a => Functor.discard a.run
  | query assumptions shared => Functor.discard (Session.query assumptions shared)
  | interrupted assumptions polls budget =>
    Functor.discard (Session.queryInterrupted assumptions polls budget)
  | remove handle => Session.remove handle
  | removeSubsumed handle => Session.removeSubsumed handle
  | decideOnly vs => Session.decideOnly vs
  | decideAll => Session.decideAll
  | computeImplicant => Functor.discard Session.computeImplicant
  | takeEvents => fun s => (.ok (), s.takeEvents.2)
  | requestStop => fun s => (.ok (), s.requestStop)
  | reset => fun s => (.ok (), s.reset)

end ClauseLearning
