import ClauseLearning.Proofs.Calls

/-!
# What calls keep

What every operation of an engine keeps, every call of a session keeps, whatever it ends with:
after an internal fault there is a new engine. A removal hands to the engine the references that an
addition got from it, so next to the property of the engine there may be one of the lists of
references in the book. And a call ends with no other faults than the operations do.

* `Engine.Invariant`: what the operations have to keep.
* `Call.upholds`: calls keep it, and have the faults of the operations.
* `Session.Arises.upheld`: so it holds of every session.
-/

namespace ClauseLearning

variable {κ : Type} [CustomConstraint κ]

/-- A property that new engines have and that every operation keeps, one that the references of an
addition have and that a removal may rely on, and one of all faults. -/
structure Engine.Invariant (P : Engine κ → Prop) (N : List Reference → Prop) (F : Fault → Prop) :
    Prop where
  make : ∀ o, P (make o)
  nil : N []
  grow : ∀ {e}, P e → ∀ n, P (e.grow n)
  clear : ∀ {e}, P e → P e.clear
  model : ∀ {e}, P e → P e.model.2
  restrictDecisions : ∀ {e}, P e → ∀ vs, P (e.restrictDecisions vs)
  modifyControl : ∀ {e}, P e → ∀ f, P (e.modifyControl f)
  backtrack : ∀ {e e'} {level : Nat}, P e → e.backtrack level = .ok e' → P e'
  add : ∀ {e e'} {handle : Nat} {ds : List (Description κ)}
    {result : Except Refusal (List Reference)}, P e → e.add handle ds = .ok (result, e') →
    P e' ∧ ∀ rs, result = .ok rs → N rs
  remove : ∀ {e e'} {rs : List Reference} {handle : Nat}, P e → N rs →
    e.remove rs handle = .ok e' → P e'
  solve : ∀ {τ : Type} [Termination τ] {e e'} {assumptions : List Literal} {limit limit' : τ}
    {outcome : Outcome}, P e → e.solve assumptions limit = .ok (outcome, limit', e') → P e'
  fails_backtrack : ∀ {e}, P e → ∀ level, FailsWith F (e.backtrack level)
  fails_add : ∀ {e}, P e → ∀ handle (ds : List (Description κ)), FailsWith F (e.add handle ds)
  fails_remove : ∀ {e} {rs : List Reference}, P e → N rs → ∀ handle,
    FailsWith F (e.remove rs handle)
  fails_solve : ∀ {τ : Type} [Termination τ] {e}, P e → ∀ assumptions (limit : τ),
    FailsWith F (e.solve assumptions limit)
  fails_implicant : ∀ strategy model rs, FailsWith F (primeImplicant strategy model rs)

namespace Session

/-- The engine has the property, and so has what the book says of references. -/
structure Upheld (P : Engine κ → Prop) (N : List Reference → Prop) (s : Session κ) : Prop where
  engine : P s.engine
  references : ∀ entry ∈ s.book.entries.toList, N entry.references

variable {α β : Type} {P : Engine κ → Prop} {N : List Reference → Prop} {F : Fault → Prop}

variable (P N F) in
/-- What a call ended with has the properties, and a value that it gave has one of its own. -/
structure Fits (Q : α → Prop) (x : Except Violation α × Session κ) : Prop where
  after : x.2.Upheld P N
  value : ∀ a, x.1 = .ok a → Q a
  fault : ∀ fault, x.1 = .error (.internal fault) → F fault

variable (P N F) in
/-- The properties hold after the call if they held before, whatever the call ends with. -/
def Upholds (Q : α → Prop) (x : SessionM κ α) : Prop :=
  ∀ s : Session κ, s.Upheld P N → Fits P N F Q (x.run s)

variable (P N F) in
/-- Nothing is said of the value. -/
abbrev Keeps (x : SessionM κ α) : Prop := Upholds P N F (fun _ => True) x

/-! ## Steps of a call -/

section

variable {Q : α → Prop} {R : β → Prop}
omit [CustomConstraint κ]

theorem Fits.ok {a : α} {s : Session κ} (h : s.Upheld P N) (ha : Q a) :
    Fits P N F Q (.ok a, s) :=
  ⟨h, fun _ hb => Except.ok.inj hb ▸ ha, nofun⟩

theorem Fits.error {v : Violation} {s : Session κ} (h : s.Upheld P N)
    (hv : ∀ fault, v = .internal fault → F fault) : Fits P N F Q (.error v, s) :=
  ⟨h, nofun, fun fault heq => hv fault (Except.error.inj heq)⟩

theorem upholds_pure {a : α} (ha : Q a) : Upholds P N F Q (pure a : SessionM κ α) :=
  fun _ h => .ok h ha

theorem keeps_pure (a : α) : Keeps P N F (pure a : SessionM κ α) := upholds_pure trivial

theorem upholds_throw {v : Violation} (hv : ∀ fault, v = .internal fault → F fault) :
    Upholds P N F Q (throw v : SessionM κ α) :=
  fun _ h => .error h hv

theorem Upholds.bind {x : SessionM κ α} {f : α → SessionM κ β} (hx : Upholds P N F Q x)
    (hf : ∀ a, Q a → Upholds P N F R (f a)) : Upholds P N F R (x >>= f) := by
  intro s h
  have hfirst := hx s h
  rw [run_bind]
  rcases hrun : x.run s with ⟨v | a, s₁⟩
  · rw [hrun] at hfirst
    exact .error hfirst.after fun fault heq => hfirst.fault fault (congrArg Except.error heq)
  · rw [hrun] at hfirst
    exact hf a (hfirst.value a rfl) s₁ hfirst.after

theorem Upholds.discard {x : SessionM κ α} (hx : Upholds P N F Q x) :
    Keeps P N F (Functor.discard x) :=
  have hbind : Keeps P N F (x >>= fun _ => pure ()) := hx.bind fun _ _ => keeps_pure ()
  hbind

theorem keeps_mapM {f : α → SessionM κ β} (hf : ∀ x, Keeps P N F (f x)) (xs : List α) :
    Keeps P N F (xs.mapM f) := by
  induction xs with
  | nil => exact keeps_pure []
  | cons x xs ih =>
    rw [List.mapM_cons]
    exact (hf x).bind fun b _ => ih.bind fun bs _ => keeps_pure (b :: bs)

theorem keeps_get : Keeps P N F (get : SessionM κ (Session κ)) := fun _ h => .ok h trivial

theorem keeps_liftM {x : Except Violation α}
    (hx : ∀ fault, x = .error (.internal fault) → F fault) :
    Keeps P N F (liftM x : SessionM κ α) := by
  intro s h
  cases x with
  | ok a => exact .ok h trivial
  | error v => exact .error h fun fault heq => hx fault (congrArg Except.error heq)

theorem keeps_modifyBook {f : Book κ → Book κ}
    (hf : ∀ book, (∀ entry ∈ book.entries.toList, N entry.references) →
      ∀ entry ∈ (f book).entries.toList, N entry.references) : Keeps P N F (modifyBook f) :=
  fun s h => .ok ⟨h.engine, hf s.book h.references⟩ trivial

/-- The entries of the book stay as they are. -/
theorem keeps_settleBook {f : Book κ → Book κ} (hf : ∀ book, (f book).entries = book.entries) :
    Keeps P N F (modifyBook f) :=
  keeps_modifyBook fun book h entry hentry => h entry (hf book ▸ hentry)

theorem upholds_readBook {f : Book κ → α}
    (hf : ∀ book, (∀ entry ∈ book.entries.toList, N entry.references) → Q (f book)) :
    Upholds P N F Q (readBook f) :=
  fun s h => .ok h (hf s.book h.references)

theorem keeps_readBook (f : Book κ → α) : Keeps P N F (readBook f) :=
  upholds_readBook fun _ _ => trivial

theorem keeps_readEngine (f : Engine κ → α) : Keeps P N F (readEngine f) :=
  fun _ h => .ok h trivial

theorem keeps_ofSteadyEngine {f : Engine κ → α × Engine κ} (hf : ∀ e, P e → P (f e).2) :
    Keeps P N F (ofSteadyEngine f) :=
  fun s h => .ok ⟨hf s.engine h.engine, h.references⟩ trivial

theorem keeps_modifyEngine {f : Engine κ → Engine κ} (hf : ∀ e, P e → P (f e)) :
    Keeps P N F (modifyEngine f) := keeps_ofSteadyEngine hf

end

/-! ## Calls -/

variable (h : Engine.Invariant P N F)
include h

/-- After a fault there is a new engine. -/
theorem upholds_ofEngine {Q : α → Prop} {f : Engine κ → Except Fault (α × Engine κ)}
    (hfails : ∀ e, P e → FailsWith F (f e))
    (hf : ∀ e a e', P e → f e = .ok (a, e') → P e' ∧ Q a) : Upholds P N F Q (ofEngine f) := by
  rintro ⟨engine, book⟩ hs
  show Fits P N F Q ((ofEngine f) ⟨engine, book⟩)
  unfold ofEngine
  dsimp only
  split
  · rename_i a engine' hcall
    obtain ⟨hengine, ha⟩ := hf engine a engine' hs.engine hcall
    exact .ok ⟨hengine, hs.references⟩ ha
  · rename_i fault hcall
    refine .error ⟨h.make book.options, hs.references⟩ fun fault' heq => ?_
    exact hfails engine hs.engine fault' (Violation.internal.inj heq ▸ hcall)

theorem keeps_ofEngine {f : Engine κ → Except Fault (α × Engine κ)}
    (hfails : ∀ e, P e → FailsWith F (f e))
    (hf : ∀ e a e', P e → f e = .ok (a, e') → P e') : Keeps P N F (ofEngine f) :=
  upholds_ofEngine h hfails fun e a e' he hrun => ⟨hf e a e' he hrun, trivial⟩

/-! ### Additions and rebuilds -/

theorem keeps_literal (n : Int) : Keeps P N F (literal n) := by
  refine .bind (keeps_ofSteadyEngine fun e he => h.grow he n.natAbs) fun r _ => ?_
  cases r with
  | ok l => exact keeps_pure l
  | error e => exact upholds_throw nofun

theorem keeps_literals (ns : List Int) : Keeps P N F (literals ns) :=
  keeps_mapM (keeps_literal h) ns

theorem keeps_newVariables (n : Nat) : Keeps P N F (newVariables n) := by
  have hgrow : Keeps P N F (do modifyEngine (·.grow n); readEngine (·.numVariables) :
      SessionM κ Nat) :=
    .bind (keeps_modifyEngine fun _ he => h.grow he n) fun _ _ => keeps_readEngine _
  unfold newVariables
  split
  · exact .bind (upholds_throw (Q := fun _ : PUnit => True) nofun) fun _ _ => hgrow
  · exact hgrow

theorem keeps_addConstraint (ds : List (Description κ)) : Keeps P N F (addConstraint ds) := by
  refine .bind (keeps_readBook _) fun handle _ =>
    .bind (upholds_ofEngine h (fun e he => h.fails_add he handle ds)
      fun e result e' he hadd => h.add he hadd) fun result hrs => ?_
  cases result with
  | error refusal => exact keeps_pure _
  | ok references =>
    refine .bind (keeps_modifyBook fun book hbook entry hentry => ?_) fun _ _ => keeps_pure _
    rcases List.mem_append.mp ((Array.toList_push ▸ hentry : entry ∈ book.entries.toList ++ _)) with
      hentry | hentry
    · exact hbook entry hentry
    · rw [List.mem_singleton.mp hentry]
      exact hrs references rfl

/-- The entries of a rebuild name what was added anew. -/
theorem attachEntries_upholds {handle : Nat} {entries : List (BookEntry κ)}
    {result : Bool × List (BookEntry κ)} {e e' : Engine κ} (he : P e)
    (hrun : attachEntries handle entries e = .ok (result, e')) :
    P e' ∧ ∀ entry ∈ result.2, N entry.references := by
  induction entries generalizing handle result e with
  | nil =>
    cases hrun
    exact ⟨he, fun _ hentry => absurd hentry List.not_mem_nil⟩
  | cons entry entries ih =>
    unfold attachEntries at hrun
    split at hrun
    · obtain ⟨⟨⟨refused, rest⟩, e₁⟩, hrest, hret⟩ := ok_of_bind hrun
      cases hret
      obtain ⟨he', hentries⟩ := ih he hrest
      exact ⟨he', List.forall_mem_cons.mpr ⟨h.nil, hentries⟩⟩
    · obtain ⟨⟨added, e₁⟩, hadd, hrun⟩ := ok_of_bind hrun
      obtain ⟨hadded, hreferences⟩ := h.add he hadd
      cases added with
      | ok references =>
        obtain ⟨⟨⟨refused, rest⟩, e₂⟩, hrest, hret⟩ := ok_of_bind hrun
        cases hret
        obtain ⟨he', hentries⟩ := ih hadded hrest
        exact ⟨he', List.forall_mem_cons.mpr ⟨hreferences references rfl, hentries⟩⟩
      | error refusal =>
        cases hrun
        refine ⟨h.modifyControl hadded _, List.forall_mem_cons.mpr ⟨h.nil, fun x hx => ?_⟩⟩
        obtain ⟨y, -, rfl⟩ := List.mem_map.mp hx
        exact h.nil

theorem fails_attachEntries {e : Engine κ} (he : P e) (handle : Nat)
    (entries : List (BookEntry κ)) : FailsWith F (attachEntries handle entries e) := by
  induction entries generalizing handle e with
  | nil => exact .ok _
  | cons entry entries ih =>
    unfold attachEntries
    split
    · exact (ih he _).bind fun _ _ => .ok _
    · refine (h.fails_add he _ _).bind ?_
      rintro ⟨added, e₁⟩ hadd
      obtain ⟨hadded, -⟩ := h.add he hadd
      cases added with
      | ok references => exact (ih hadded _).bind fun _ _ => .ok _
      | error refusal => exact .ok _

theorem keeps_rebuild : Keeps P N F (rebuild : SessionM κ Unit) := by
  refine .bind (keeps_modifyEngine fun e he => h.clear he) fun _ _ =>
    .bind (keeps_readBook _) fun entries _ =>
    .bind (upholds_ofEngine h (fun e he => fails_attachEntries h he 0 entries)
      fun e result e' he hrun => attachEntries_upholds h he hrun) fun result hentries =>
    .bind (keeps_modifyBook fun book _ entry hentry => ?_) fun _ _ => ?_
  · exact hentries entry hentry
  · split
    · exact keeps_modifyEngine fun e he => h.modifyControl he _
    · exact keeps_pure _

/-! ### Removals and restrictions -/

omit [CustomConstraint κ] h in
theorem keeps_markRemoved (handle : Nat) : Keeps P N F (markRemoved handle : SessionM κ Unit) := by
  refine .bind (upholds_readBook (Q := fun entry : Option (BookEntry κ) => ∀ x, entry = some x →
    N x.references) fun book hbook x hx => ?_) fun entry hentry => ?_
  · rw [← Array.getElem?_toList] at hx
    exact hbook x (List.mem_of_getElem? hx)
  · cases entry with
    | none => exact upholds_throw nofun
    | some entry =>
      have hset : Keeps P N F (modifyBook fun book : Book κ => { book with
          entries := book.entries.setIfInBounds handle { entry with removed := true } }) := by
        refine keeps_modifyBook fun book hbook x hx => ?_
        rw [Array.toList_setIfInBounds] at hx
        rcases List.mem_or_eq_of_mem_set hx with hx | rfl
        · exact hbook x hx
        · exact hentry entry rfl
      dsimp only
      split
      · exact .bind (upholds_throw (Q := fun _ : PUnit => True) nofun) fun _ _ => hset
      · exact hset

/-- The book forgets the references of the constraint that it hands to the engine. -/
theorem keeps_removeSubsumed (handle : Nat) : Keeps P N F (removeSubsumed handle) := by
  have hremove : Keeps P N F (do
      let references ← readBook fun book : Book κ =>
        ((book.entries[handle]?).map (·.references)).getD []
      modifyBook fun book => { book with
        entries := book.entries.modify handle fun entry => { entry with references := [] } }
      ofEngine fun e => do return ((), ← e.remove references handle)) := by
    refine .bind (upholds_readBook (Q := N) fun book hbook => ?_) fun references hreferences =>
      .bind (keeps_modifyBook fun book hbook x hx => ?_) fun _ _ =>
        keeps_ofEngine h (fun e he =>
          (h.fails_remove he hreferences handle).bind fun _ _ => .ok _) fun e a e' he hrun => ?_
    · cases hentry : book.entries[handle]? with
      | none => exact h.nil
      | some entry =>
        rw [← Array.getElem?_toList] at hentry
        exact hbook entry (List.mem_of_getElem? hentry)
    · obtain ⟨i, hi, rfl⟩ := Array.mem_iff_getElem.mp (Array.mem_toList_iff.mp hx)
      rw [Array.getElem_modify]
      split
      · exact h.nil
      · exact hbook _ (Array.mem_toList_iff.mpr (Array.getElem_mem _))
    · obtain ⟨e₁, hremove, hret⟩ := ok_of_bind hrun
      cases hret
      exact h.remove he hreferences hremove
  refine .bind (keeps_readBook _) fun size _ => ?_
  dsimp only
  split
  · exact .bind (upholds_throw (Q := fun _ : PUnit => True) nofun) fun _ _ =>
      .bind (keeps_markRemoved handle) fun _ _ => hremove
  · exact .bind (keeps_markRemoved handle) fun _ _ => hremove

theorem keeps_restrictDecisions (vs : Option (List Nat)) : Keeps P N F (restrictDecisions vs) := by
  refine .bind (keeps_ofEngine h (fun e he => (h.fails_backtrack he 0).bind fun _ _ => .ok _) ?_)
    fun _ _ => .bind (keeps_readEngine _) fun restricted _ => ?_
  · intro e a e' he hrestrict
    obtain ⟨e₁, hback, hret⟩ := ok_of_bind hrestrict
    cases hret
    exact h.restrictDecisions (h.backtrack he hback) vs
  · split
    · exact keeps_rebuild h
    · exact keeps_pure _

theorem keeps_decisionVariable (v : Nat) : Keeps P N F (decisionVariable v) := by
  have hliteral : Keeps P N F (do return (← literal v).var : SessionM κ Nat) :=
    .bind (keeps_literal h v) fun _ _ => keeps_pure _
  unfold decisionVariable
  split
  · exact .bind (upholds_throw (Q := fun _ : PUnit => True) nofun) fun _ _ => hliteral
  · exact hliteral

theorem keeps_decideOnly (vs : List Nat) : Keeps P N F (decideOnly vs) :=
  .bind (keeps_mapM (keeps_decisionVariable h) vs) fun _ _ => keeps_restrictDecisions h _

/-! ### Queries -/

theorem keeps_takeModel : Keeps P N F takeModel := by
  refine .bind (keeps_ofSteadyEngine fun e he => h.model he) fun ls _ =>
    .bind (keeps_ofEngine h (fun e he => (h.fails_backtrack he 0).bind fun _ _ => .ok _)
      fun e a e' he hback => ?_) fun _ _ =>
      .bind (keeps_settleBook fun _ => rfl) fun _ _ => keeps_pure _
  obtain ⟨e₁, hback, hret⟩ := ok_of_bind hback
  cases hret
  exact h.backtrack he hback

theorem keeps_answer (outcome : Outcome) : Keeps P N F (answer outcome) := by
  cases outcome with
  | satisfiable => exact .bind (keeps_takeModel h) fun _ _ => keeps_pure _
  | unsatisfiable => exact .bind (keeps_settleBook fun _ => rfl) fun _ _ => keeps_pure _
  | unsatisfiableUnder core => exact .bind (keeps_settleBook fun _ => rfl) fun _ _ => keeps_pure _
  | budgetExceeded => exact .bind (keeps_settleBook fun _ => rfl) fun _ _ => keeps_pure _
  | inconclusive => exact .bind (keeps_rebuild h) fun _ _ => keeps_pure _

theorem keeps_ask {τ : Type} [Termination τ] (assumptions : List Int) (limit : Book κ → τ)
    {settle : τ → Book κ → Book κ} (hsettle : ∀ t book, (settle t book).entries = book.entries) :
    Keeps P N F (ask assumptions limit settle) := by
  refine .bind (keeps_literals h assumptions) fun ls _ =>
    .bind (keeps_settleBook fun _ => rfl) fun _ _ => .bind (keeps_readBook _) fun limit _ =>
    .bind (keeps_ofEngine h (fun e he => (h.fails_solve he ls limit).bind fun _ _ => .ok _)
      fun e a e' he hsolve => ?_) fun x _ =>
    .bind (keeps_settleBook (hsettle x.2)) fun _ _ => keeps_answer h x.1
  obtain ⟨⟨outcome, limit', e₁⟩, hsolve, hret⟩ := ok_of_bind hsolve
  cases hret
  exact h.solve he hsolve

theorem keeps_computeImplicant : Keeps P N F computeImplicant := by
  refine .bind keeps_get fun s _ => .bind (keeps_liftM fun fault hmodel => ?_) fun model _ => ?_
  · unfold Session.model at hmodel
    split at hmodel <;> cases hmodel
  · split
    · rename_i fault hfault
      exact upholds_throw fun fault' heq =>
        h.fails_implicant _ _ _ fault' (Violation.internal.inj heq ▸ hfault)
    · exact .bind (keeps_modifyEngine fun e he => h.modifyControl he _) fun _ _ =>
        .bind (keeps_settleBook fun _ => rfl) fun _ _ => keeps_pure _

end Session

/-- What every operation of an engine keeps, every call keeps. -/
theorem Call.upholds {P : Engine κ → Prop} {N : List Reference → Prop} {F : Fault → Prop}
    (h : Engine.Invariant P N F) (c : Call) : Session.Keeps P N F c.run := by
  cases c with
  | newVariables n => exact (Session.keeps_newVariables h n).discard
  | add a =>
    have hadded : Session.Keeps P N F (a.run : SessionM κ (Except Refusal Nat)) := by
      rw [Addition.run_eq]
      exact (Session.keeps_literals h _).bind fun ls _ => Session.keeps_addConstraint h _
    exact hadded.discard
  | query assumptions shared =>
    have hasked : Session.Keeps P N F (Session.query assumptions shared) := by
      rw [Session.query_eq_ask]
      exact Session.keeps_ask h assumptions _ fun _ _ => rfl
    exact hasked.discard
  | interrupted assumptions polls budget =>
    have hasked : Session.Keeps P N F (Session.queryInterrupted assumptions polls budget) :=
      Session.keeps_ask h assumptions _ fun _ _ => rfl
    exact hasked.discard
  | remove handle =>
    exact (Session.keeps_markRemoved handle).bind fun _ _ => Session.keeps_rebuild h
  | removeSubsumed handle => exact Session.keeps_removeSubsumed h handle
  | decideOnly vs => exact Session.keeps_decideOnly h vs
  | decideAll => exact Session.keeps_restrictDecisions h none
  | computeImplicant => exact (Session.keeps_computeImplicant h).discard
  | takeEvents =>
    rintro ⟨⟨search, analyser, control⟩, book⟩ hs
    exact .ok ⟨h.modifyControl hs.engine fun c => { c with events := [] }, hs.references⟩ trivial
  | requestStop => exact fun s hs => .ok ⟨hs.engine, hs.references⟩ trivial
  | reset =>
    exact fun s _ =>
      .ok ⟨h.make s.book.options, fun _ hentry => absurd hentry List.not_mem_nil⟩ trivial

/-! ## Sessions -/

namespace Session

/-- The sessions that any calls make of a new one, whatever the calls end with. -/
inductive Arises : Session κ → Prop
  | make (o : Options) : Arises (make o)
  | call {s : Session κ} (h : Arises s) (c : Call) : Arises (c.run.run s).2
  | addCustom {s : Session κ} (h : Arises s) (k : κ) : Arises ((addCustom k).run s).2

theorem Arises.upheld {s : Session κ} (hs : s.Arises) {P : Engine κ → Prop}
    {N : List Reference → Prop} {F : Fault → Prop} (h : Engine.Invariant P N F) :
    s.Upheld P N := by
  induction hs with
  | make o => exact ⟨h.make o, fun _ hentry => absurd hentry List.not_mem_nil⟩
  | call _ c ih => exact (c.upholds h _ ih).after
  | addCustom _ k ih => exact (keeps_addConstraint h [.custom k] _ ih).after

end Session

end ClauseLearning
