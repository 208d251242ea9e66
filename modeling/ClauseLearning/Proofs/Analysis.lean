import ClauseLearning.Proofs.Shrinking

/-!
# The clause that an analysis learns

It follows from the constraints and the root facts. Its first literal is the only one of the current
level, so that it can be forced once the levels above the others are taken back
(`LearnedClause.Asserts`), and the analysis leaves its tables as it found them (`Analyser.Clean`).

* `LearnedClause.ofLiterals_spec`: the level to go back to.
* `Analyser.analyse_eq`: a clause is derived and then shrunk; `Analyser.derive_spec`: what is
  derived.
* `Analyser.analyse_spec`: what an analysis learns; `Analyser.analyse_total`: it learns something.
-/

namespace ClauseLearning

variable {κ : Type}

/-! ## The level to go back to -/

/-- The largest number of a list stands where it is said to. -/
theorem getElem?_lastMaximum {ns : List Nat} (h : ns ≠ []) :
    ns[(lastMaximum ns).1]? = some (lastMaximum ns).2 := by
  fun_induction lastMaximum ns with
  | case1 => exact absurd rfl h
  | case2 n => rfl
  | case3 n m ns i largest hlast hle ih =>
    have hget := ih (List.cons_ne_nil _ _)
    rw [hlast] at hget
    exact hget
  | case4 n m ns i largest hlast hle ih => rfl

theorem exchangeFirst_perm (i : Nat) (ls : List Literal) : (exchangeFirst i ls).Perm ls := by
  unfold exchangeFirst Array.swapIfInBounds
  split
  · split
    · exact (Array.swap_perm _ _).toList
    · exact .refl _
  · exact .refl _

theorem head?_exchangeFirst {i : Nat} {ls : List Literal} (hi : i < ls.length) :
    (exchangeFirst i ls).head? = ls[i]? := by
  have hzero : 0 < ls.toArray.size := by
    rw [List.size_toArray]
    omega
  have hi' : i < ls.toArray.size := by rwa [List.size_toArray]
  unfold exchangeFirst Array.swapIfInBounds
  rw [dif_pos hzero, dif_pos hi', List.head?_eq_getElem?, Array.getElem?_toList,
    Array.getElem?_swap]
  split
  · rename_i hi
    subst hi
    simp
  · simp

namespace LearnedClause

/-- The first literal stays first, and the others are of the level to go back to or below; the next
one is of that level. -/
theorem ofLiterals_spec (a : Assignment) (l : Literal) (rest : List Literal) :
    ∃ ms, (ofLiterals a (l :: rest)).literals = l :: ms ∧ ms.Perm rest ∧
      (∀ m ∈ rest, a.levelOf m.var ≤ (ofLiterals a (l :: rest)).backjumpLevel) ∧
      (∀ m, ms.head? = some m → a.levelOf m.var = (ofLiterals a (l :: rest)).backjumpLevel) ∧
      (rest = [] → (ofLiterals a (l :: rest)).backjumpLevel = 0) := by
  cases rest with
  | nil =>
    exact ⟨[], rfl, .refl _, fun m hm => (by cases hm), fun m hm => (by cases hm), fun _ => rfl⟩
  | cons k ks =>
    have hne : (k :: ks).map (fun m => a.levelOf m.var) ≠ [] := List.cons_ne_nil _ _
    have hget := getElem?_lastMaximum hne
    rcases hlast : lastMaximum ((k :: ks).map fun m => a.levelOf m.var) with ⟨i, level⟩
    have heq : ofLiterals a (l :: k :: ks) = ⟨l :: exchangeFirst i (k :: ks), level⟩ := by
      simp only [ofLiterals, hlast]
    rw [heq]
    refine ⟨exchangeFirst i (k :: ks), rfl, exchangeFirst_perm _ _, fun m hm => ?_,
      fun m hm => ?_, fun hnil => (by cases hnil)⟩
    · have hle : a.levelOf m.var ≤ (lastMaximum ((k :: ks).map fun m => a.levelOf m.var)).2 :=
        lastMaximum_le (List.mem_map.mpr ⟨m, hm, rfl⟩)
      rwa [hlast] at hle
    · rw [hlast, List.getElem?_map, Option.map_eq_some_iff] at hget
      obtain ⟨n, hn, hlevel⟩ := hget
      rw [head?_exchangeFirst (List.getElem?_eq_some_iff.mp hn).1, hn] at hm
      cases hm
      exact hlevel

/-- The clause has one literal of the current level, the negation of `last`; the others are false
above the root, at the level to go back to or below, and the first of them is of that level. -/
structure Asserts (k : LearnedClause) (a : Assignment) (last : Literal) (rest : List Literal) :
    Prop where
  literals : k.literals = -last :: rest
  mem : last ∈ a.trues
  level : a.levelOf last.var = a.decisionLevel
  others : ∀ m ∈ rest, -m ∈ a.trues ∧ a.levelOf m.var ≤ k.backjumpLevel
  above : ∀ m ∈ rest, a.levelOf m.var ≠ 0
  attained : ∀ m, rest.head? = some m → a.levelOf m.var = k.backjumpLevel
  unit : rest = [] → k.backjumpLevel = 0
  lower : k.backjumpLevel < a.decisionLevel
  nodup : (rest.map Literal.var).Nodup

namespace Asserts

variable {k : LearnedClause} {a : Assignment} {last : Literal} {rest : List Literal}

theorem falsified (h : k.Asserts a last rest) : ∀ l ∈ -last :: rest, -l ∈ a.trues := by
  intro l hl
  rcases List.mem_cons.mp hl with rfl | hl
  · rw [Literal.negate_negate]
    exact h.mem
  · exact (h.others l hl).1

theorem levelOf_lt (h : k.Asserts a last rest) {l : Literal} (hl : l ∈ rest) :
    a.levelOf l.var < a.decisionLevel :=
  Nat.lt_of_le_of_lt (h.others l hl).2 h.lower

/-- The first literal is of another level than the others, so of another variable. -/
theorem nodup_var (h : k.Asserts a last rest) : ((-last :: rest).map Literal.var).Nodup := by
  rw [List.map_cons, List.nodup_cons, Literal.var_negate]
  refine ⟨fun hmem => ?_, h.nodup⟩
  obtain ⟨m, hm, hv⟩ := List.mem_map.mp hmem
  have hlow := h.levelOf_lt hm
  rw [hv, h.level] at hlow
  exact Nat.lt_irrefl _ hlow

end Asserts

end LearnedClause

/-! ## Tables -/

/-- No mark is on and no label is left. -/
structure Analyser.Clean (n : Nat) (an : Analyser) : Prop where
  size : an.seen.size = n
  off : ∀ v : Nat, an.seen[v]?.getD false = false
  minimiser : an.minimiser = .empty

theorem Analyser.clean_make (minimisation : Minimisation) : (make minimisation).Clean 0 :=
  ⟨rfl, fun v => by simp [make], rfl⟩

theorem Analyser.Clean.grow {n k : Nat} {an : Analyser} (h : an.Clean n) :
    (an.grow k).Clean (n + (k + 1 - n)) := by
  obtain ⟨minimisation, seen, minimiser⟩ := an
  have hsize : seen.size = n := h.size
  refine ⟨by simp [Analyser.grow, hsize], fun v => ?_, h.minimiser⟩
  show (seen ++ Array.replicate (k + 1 - seen.size) false)[v]?.getD false = false
  rw [getD_append_replicate]
  exact h.off v

theorem Analyser.unmark_spec {n : Nat} {an : Analyser} {vs : List Nat} (hsize : an.seen.size = n)
    (hmarked : ∀ v : Nat, an.seen[v]?.getD false = true → v ∈ vs) (hm : an.minimiser = .empty) :
    (an.unmark vs).Clean n := by
  obtain ⟨minimisation, seen, minimiser⟩ := an
  have hall : ∀ (vs : List Nat) (seen : Array Bool), seen.size = n →
      (∀ v : Nat, seen[v]?.getD false = true → v ∈ vs) →
      (vs.foldl (fun seen v => seen.setIfInBounds v false) seen).size = n ∧
        ∀ v : Nat, (vs.foldl (fun seen v => seen.setIfInBounds v false) seen)[v]?.getD false =
          false := by
    intro vs
    induction vs with
    | nil =>
      intro seen hsize hmarked
      refine ⟨hsize, fun v => ?_⟩
      by_contra hv
      exact List.not_mem_nil (hmarked v (by simpa using hv))
    | cons w vs ih =>
      intro seen hsize hmarked
      refine ih (seen.setIfInBounds w false) (by simpa using hsize) fun v hv => ?_
      by_cases hw : w = v
      · subst hw
        by_cases hlt : w < seen.size
        · simp [hlt] at hv
        · rw [Array.getElem?_eq_none (by simpa using hlt)] at hv
          cases hv
      · rw [Array.getElem?_setIfInBounds_ne hw] at hv
        rcases List.mem_cons.mp (hmarked v hv) with rfl | hmem
        · exact absurd rfl hw
        · exact hmem
  obtain ⟨hs, hoff⟩ := hall vs seen hsize hmarked
  exact ⟨hs, hoff, hm⟩

/-- An analysis starts with no mark on. -/
theorem Analyser.Clean.marks {a : Assignment} {an : Analyser} (h : an.Clean a.cells.size)
    (order : DecisionOrder Generator) (s : Arena κ) :
    (⟨an.seen, [], #[], 0, order, s, false⟩ : Resolution κ).Marks a a.trues.length := by
  have hoff : ∀ v : Nat, an.seen[v]?.getD false = false := h.off
  refine ⟨h.size, fun v => ?_, fun v hv => ?_, fun m => ?_, List.nodup_nil, ?_⟩
  · simp [Resolution.isSeen, hoff v]
  · have hv' : an.seen[v]?.getD false = true := hv
    rw [hoff v] at hv'
    cases hv'
  · simp [Resolution.isSeen, hoff m.var]
  · simp [Resolution.isSeen, hoff]

/-- Scaling activities down changes nothing else. -/
theorem LearnedDatabase.rescale_spec {d d' : LearnedDatabase} {s s' : Arena κ}
    (hrun : d.rescale s = .ok (d', s')) : d'.references = d.references ∧ s.Retagged s' := by
  unfold rescale at hrun
  obtain ⟨s₁, hfold, hrun⟩ := ok_of_bind hrun
  cases hrun
  refine ⟨rfl, ?_⟩
  generalize d.references.toList = rs at hfold
  generalize 1.0 / d.options.maxActivity = factor at hfold
  clear hrun
  induction rs generalizing s with
  | nil =>
    cases hfold
    exact .refl _
  | cons r rs ih =>
    rw [List.foldlM_cons] at hfold
    obtain ⟨s₂, hstep, hfold⟩ := ok_of_bind hfold
    obtain ⟨c, hc, hstep⟩ := ok_of_bind hstep
    cases hstep
    rw [Arena.get_eq_ok] at hc
    refine Arena.Retagged.trans ?_ (ih hfold)
    exact .set hc ⟨rfl, rfl, rfl, rfl⟩

theorem LearnedDatabase.rescale_total {d : LearnedDatabase} {s : Arena κ} (h : d.Lists s) :
    ∃ x, d.rescale s = .ok x := by
  have hall : ∀ (factor : Float) (rs : List Reference) (s : Arena κ),
      (∀ r ∈ rs, ∃ c, s.get? r = some c) →
      ∃ s', rs.foldlM (fun s r => do
        let c ← s.get r
        return s.set r (c.modifyMetadata fun m => { m with activity := m.activity * factor })) s =
          (.ok s' : Except Fault (Arena κ)) := by
    intro factor rs
    induction rs with
    | nil => exact fun s _ => ⟨s, rfl⟩
    | cons r rs ih =>
      intro s halive
      obtain ⟨c, hc⟩ := halive r List.mem_cons_self
      rw [List.foldlM_cons]
      refine exists_ok_bind (exists_ok_bind ⟨c, Arena.get_eq_ok.mpr hc⟩ fun c' _ => ⟨_, rfl⟩)
        fun s' hstep => ih s' fun q hq => ?_
      obtain ⟨c', hc', hstep⟩ := ok_of_bind hstep
      cases hstep
      obtain ⟨c₀, hc₀⟩ := halive q (List.mem_cons_of_mem _ hq)
      have htag := Arena.Retagged.set (m := { c'.metadata with
        activity := c'.metadata.activity * factor }) (Arena.get_eq_ok.mp hc') ⟨rfl, rfl, rfl, rfl⟩
      obtain ⟨m, hm, -⟩ := htag.alive hc₀
      exact ⟨_, hm⟩
  unfold rescale
  exact exists_ok_bind (hall _ _ s fun r hr => (h.learned r hr).imp fun _ hc => hc.1)
    fun s' _ => ⟨_, rfl⟩

/-! ## What is derived from a conflict -/

/-- What an analysis has before its clause is shrunk. -/
structure Derivation (κ : Type) where
  /-- The last literal of the current level. -/
  last : Literal
  /-- The literals from lower levels. -/
  lower : List Literal
  seen : Array Bool
  marked : List Nat
  order : DecisionOrder Generator
  learned : LearnedDatabase
  arena : Arena κ

namespace Derivation

/-- The clause before it is shrunk. -/
def literals (d : Derivation κ) : List Literal := -d.last :: d.lower

/-- The lesson if so much of the clause is left. -/
def lesson (a : Assignment) (d : Derivation κ) (ls : List Literal) (an : Analyser) : Lesson κ :=
  ⟨.ofLiterals a ls, d.literals.length - ls.length, an.unmark d.marked, d.order, d.learned, d.arena⟩

/-- The last literal is the only one of the current level, the others are the marked ones below it,
and the clause follows from the constraints. -/
structure Follows (d : Derivation κ) (s : Arena κ) (a : Assignment)
    (order : DecisionOrder Generator) (learned : LearnedDatabase) : Prop where
  root : a.decisionLevel ≠ 0
  order : order.SameKeys d.order
  references : d.learned.references = learned.references
  retagged : s.Retagged d.arena
  mem : d.last ∈ a.trues
  level : a.levelOf d.last.var = a.decisionLevel
  lower : ∀ m, m ∈ d.lower ↔ -m ∈ a.trues ∧ d.seen[m.var]?.getD false = true ∧
    a.levelOf m.var ≠ a.decisionLevel
  above : ∀ v : Nat, d.seen[v]?.getD false = true → a.levelOf v ≠ 0
  nodup : (d.lower.map Literal.var).Nodup
  size : d.seen.size = a.cells.size
  marked : ∀ v : Nat, d.seen[v]?.getD false = true → v ∈ d.marked
  implied : ∀ ν, s.Model a ν → ∃ m ∈ d.literals, m.holds ν = true

theorem Follows.falsified {d : Derivation κ} {s : Arena κ} {a : Assignment}
    {order : DecisionOrder Generator}
    {learned : LearnedDatabase} (h : d.Follows s a order learned) :
    ∀ l ∈ d.literals, -l ∈ a.trues := by
  intro l hl
  rcases List.mem_cons.mp hl with rfl | hl
  · rw [Literal.negate_negate]
    exact h.mem
  · exact ((h.lower l).mp hl).1

theorem Follows.levelOf_ne_zero {d : Derivation κ} {s : Arena κ} {a : Assignment}
    {order : DecisionOrder Generator} {learned : LearnedDatabase}
    (h : d.Follows s a order learned) : ∀ l ∈ d.literals, a.levelOf l.var ≠ 0 := by
  intro l hl
  rcases List.mem_cons.mp hl with rfl | hl
  · rw [Literal.var_negate, h.level]
    exact h.root
  · exact h.above _ ((h.lower l).mp hl).2.1

/-- However much of a derived clause is left, it asserts its first literal. -/
theorem Follows.asserting {d : Derivation κ} {s : Arena κ} {a : Assignment}
    {order : DecisionOrder Generator}
    {learned : LearnedDatabase} (h : d.Follows s a order learned) (hcon : a.Consistent)
    {ls : List Literal} (hsub : ls.Sublist d.literals) (hhead : ls.head? = d.literals.head?) :
    ∃ last rest, (LearnedClause.ofLiterals a ls).Asserts a last rest := by
  cases ls with
  | nil => cases hhead
  | cons l rest =>
    cases hhead
    have hsub' : rest.Sublist d.lower := hsub.tail
    obtain ⟨ms, hlits, hperm, hle, hattained, hunit⟩ :=
      LearnedClause.ofLiterals_spec a (-d.last) rest
    have hms : ∀ m ∈ ms, -m ∈ a.trues ∧ d.seen[m.var]?.getD false = true ∧
        a.levelOf m.var ≠ a.decisionLevel := fun m hm =>
      (h.lower m).mp (hsub'.subset (hperm.mem_iff.mp hm))
    refine ⟨d.last, ms, hlits, h.mem, h.level,
      fun m hm => ⟨(hms m hm).1, hle m (hperm.mem_iff.mp hm)⟩,
      fun m hm => h.above m.var (hms m hm).2.1, hattained, fun hnil => ?_, ?_, ?_⟩
    · rw [hnil] at hperm
      exact hunit hperm.nil_eq.symm
    · cases ms with
      | nil =>
        rw [hunit hperm.nil_eq.symm]
        exact Nat.pos_of_ne_zero h.root
      | cons m ms =>
        rw [← hattained m rfl]
        obtain ⟨hf, -, hne⟩ := hms m List.mem_cons_self
        obtain ⟨i, hi⟩ := List.mem_iff_getElem?.mp hf
        have hlv := hcon.levelOf_eq hi
        have htop := a.levelAt_le i
        rw [Literal.var_negate] at hlv
        omega
    · exact ((hperm.map Literal.var).nodup_iff).mpr (h.nodup.sublist (hsub'.map Literal.var))

end Derivation

/-! ## Analyses -/

namespace Analyser

variable [CustomConstraint κ] {s : Arena κ} {a : Assignment}

/-- Minimisation keeps the first literal and what the others go back to, and leaves the marks
alone. -/
theorem minimise_spec (hj : s.Justifies a) {first : Literal} {lower kept : List Literal}
    {an an' : Analyser} (hempty : an.minimiser = .empty) (hfirst : -first ∈ a.trues)
    (hlevel : a.levelOf first.var = a.decisionLevel)
    (hlower : ∀ m, m ∈ lower ↔ -m ∈ a.trues ∧ an.seen[m.var]?.getD false = true ∧
      a.levelOf m.var ≠ a.decisionLevel)
    (hrun : minimise s a (first :: lower) an = .ok (kept, an')) :
    (kept.Sublist (first :: lower) ∧ kept.head? = some first ∧
      ∀ l ∈ first :: lower, s.Rests a kept l.var) ∧ an'.seen = an.seen ∧
      an'.minimiser = .empty := by
  obtain ⟨minimisation, seen, minimiser⟩ := an
  have hempty : minimiser = .empty := hempty
  subst hempty
  cases minimisation with
  | none =>
    cases hrun
    exact ⟨⟨.refl _, rfl, fun _ hl => .kept hl⟩, rfl, rfl⟩
  | simple =>
    obtain ⟨ls, hremove, hrun⟩ := ok_of_bind hrun
    cases hrun
    refine ⟨removeSeen_spec hj (fun m hm => ?_) (fun m hm hs hne => ?_) hremove, rfl, rfl⟩
    · obtain ⟨hf, -, hne⟩ := (hlower m).mp hm
      exact ⟨hf, hne⟩
    · exact (hlower m).mpr ⟨hm, hs, hne⟩
  | expensive =>
    obtain ⟨⟨ls, m₁⟩, hremove, hrun⟩ := ok_of_bind hrun
    cases hrun
    have hfalse : ∀ l ∈ first :: lower, -l ∈ a.trues := by
      intro l hl
      rcases List.mem_cons.mp hl with rfl | hl
      · exact hfirst
      · exact ((hlower l).mp hl).1
    obtain ⟨hrests, rfl⟩ := Minimiser.removeImplied_spec hj hfalse hlevel hremove
    exact ⟨hrests, rfl, rfl⟩

theorem minimise_total (hj : s.Justifies a) (ls : List Literal) (an : Analyser) :
    ∃ x, minimise s a ls an = .ok x := by
  obtain ⟨minimisation, seen, minimiser⟩ := an
  cases minimisation with
  | none => exact ⟨_, rfl⟩
  | simple => exact exists_ok_bind (removeSeen_total hj _ ls) fun _ _ => ⟨_, rfl⟩
  | expensive => exact exists_ok_bind (Minimiser.removeImplied_total hj ls _) fun _ _ => ⟨_, rfl⟩

/-- Minimisation of a derived clause. -/
theorem minimise_derived {d : Derivation κ} {s : Arena κ} {order : DecisionOrder Generator}
    {learned : LearnedDatabase} (hd : d.Follows s a order learned) (hj : d.arena.Justifies a)
    {minimisation : Minimisation} {kept : List Literal} {an : Analyser}
    (hrun : minimise d.arena a d.literals ⟨minimisation, d.seen, .empty⟩ = .ok (kept, an)) :
    (kept.Sublist d.literals ∧ kept.head? = some (-d.last) ∧
      ∀ l ∈ d.literals, d.arena.Rests a kept l.var) ∧ an.seen = d.seen ∧ an.minimiser = .empty := by
  have hlast : a.levelOf (-d.last).var = a.decisionLevel := by
    rw [Literal.var_negate, hd.level]
  exact minimise_spec hj rfl (hd.falsified _ List.mem_cons_self) hlast hd.lower hrun

/-- The part of an analysis that comes before shrinking. -/
def derive (conflict : Reference) (a : Assignment) (seen : Array Bool)
    (order : DecisionOrder Generator)
    (learned : LearnedDatabase) (arena : Arena κ) : Except Fault (Derivation κ) := do
  if a.decisionLevel = 0 then throw .analysisAtRoot
  let start ← Resolution.resolve learned a conflict none ⟨seen, [], #[], 0, order, arena, false⟩
  match ← Resolution.descend learned a a.trail.size start with
  | (last, ⟨seen, marked, lower, _, order, arena, needsRescale⟩) =>
    let (learned, arena) ←
      if needsRescale then learned.rescale arena else pure (learned, arena)
    return ⟨last, lower.toList, seen, marked, order, learned, arena⟩

/-- An analysis derives a clause and shrinks it. -/
theorem analyse_eq (r : Reference) (a : Assignment) (an : Analyser)
    (order : DecisionOrder Generator) (learned : LearnedDatabase) (s : Arena κ) :
    an.analyse r a order learned s = (do
      let d ← derive r a an.seen order learned s
      let (ls, an) ← minimise d.arena a d.literals ⟨an.minimisation, d.seen, an.minimiser⟩
      return d.lesson a ls an) := by
  obtain ⟨minimisation, seen, minimiser⟩ := an
  simp only [analyse, derive]
  by_cases hroot : a.decisionLevel = 0
  · simp only [if_pos hroot]
    rfl
  · simp only [if_neg hroot]
    cases Resolution.resolve learned a r none ⟨seen, [], #[], 0, order, s, false⟩ with
    | error e => rfl
    | ok start =>
      show (Resolution.descend learned a a.trail.size start >>= _) =
        (Resolution.descend learned a a.trail.size start >>= _) >>= _
      rcases Resolution.descend learned a a.trail.size start with
        e | ⟨last, ⟨seen, marked, lower, numOpen, order, arena, needsRescale⟩⟩
      · rfl
      · cases needsRescale with
        | false => rfl
        | true =>
          show (learned.rescale arena >>= _) = (learned.rescale arena >>= _) >>= _
          cases learned.rescale arena <;> rfl

/-- Above the root something is derived from every violated constraint with a literal of the current
level. -/
theorem derive_total (hj : s.Justifies a) (hd : a.Driven) {r : Reference} {c : Constraint κ}
    (hc : s.get? r = some c) (hv : c.kind.Violated a.trues) {an : Analyser}
    (hclean : an.Clean a.cells.size) (order : DecisionOrder Generator) {learned : LearnedDatabase}
    (hlists : learned.Lists s) (habove : a.decisionLevel ≠ 0)
    (hcurrent : ∃ m ∈ c.reason a none, a.levelOf m.var = a.decisionLevel) :
    ∃ d, derive r a an.seen order learned s = .ok d := by
  have hcon := hj.consistent
  have hstart := hclean.marks order s
  have hbefore : ∀ m ∈ c.reason a none, -m ∈ a.trues.take a.trues.length := fun m hm => by
    rw [List.take_length]
    exact (Constraint.reason_of_violated hcon hv).1 m hm
  simp only [derive, if_neg habove]
  refine exists_ok_bind (Resolution.resolve_total hstart hcon hc hbefore
    (Or.inr ⟨habove, hcurrent⟩)) fun start hresolve => ?_
  obtain ⟨hmarks, hgrows, hopen, -⟩ := Resolution.resolve_spec hstart hcon hc hbefore hresolve
  have hj₁ := hj.retagged hgrows.arena
  rw [Assignment.size_trail]
  obtain ⟨last, found, hdescend⟩ := Resolution.descend_total (d := learned) hd _ hmarks hopen hj₁
  refine exists_ok_bind ⟨_, hdescend⟩ fun found' hfound => ?_
  rw [hdescend] at hfound
  cases hfound
  obtain ⟨-, -, -, hgrows', -⟩ := Resolution.descend_spec _ hmarks hopen hj₁ hdescend
  have hall : s.Retagged found.arena := hgrows.arena.trans hgrows'.arena
  obtain ⟨seen, marked, lower, numOpen, order', arena, needsRescale⟩ := found
  cases needsRescale with
  | false => exact ⟨_, rfl⟩
  | true =>
    exact exists_ok_bind (LearnedDatabase.rescale_total (hlists.agree rfl hall.agree)) fun _ _ =>
      ⟨_, rfl⟩

/-- What is derived from a constraint that the trail violates. -/
theorem derive_spec (hj : s.Justifies a) {r : Reference} {c : Constraint κ}
    (hc : s.get? r = some c) (hv : c.kind.Violated a.trues) {an : Analyser}
    (hclean : an.Clean a.cells.size) {order : DecisionOrder Generator} (hvalid : order.heap.Valid)
    {learned : LearnedDatabase} {d : Derivation κ}
    (hrun : derive r a an.seen order learned s = .ok d) : d.Follows s a order learned := by
  have hcon := hj.consistent
  simp only [derive] at hrun
  split at hrun
  · cases hrun
  rename_i hroot
  obtain ⟨start, hresolve, hrun⟩ := ok_of_bind hrun
  obtain ⟨⟨last, ⟨seen, marked, lower, numOpen, order', arena, needsRescale⟩⟩, hdescend, hrun⟩ :=
    ok_of_bind hrun
  obtain ⟨learned', arena', hrefs, hretagged', rfl⟩ : ∃ learned' arena',
      learned'.references = learned.references ∧ arena.Retagged arena' ∧
      d = ⟨last, lower.toList, seen, marked, order', learned', arena'⟩ := by
    cases needsRescale with
    | false =>
      cases hrun
      exact ⟨learned, arena, rfl, .refl _, rfl⟩
    | true =>
      obtain ⟨⟨learned', arena'⟩, hscale, hrun⟩ := ok_of_bind hrun
      cases hrun
      obtain ⟨hrefs, hretagged⟩ := LearnedDatabase.rescale_spec hscale
      exact ⟨learned', arena', hrefs, hretagged, rfl⟩
  obtain ⟨hfalse, himplied⟩ := Constraint.reason_of_violated hcon hv
  have hbefore : ∀ m ∈ c.reason a none, -m ∈ a.trues.take a.trues.length := fun m hm => by
    rw [List.take_length]
    exact hfalse m hm
  obtain ⟨hmarks, hgrows, hopen, hrefutes⟩ :=
    Resolution.resolve_spec (hclean.marks order s) hcon hc hbefore hresolve
  rw [Assignment.size_trail] at hdescend
  obtain ⟨hlast, hlevel, ⟨j, hmarks'⟩, hgrows', hclause⟩ :=
    Resolution.descend_spec _ hmarks hopen (hj.retagged hgrows.arena) hdescend
  refine ⟨hroot, (hgrows.order hvalid).trans (hgrows'.order (hgrows.order hvalid).valid), hrefs,
    (hgrows.arena.trans hgrows'.arena).trans hretagged', hlast, hlevel, hmarks'.lower,
    fun v hs => (hmarks'.above v hs).2, hmarks'.nodup, hmarks'.size,
    fun v hs => (hmarks'.marked v).mp hs, fun ν hν => ?_⟩
  exact hclause ν (hν.retagged hgrows.arena) (hrefutes ν hν.facts (himplied ν (hν.holds hc)))

/-- Above the root something is learned from every violated constraint with a literal of the current
level. -/
theorem analyse_total (hj : s.Justifies a) (hd : a.Driven) {r : Reference} {c : Constraint κ}
    (hc : s.get? r = some c) (hv : c.kind.Violated a.trues) {an : Analyser}
    (hclean : an.Clean a.cells.size) {order : DecisionOrder Generator} (hvalid : order.heap.Valid)
    {learned : LearnedDatabase} (hlists : learned.Lists s) (habove : a.decisionLevel ≠ 0)
    (hcurrent : ∃ m ∈ c.reason a none, a.levelOf m.var = a.decisionLevel) :
    ∃ lesson, an.analyse r a order learned s = .ok lesson := by
  rw [analyse_eq]
  refine exists_ok_bind (derive_total hj hd hc hv hclean order hlists habove hcurrent)
    fun d hd => ?_
  have hfollows := derive_spec hj hc hv hclean hvalid hd
  exact exists_ok_bind (minimise_total (hj.retagged hfollows.retagged) _ _) fun _ _ => ⟨_, rfl⟩

/-- What is learned from a constraint that the trail violates. -/
theorem analyse_spec (hj : s.Justifies a) {r : Reference} {c : Constraint κ}
    (hc : s.get? r = some c) (hv : c.kind.Violated a.trues) {an : Analyser}
    (hclean : an.Clean a.cells.size) {order : DecisionOrder Generator} (hvalid : order.heap.Valid)
    {learned : LearnedDatabase} {lesson : Lesson κ}
    (hrun : an.analyse r a order learned s = .ok lesson) :
    lesson.analyser.Clean a.cells.size ∧ order.SameKeys lesson.order ∧
      lesson.learned.references = learned.references ∧ s.Retagged lesson.arena ∧
      (∃ last rest, lesson.clause.Asserts a last rest) ∧
      ∀ ν, s.Model a ν → ∃ m ∈ lesson.clause.literals, m.holds ν = true := by
  rw [analyse_eq] at hrun
  obtain ⟨d, hderive, hrun⟩ := ok_of_bind hrun
  obtain ⟨⟨ls, an'⟩, hmin, hrun⟩ := ok_of_bind hrun
  cases hrun
  have hfollows := derive_spec hj hc hv hclean hvalid hderive
  have hj' := hj.retagged hfollows.retagged
  rw [hclean.minimiser] at hmin
  obtain ⟨⟨hsub, hhead, hrests⟩, hseen, hempty⟩ := minimise_derived hfollows hj' hmin
  refine ⟨unmark_spec (by rw [hseen]; exact hfollows.size) (fun v hv => ?_) hempty,
    hfollows.order, hfollows.references, hfollows.retagged,
    hfollows.asserting hj.consistent hsub hhead, fun ν hν => ?_⟩
  · rw [hseen] at hv
    exact hfollows.marked v hv
  · obtain ⟨m, hm, hmν⟩ := exists_holds_of_rests hj' hfollows.falsified hsub hrests
      (hν.retagged hfollows.retagged) (hfollows.implied ν hν)
    cases ls with
    | nil => cases hm
    | cons l rest =>
      obtain ⟨ms, hlits, hperm, -⟩ := LearnedClause.ofLiterals_spec a l rest
      refine ⟨m, ?_, hmν⟩
      show m ∈ (LearnedClause.ofLiterals a (l :: rest)).literals
      rw [hlits]
      exact (hperm.cons l).mem_iff.mpr hm

end Analyser

end ClauseLearning
