import ClauseLearning.Formula.Basic
import ClauseLearning.Proofs.Answers
import ClauseLearning.Proofs.Refusals
import ClauseLearning.Proofs.Implicants

/-!
# Formulas

A formula evaluates a list of numbers itself, and a session gives its constraints a meaning of its
own. Both agree: a total assignment satisfies the formula if and only if its valuation satisfies the
session to which the formula was added.

* `Formula.isSatisfiedBy_eq`: evaluation and meaning.
* `Formula.addTo_spec`: what adding a formula to a new session does.
-/

namespace ClauseLearning

/-! ## Lists of checks -/

section

variable {ε α : Type} {p : α → Except ε Bool} {q : α → Bool} {xs : List α}

theorem anyM_eq_ok (h : ∀ x ∈ xs, p x = .ok (q x)) : xs.anyM p = .ok (xs.any q) := by
  induction xs with
  | nil => rfl
  | cons x xs ih =>
    simp only [List.anyM, h x List.mem_cons_self, List.any_cons, bind, Except.bind]
    cases q x with
    | true => rfl
    | false => exact ih fun y hy => h y (List.mem_cons_of_mem x hy)

theorem allM_iff {P : α → Prop} (h : ∀ x ∈ xs, ∃ b, p x = .ok b ∧ (b = true ↔ P x)) :
    ∃ b, xs.allM p = .ok b ∧ (b = true ↔ ∀ x ∈ xs, P x) := by
  induction xs with
  | nil => exact ⟨true, rfl, by simp⟩
  | cons x xs ih =>
    obtain ⟨b, hb, hiff⟩ := h x List.mem_cons_self
    obtain ⟨b', hb', hiff'⟩ := ih fun y hy => h y (List.mem_cons_of_mem x hy)
    simp only [List.allM, hb, bind, Except.bind, List.forall_mem_cons, ← hiff]
    cases b with
    | true => exact ⟨b', hb', by simp [hiff']⟩
    | false => exact ⟨false, rfl, by simp⟩

theorem filterM_eq_ok (h : ∀ x ∈ xs, p x = .ok (q x)) : xs.filterM p = .ok (xs.filter q) := by
  have haux : ∀ kept : List α, xs.filterAuxM p kept = .ok ((xs.filter q).reverse ++ kept) := by
    induction xs with
    | nil => exact fun kept => rfl
    | cons x xs ih =>
      intro kept
      simp only [List.filterAuxM, h x List.mem_cons_self, bind, Except.bind, List.filter_cons]
      rw [ih fun y hy => h y (List.mem_cons_of_mem x hy)]
      cases q x with
      | true => simp
      | false => rfl
  simp only [List.filterM, haux, bind, Except.bind, List.append_nil, List.reverse_reverse]
  rfl

end

/-! ## Evaluation -/

namespace Valuation

/-- The valuation that makes some numbers true. -/
def ofNumbers (ns : List Int) : Valuation := fun v => decide ((v : Int) ∈ ns)

end Valuation

namespace Formula

/-- A formula that was built with constraints over non-zero numbers, from a number of variables that
fits into 32 bits. -/
inductive Built : Formula → Prop
  | ofNumVariables {n : Nat} (h : n < Word.bound32) : Built (ofNumVariables n)
  | add {f : Formula} {c : Constraint} (h : Built f) (hne : ∀ n ∈ c.numbers, n ≠ 0) :
      Built (f.add c)

theorem le_maxVariable {ns : List Int} {n : Int} (h : n ∈ ns) : n.natAbs ≤ maxVariable ns :=
  (le_foldl_max Int.natAbs ns 0).2 n h

theorem Built.numbers {f : Formula} (h : f.Built) {c : Constraint} (hc : c ∈ f.constraints)
    {n : Int} (hn : n ∈ c.numbers) : n ≠ 0 ∧ n.natAbs ≤ f.numVariables := by
  induction h with
  | ofNumVariables _ => cases hc
  | add _ hne ih =>
    rw [constraints_add] at hc
    rw [numVariables_add]
    rcases List.mem_append.mp hc with hc | hc
    · exact ⟨(ih hc).1, Nat.le_trans (ih hc).2 (Nat.le_max_left _ _)⟩
    · rw [List.mem_singleton.mp hc] at hn
      exact ⟨hne n hn, Nat.le_trans (le_maxVariable hn) (Nat.le_max_right _ _)⟩

/-- The call that adds a constraint. -/
def Constraint.addition : Constraint → Addition
  | .clause ns => .clause ns
  | .parity ns even => .parity ns even

/-- Every constraint holds. -/
def Holds (ν : Valuation) (f : Formula) : Prop := ∀ c ∈ f.constraints, c.addition.Holds ν

/-- One number for each variable, of the formula and maybe of more. -/
def IsTotal (f : Formula) (ns : List Int) : Prop :=
  ∃ k, f.numVariables ≤ k ∧ ns.map Int.natAbs = List.range' 1 k

/-- The number of a variable stands where the variable says, and it is the only one. -/
theorem IsTotal.getElem? {f : Formula} {ns : List Int} (h : f.IsTotal ns) {v : Nat} (hv : v ≠ 0)
    (hle : v ≤ f.numVariables) : ∃ n, ns[v - 1]? = some n ∧ n.natAbs = v ∧
      ∀ m ∈ ns, m.natAbs = v → m = n := by
  obtain ⟨k, hk, hns⟩ := h
  have hlength : ns.length = k := by
    rw [← List.length_map Int.natAbs, hns, List.length_range']
  have habs : ∀ {i : Nat} {n : Int}, ns[i]? = some n → n.natAbs = i + 1 := by
    intro i n hi
    have hlt : i < k := hlength ▸ (List.getElem?_eq_some_iff.mp hi).1
    have hmap : (ns.map Int.natAbs)[i]? = some n.natAbs := by rw [List.getElem?_map, hi]; rfl
    rw [hns, List.getElem?_range' hlt] at hmap
    have heq := Option.some.inj hmap
    omega
  have hlt : v - 1 < ns.length := by omega
  refine ⟨ns[v - 1], List.getElem?_eq_getElem hlt, ?_, fun m hm hmv => ?_⟩
  · have hn := habs (List.getElem?_eq_getElem hlt)
    omega
  · obtain ⟨i, hi⟩ := List.mem_iff_getElem?.mp hm
    have hiv : i = v - 1 := by
      have hm := habs hi
      omega
    rw [hiv, List.getElem?_eq_getElem hlt] at hi
    exact (Option.some.inj hi).symm

theorem IsTotal.isTrue_eq {f : Formula} {ns : List Int} (h : f.IsTotal ns) {n : Int} (hn : n ≠ 0)
    (hle : n.natAbs ≤ f.numVariables) :
    isTrue ns.toArray n = .ok ((Valuation.ofNumbers ns).holdsAt n) := by
  obtain ⟨m, hm, habs, hunique⟩ := h.getElem? (Int.natAbs_ne_zero.mpr hn) hle
  have hmem := List.mem_of_getElem? hm
  rw [isTrue, if_neg hn, List.getElem?_toArray, hm, Valuation.holdsAt, Valuation.ofNumbers]
  refine congrArg Except.ok ?_
  have hiff : ∀ x : Int, x.natAbs = n.natAbs → (x ∈ ns ↔ x = m) := fun x hx =>
    ⟨fun hmemx => hunique x hmemx hx, fun heq => heq ▸ hmem⟩
  have hside := Int.natAbs_eq_natAbs_iff.mp habs
  rw [Bool.eq_iff_iff, beq_iff_eq, Option.some.injEq, beq_iff_eq]
  by_cases hpos : 0 < n
  · rw [Int.natAbs_of_nonneg (Int.le_of_lt hpos), decide_eq_true hpos, decide_eq_true_eq,
      hiff n rfl]
    exact eq_comm
  · rw [Int.ofNat_natAbs_of_nonpos (Int.not_lt.mp hpos), decide_eq_false hpos,
      decide_eq_false_iff_not, hiff (-n) (Int.natAbs_neg n)]
    omega

/-- Its numbers are what a total assignment makes true. -/
theorem IsTotal.holdsAt_of_mem {f : Formula} {ns : List Int} (h : f.IsTotal ns) {n : Int}
    (hn : n ∈ ns) : (Valuation.ofNumbers ns).holdsAt n = true := by
  obtain ⟨k, -, hns⟩ := h
  have hnodup : (ns.map Int.natAbs).Nodup := hns ▸ List.nodup_range'
  have hne : n ≠ 0 := by
    have habs : n.natAbs ∈ List.range' 1 k := hns ▸ List.mem_map_of_mem hn
    obtain ⟨i, -, hi⟩ := List.mem_range'.mp habs
    omega
  rw [Valuation.holdsAt, Valuation.ofNumbers, beq_iff_eq]
  by_cases hpos : 0 < n
  · rw [Int.natAbs_of_nonneg (Int.le_of_lt hpos), decide_eq_true hpos, decide_eq_true hn]
  · rw [Int.ofNat_natAbs_of_nonpos (Int.not_lt.mp hpos), decide_eq_false hpos]
    refine decide_eq_false fun hneg => ?_
    have heq := List.inj_on_of_nodup_map hnodup hneg hn (Int.natAbs_neg n)
    omega

/-- A total assignment is evaluated to what its valuation says. -/
theorem Built.isSatisfiedBy_eq {f : Formula} {ns : List Int} (hf : f.Built) (h : f.IsTotal ns) :
    ∃ b, f.isSatisfiedBy ns = .ok b ∧ (b = true ↔ f.Holds (Valuation.ofNumbers ns)) := by
  have htrue : ∀ c ∈ f.constraints, ∀ n ∈ c.numbers,
      isTrue ns.toArray n = .ok ((Valuation.ofNumbers ns).holdsAt n) := fun c hc n hn =>
    h.isTrue_eq (hf.numbers hc hn).1 (hf.numbers hc hn).2
  have hone : ∀ c ∈ f.constraints, ∃ b, c.isSatisfiedBy ns.toArray = .ok b ∧
      (b = true ↔ c.addition.Holds (Valuation.ofNumbers ns)) := by
    intro c hc
    cases c with
    | clause ms => exact ⟨_, anyM_eq_ok (htrue _ hc), List.any_eq_true⟩
    | parity ms even =>
      refine ⟨(ms.countP (Valuation.ofNumbers ns).holdsAt % 2 == 0) == even, ?_, beq_iff_eq⟩
      have hfilter : ms.filterM (isTrue ns.toArray) = .ok _ := filterM_eq_ok (htrue _ hc)
      show (ms.filterM (isTrue ns.toArray) >>= _) = _
      rw [hfilter, List.countP_eq_length_filter]
      rfl
  exact allM_iff hone

end Formula

/-! ## Adding to a session -/

namespace Engine

variable {κ : Type}

theorem numVariables_growAll {e : Engine κ} (h : e.WellFormed) (ns : List Nat) :
    e.numVariables ≤ (e.growAll ns).numVariables := by
  induction ns generalizing e with
  | nil => exact Nat.le_refl _
  | cons n ns ih =>
    obtain ⟨hadv, -⟩ := grow_spec h n
    have hone : e.numVariables ≤ (e.grow n).numVariables := Nat.sub_le_sub_right hadv.size 1
    exact Nat.le_trans hone (ih hadv.wellFormed)

theorem le_numVariables_growAll {e : Engine κ} (h : e.WellFormed) {ns : List Nat} {n : Nat}
    (hn : n ∈ ns) : n ≤ (e.growAll ns).numVariables := by
  induction ns generalizing e with
  | nil => cases hn
  | cons m ns ih =>
    obtain ⟨hadv, -, -, -, hgrown⟩ := grow_spec h m
    rcases List.mem_cons.mp hn with rfl | hn
    · refine Nat.le_trans ?_ (numVariables_growAll hadv.wellFormed ns)
      by_cases hzero : n = 0
      · rw [hzero]
        exact Nat.zero_le _
      · exact Nat.le_sub_one_of_lt (hgrown n hzero (Nat.le_refl _))
    · exact ih hadv.wellFormed hn

end Engine

namespace Session

variable {κ : Type} [CustomConstraint κ]

/-- A session that asks for some constraints of a formula and for nothing else. -/
structure Loaded (cs : List Formula.Constraint) (n : Nat) (s : Session κ) : Prop where
  valid : s.Valid
  faithful : s.Faithful
  upToDate : s.UpToDate
  unrestricted : s.engine.control.restricted = false
  holds : ∀ ν, s.Holds ν ↔ ∀ c ∈ cs, c.addition.Holds ν
  numVariables : n ≤ s.numVariables
  known : ∀ d ∈ s.descriptions, ∀ l ∈ d.literals, l.var ≠ 0 ∧ l.var ≤ s.numVariables

variable {cs : List Formula.Constraint} {n : Nat} {s s' : Session κ}

theorem Loaded.idles (h : s.Loaded cs n) (hi : s.Idles s') (hn : s.numVariables ≤ s'.numVariables) :
    s'.Loaded cs n := by
  refine ⟨hi.valid h.valid, hi.faithful h.faithful, hi.upToDate h.upToDate,
    hi.engine.alike.restricted.trans h.unrestricted, fun ν => (hi.holds_iff ν).trans (h.holds ν),
    Nat.le_trans h.numVariables hn, ?_⟩
  have hsame : s'.descriptions = s.descriptions := descriptions_congr (by rw [hi.entries])
  intro d hd l hl
  obtain ⟨hne, hle⟩ := h.known d (hsame ▸ hd) l hl
  exact ⟨hne, Nat.le_trans hle hn⟩

omit [CustomConstraint κ] in
theorem mem_descriptions_of_push {entry : BookEntry κ} {d : Description κ}
    (h : s'.book.entries = s.book.entries.push entry) (hd : d ∈ s'.descriptions) :
    d ∈ s.descriptions ∨ d ∈ entry.descriptions := by
  obtain ⟨entry', hentry, hd⟩ := List.mem_flatMap.mp hd
  obtain ⟨hentry, hpresent⟩ := List.mem_filter.mp hentry
  rw [h, Array.toList_push] at hentry
  rcases List.mem_append.mp hentry with hold | hnew
  · exact Or.inl (List.mem_flatMap.mpr ⟨entry', List.mem_filter.mpr ⟨hold, hpresent⟩, hd⟩)
  · rw [List.mem_singleton.mp hnew] at hd
    exact Or.inr hd

/-- A constraint is added to what there is, or it contradicts that. -/
theorem Loaded.add {c : Formula.Constraint} {result : Except Refusal Nat} (h : s.Loaded cs n)
    (hrun : (c.addTo).run s = (.ok result, s')) :
    (∀ handle, result = .ok handle → s'.Loaded (cs ++ [c]) n) ∧
      ∀ refusal, result = .error refusal → ∀ ν, ¬ ∀ c' ∈ cs ++ [c], c'.addition.Holds ν := by
  have hadd : c.addTo = c.addition.run (κ := κ) := by cases c <;> rfl
  rw [hadd] at hrun
  obtain ⟨ls, hne, hnumbers, hrun⟩ := ok_of_run_addition hrun
  have hiff : ∀ ν, (∀ d ∈ (c.addition.descriptions ls : List (Description κ)), d.Holds ν) ↔
      c.addition.Holds ν := fun ν => Addition.holds_iff hne hnumbers ν
  have hgrown : Loaded cs n
      (⟨s.engine.growAll (c.addition.numbers.map Int.natAbs), s.book⟩ : Session κ) :=
    h.idles (idles_growAll h.valid _) (Engine.numVariables_growAll h.valid.engine _)
  obtain ⟨hvalid, hfaithful, hup⟩ :=
    addConstraint_keeps hgrown.valid (Addition.proper hne) hrun
  rcases addConstraint_spec hgrown.valid (Addition.proper hne) hrun with
    ⟨hinf, rfl, -⟩ | ⟨-, ⟨references, rfl, hentries, hfin⟩ | ⟨rfl, -, hfin⟩⟩
  · refine ⟨nofun, fun _ _ ν hall => ?_⟩
    exact hgrown.faithful.infeasible hinf ν ((hgrown.holds ν).mpr fun c' hc' =>
      hall c' (List.mem_append_left _ hc'))
  · have hadds := hfin.adds references rfl
    have hgrows : (s.engine.growAll (c.addition.numbers.map Int.natAbs)).numVariables ≤
        s'.numVariables := Nat.sub_le_sub_right hadds.size 1
    refine ⟨fun _ _ => ⟨hvalid, hfaithful hgrown.faithful, hup nofun hgrown.upToDate,
      hfin.alike.restricted.trans hgrown.unrestricted, fun ν => ?_, ?_, fun d hd l hl => ?_⟩, nofun⟩
    · rw [holds_push hentries, hgrown.holds ν, List.forall_mem_append, List.forall_mem_singleton,
        ← hiff ν]
      exact and_congr_right fun _ => ⟨fun hentry => hentry rfl, fun hd _ => hd⟩
    · exact Nat.le_trans hgrown.numVariables hgrows
    · rcases mem_descriptions_of_push hentries hd with hd | hd
      · obtain ⟨hl₀, hle⟩ := hgrown.known d hd l hl
        exact ⟨hl₀, Nat.le_trans hle hgrows⟩
      · have hls : l ∈ ls := by
          cases c with
          | clause ns =>
            cases List.mem_singleton.mp hd
            exact hl
          | parity ns even =>
            cases List.mem_singleton.mp hd
            exact hl
        have hvar : l.var ∈ c.addition.numbers.map Int.natAbs := by
          rw [← hnumbers, List.map_map]
          exact List.mem_map.mpr ⟨l, hls, Literal.natAbs_toDimacs l⟩
        have hle := Engine.le_numVariables_growAll h.valid.engine hvar
        exact ⟨hne l hls, Nat.le_trans hle hgrows⟩
  · obtain ⟨-, -, hnone⟩ := hfin.restores _ rfl
    refine ⟨nofun, fun _ _ ν hall => ?_⟩
    have hold := hgrown.faithful.admits hgrown.unrestricted ν ((hgrown.holds ν).mpr fun c' hc' =>
      hall c' (List.mem_append_left _ hc'))
    refine hnone ν hold ((hiff ν).mpr (hall c ?_))
    exact List.mem_append_right _ List.mem_cons_self

theorem Loaded.addAll {done : List Formula.Constraint} {result : Except Refusal Unit}
    (h : s.Loaded done n) (hrun : (Formula.addAll cs).run s = (.ok result, s')) :
    (result = .ok () → s'.Loaded (done ++ cs) n) ∧
      ∀ refusal, result = .error refusal → ∀ ν, ¬ ∀ c ∈ done ++ cs, c.addition.Holds ν := by
  induction cs generalizing done s with
  | nil =>
    cases hrun
    rw [List.append_nil]
    exact ⟨fun _ => h, nofun⟩
  | cons c cs ih =>
    obtain ⟨added, s₁, hadd, hrun⟩ := ok_of_run_bind hrun
    obtain ⟨hloaded, hrefused⟩ := h.add hadd
    cases added with
    | ok handle =>
      have hrest := ih (hloaded handle rfl) hrun
      rwa [List.append_assoc, List.singleton_append] at hrest
    | error refusal =>
      cases hrun
      refine ⟨nofun, fun _ _ ν hall => hrefused refusal rfl ν fun c' hc' => hall c' ?_⟩
      rcases List.mem_append.mp hc' with hc' | hc'
      · exact List.mem_append_left _ hc'
      · rw [List.mem_singleton.mp hc']
        exact List.mem_append_right _ List.mem_cons_self

end Session

/-- A new session knows the whole formula afterwards, or the formula has no model. -/
theorem Formula.addTo_spec {κ : Type} [CustomConstraint κ] {f : Formula} {o : Options}
    {result : Except Refusal Unit} {s' : Session κ}
    (hrun : (f.addTo).run (.make o) = (.ok result, s')) :
    (result = .ok () → s'.Loaded f.constraints f.numVariables) ∧
      ∀ refusal, result = .error refusal → ∀ ν, ¬ f.Holds ν := by
  obtain ⟨m, s₁, hnew, hrun⟩ := Session.ok_of_run_bind hrun
  obtain ⟨-, rfl⟩ := Session.ok_of_run_newVariables hnew
  obtain ⟨hv, hf, hu⟩ := Session.make_spec (κ := κ) o
  have hloaded : Session.Loaded [] f.numVariables
      (⟨(Engine.make o).grow f.numVariables, .make κ o⟩ : Session κ) := by
    have hi : (Session.make o).Idles
        (⟨(Engine.make o).grow f.numVariables, .make κ o⟩ : Session κ) :=
      ⟨Engine.grow_idles hv.engine _, rfl⟩
    refine ⟨hi.valid hv, hi.faithful hf, hi.upToDate hu, hi.engine.alike.restricted,
      fun ν => ?_, ?_, nofun⟩
    · exact ⟨fun _ => nofun, fun _ => nofun⟩
    · have hmem : f.numVariables ∈ [f.numVariables] := List.mem_cons_self
      exact Engine.le_numVariables_growAll hv.engine hmem
  exact hloaded.addAll hrun

end ClauseLearning
