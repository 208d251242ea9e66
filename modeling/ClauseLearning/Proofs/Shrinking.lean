import ClauseLearning.Proofs.Resolution

/-!
# Shrinking keeps a clause implied

A literal that is removed from a learned clause goes back, along reasons, to the literals that are
kept and to root facts (`Arena.Rests`), so it is false in every model that makes those false. For
the simple rule this is closed over the literals of the clause; for the expensive rule over all
variables whose label says so (`Minimiser.Sound`).

* `Arena.Rests.of_closed`, `exists_holds_of_rests`: the induction along the trail, and what it is
  for.
* `removeSeen_spec`: the simple rule.
* `Minimiser.label_spec`: labels are sound, and those that are final stay.
* `Minimiser.removeImplied_spec`: the expensive rule.
-/

namespace ClauseLearning

variable {κ : Type} [CustomConstraint κ]

/-- The literals of the reason of a value imply it. -/
theorem Arena.Justifies.reasonOf_spec {s : Arena κ} {a : Assignment} (h : s.Justifies a) {i : Nat}
    {l : Literal} (hl : a.trues[i]? = some l) {reason : List Literal}
    (hrun : s.reasonOf a l.var = .ok (some reason)) :
    (∀ m ∈ reason, -m ∈ a.trues.take i) ∧
      ∀ ν, s.Model a ν → (∀ m ∈ reason, m.holds ν = false) → l.holds ν = true := by
  have hlit : a.satisfiedLiteral? l.var = some l :=
    h.consistent.satisfiedLiteral?_eq.mpr ⟨List.mem_of_getElem? hl, rfl⟩
  unfold reasonOf at hrun
  rw [hlit] at hrun
  cases hr : a.reason? l.var with
  | none => simp [hr] at hrun
  | some r =>
    simp only [hr] at hrun
    obtain ⟨c, hc, hrun⟩ := ok_of_bind hrun
    cases hrun
    obtain ⟨d, hd, hbefore, himplies⟩ := h.reasons hl hr
    rw [get_eq_ok, hd] at hc
    cases hc
    exact ⟨hbefore, fun ν hν hfalse => himplies ν (hν.holds hd) hfalse⟩

/-- Looking up a reason never fails. -/
theorem Arena.Justifies.reasonOf_total {s : Arena κ} {a : Assignment} (h : s.Justifies a)
    (v : Nat) : ∃ reason, s.reasonOf a v = .ok reason := by
  unfold reasonOf
  split
  · rename_i r p hr hp
    obtain ⟨hmem, rfl⟩ := h.consistent.satisfiedLiteral?_eq.mp hp
    obtain ⟨i, hi⟩ := List.mem_iff_getElem?.mp hmem
    obtain ⟨c, hc, -⟩ := h.reasons hi hr
    rw [get_eq_ok.mpr hc]
    exact ⟨_, rfl⟩
  · exact ⟨none, rfl⟩

/-! ## Going back to what is kept -/

/-- A value goes back, along reasons, to the literals that are kept and to root facts. -/
inductive Arena.Rests (s : Arena κ) (a : Assignment) (ls : List Literal) : Nat → Prop
  | kept {l : Literal} (h : l ∈ ls) : Rests s a ls l.var
  | reason {v : Nat} {reason : List Literal} (hreason : s.reasonOf a v = .ok (some reason))
      (h : ∀ n ∈ reason, a.levelOf n.var ≠ 0 → Rests s a ls n.var) : Rests s a ls v

section

variable {s : Arena κ} {a : Assignment} {ls kept : List Literal}

/-- It is enough if it is so one step after the other, since reasons go down the trail. -/
theorem Arena.Rests.of_closed (hj : s.Justifies a) {p : Nat → Prop}
    (hp : ∀ v, p v → (∃ m ∈ kept, m.var = v) ∨ ∃ reason, s.reasonOf a v = .ok (some reason) ∧
      ∀ n ∈ reason, a.levelOf n.var ≠ 0 → p n.var)
    {i : Nat} {l : Literal} (hl : a.trues[i]? = some l) (h : p l.var) : s.Rests a kept l.var := by
  induction i using Nat.strongRecOn generalizing l with
  | ind i ih =>
    rcases hp l.var h with ⟨m, hm, hv⟩ | ⟨reason, hreason, hbehind⟩
    · rw [← hv]
      exact .kept hm
    · obtain ⟨hbefore, -⟩ := hj.reasonOf_spec hl hreason
      refine .reason hreason fun n hn hlevel => ?_
      obtain ⟨j, hji, hnj⟩ := mem_take_iff.mp (hbefore n hn)
      have hrest := ih j hji hnj (by rw [Literal.var_negate]; exact hbehind n hn hlevel)
      rwa [Literal.var_negate] at hrest

/-- In every model that makes what is kept false, the value is what it is. -/
theorem Arena.Rests.holds (hj : s.Justifies a) (hkept : ∀ m ∈ kept, -m ∈ a.trues) {ν : Valuation}
    (hν : s.Model a ν) (hfalse : ∀ m ∈ kept, m.holds ν = false) {v : Nat} (h : s.Rests a kept v) :
    ∀ x ∈ a.trues, x.var = v → x.holds ν = true := by
  induction h with
  | @kept l hl =>
    intro x hx hv
    have hlx : -l = x := hj.consistent.eq_of_var (hkept l hl) hx (by rw [Literal.var_negate, hv])
    rw [← hlx, Literal.holds_negate, hfalse l hl]
    rfl
  | reason hreason _ ih =>
    rintro x hx rfl
    obtain ⟨i, hi⟩ := List.mem_iff_getElem?.mp hx
    obtain ⟨hbefore, himplies⟩ := hj.reasonOf_spec hi hreason
    refine himplies ν hν fun n hn => ?_
    have hn' : -n ∈ a.trues := List.mem_of_mem_take (hbefore n hn)
    have htrue : (-n).holds ν = true := by
      by_cases hlevel : a.levelOf n.var = 0
      · exact hν.facts _ hn' (by rw [Literal.var_negate, hlevel])
      · exact ih n hn hlevel _ hn' (Literal.var_negate n)
    rw [Literal.holds_negate] at htrue
    simpa using htrue

/-- A model that satisfies a clause satisfies what the literals of the clause go back to. -/
theorem exists_holds_of_rests (hj : s.Justifies a) (hls : ∀ l ∈ ls, -l ∈ a.trues)
    (hsub : kept.Sublist ls) (hrests : ∀ l ∈ ls, s.Rests a kept l.var) {ν : Valuation}
    (hν : s.Model a ν) (h : ∃ m ∈ ls, m.holds ν = true) : ∃ m ∈ kept, m.holds ν = true := by
  obtain ⟨m, hm, hmν⟩ := h
  by_contra hnone
  have hfalse : ∀ l ∈ kept, l.holds ν = false := fun l hl => by
    by_contra hlν
    exact hnone ⟨l, hl, by simpa using hlν⟩
  have htrue := (hrests m hm).holds hj (fun l hl => hls l (hsub.subset hl)) hν hfalse (-m)
      (hls m hm)
    (Literal.var_negate m)
  rw [Literal.holds_negate, hmν] at htrue
  cases htrue

end

/-! ## The simple rule -/

theorem filterAuxM_spec {ε α : Type} {p : α → Except ε Bool} {xs acc zs : List α}
    (h : xs.filterAuxM p acc = .ok zs) :
    ∃ kept : List α, kept.Sublist xs ∧ zs = kept.reverse ++ acc ∧
      ∀ x ∈ xs, x ∈ kept ∨ p x = .ok false := by
  induction xs generalizing acc with
  | nil =>
    cases h
    exact ⟨[], List.Sublist.refl _, rfl, fun x hx => by cases hx⟩
  | cons x xs ih =>
    unfold List.filterAuxM at h
    obtain ⟨b, hb, h⟩ := ok_of_bind h
    obtain ⟨kept, hsub, rfl, hmem⟩ := ih h
    cases b with
    | true =>
      refine ⟨x :: kept, hsub.cons_cons x, by simp, fun y hy => ?_⟩
      rcases List.mem_cons.mp hy with rfl | hy
      · exact Or.inl List.mem_cons_self
      · exact (hmem y hy).imp (List.mem_cons_of_mem _) id
    | false =>
      refine ⟨kept, hsub.cons x, rfl, fun y hy => ?_⟩
      rcases List.mem_cons.mp hy with rfl | hy
      · exact Or.inr hb
      · exact hmem y hy

theorem filterM_spec {ε α : Type} {p : α → Except ε Bool} {xs ys : List α}
    (h : xs.filterM p = .ok ys) : ys.Sublist xs ∧ ∀ x ∈ xs, x ∈ ys ∨ p x = .ok false := by
  unfold List.filterM at h
  obtain ⟨zs, haux, h⟩ := ok_of_bind h
  cases h
  obtain ⟨kept, hsub, rfl, hmem⟩ := filterAuxM_spec haux
  rw [List.append_nil, List.reverse_reverse]
  exact ⟨hsub, hmem⟩

theorem filterM_total {ε α : Type} {p : α → Except ε Bool} (hp : ∀ x, ∃ b, p x = .ok b)
    (xs : List α) : ∃ ys, xs.filterM p = .ok ys := by
  have haux : ∀ acc : List α, ∃ zs, xs.filterAuxM p acc = .ok zs := by
    induction xs with
    | nil => exact fun acc => ⟨acc, rfl⟩
    | cons x xs ih => exact fun acc => exists_ok_bind (hp x) fun b _ => ih _
  exact exists_ok_bind (haux []) fun zs _ => ⟨zs.reverse, rfl⟩

theorem removeSeen_total {s : Arena κ} {a : Assignment} (h : s.Justifies a) (isSeen : Nat → Bool)
    (ls : List Literal) : ∃ kept, removeSeen s a isSeen ls = .ok kept := by
  cases ls with
  | nil => exact ⟨[], rfl⟩
  | cons l ls =>
    unfold removeSeen
    refine exists_ok_bind (filterM_total (fun m => ?_) ls) fun kept _ => ⟨l :: kept, rfl⟩
    refine exists_ok_bind (h.reasonOf_total m.var) fun reason _ => ?_
    cases reason with
    | none => exact ⟨true, rfl⟩
    | some reason => exact ⟨_, rfl⟩

/-- A literal goes if its reason was seen as a whole; what was seen below the current level is in
the clause. -/
theorem removeSeen_spec {s : Arena κ} {a : Assignment} (h : s.Justifies a) {isSeen : Nat → Bool}
    {first : Literal} {lower kept : List Literal}
    (hlower : ∀ m ∈ lower, -m ∈ a.trues ∧ a.levelOf m.var ≠ a.decisionLevel)
    (hseen : ∀ m, -m ∈ a.trues → isSeen m.var = true → a.levelOf m.var ≠ a.decisionLevel →
      m ∈ lower)
    (hrun : removeSeen s a isSeen (first :: lower) = .ok kept) :
    kept.Sublist (first :: lower) ∧ kept.head? = some first ∧
      ∀ l ∈ first :: lower, s.Rests a kept l.var := by
  have hcon := h.consistent
  unfold removeSeen at hrun
  obtain ⟨rest, hfilter, hrun⟩ := ok_of_bind hrun
  cases hrun
  obtain ⟨hsub, hmem⟩ := filterM_spec hfilter
  -- a literal that went has a reason whose literals are in the clause as well
  have hstep : ∀ v, (∃ m ∈ lower, m.var = v) → (∃ m ∈ first :: rest, m.var = v) ∨
      ∃ reason, s.reasonOf a v = .ok (some reason) ∧
        ∀ n ∈ reason, a.levelOf n.var ≠ 0 → ∃ m ∈ lower, m.var = n.var := by
    rintro v ⟨m, hm, rfl⟩
    rcases hmem m hm with hin | hgone
    · exact Or.inl ⟨m, List.mem_cons_of_mem _ hin, rfl⟩
    obtain ⟨found, hreason, hgone⟩ := ok_of_bind hgone
    cases found with
    | none => cases hgone
    | some reason =>
      have hall : reason.all (fun n => isSeen n.var || a.levelOf n.var == 0) = true := by
        simpa [pure, Except.pure] using hgone
      obtain ⟨hfalse, hne⟩ := hlower m hm
      obtain ⟨i, hi⟩ := List.mem_iff_getElem?.mp hfalse
      refine Or.inr ⟨reason, hreason, fun n hn hlevel => ⟨n, ?_, rfl⟩⟩
      rw [← Literal.var_negate m] at hreason
      obtain ⟨hbefore, -⟩ := h.reasonOf_spec hi hreason
      obtain ⟨j, hj, hnj⟩ := mem_take_iff.mp (hbefore n hn)
      have hmono := a.levelAt_mono (Nat.le_of_lt hj)
      have htop := a.levelAt_le i
      have hni := hcon.levelOf_eq hnj
      have hmi := hcon.levelOf_eq hi
      rw [Literal.var_negate] at hni hmi
      rcases Bool.or_eq_true_iff.mp (List.all_eq_true.mp hall n hn) with hs | hz
      · refine hseen n (List.mem_of_getElem? hnj) hs ?_
        omega
      · exact absurd (beq_iff_eq.mp hz) hlevel
  refine ⟨hsub.cons_cons first, rfl, fun l hl => ?_⟩
  rcases List.mem_cons.mp hl with rfl | hl
  · exact .kept List.mem_cons_self
  · obtain ⟨i, hi⟩ := List.mem_iff_getElem?.mp (hlower l hl).1
    have hrests := Arena.Rests.of_closed h hstep hi ⟨l, hl, (Literal.var_negate l).symm⟩
    rwa [Literal.var_negate] at hrests

/-! ## The expensive rule -/

namespace Minimiser

/-- What the labels say is true: what is removable follows from what is removable or kept. -/
structure Sound (s : Arena κ) (a : Assignment) (vs : List Nat) (m : Minimiser) : Prop where
  removable : ∀ v : Nat, m.labels[v]? = some .removable →
    ∃ reason, s.reasonOf a v = .ok (some reason) ∧ ∀ n ∈ reason, a.levelOf n.var ≠ 0 →
      m.labels[n.var]? = some .removable ∨ m.labels[n.var]? = some .keep
  keep : ∀ v : Nat, m.labels[v]? = some .keep → v ∈ vs
  pending : ∀ v : Nat, m.labels[v]? = some .pending → v ∈ vs

/-- Final labels stay, and only variables before a position get new ones. -/
structure Extends (a : Assignment) (i : Nat) (m m' : Minimiser) : Prop where
  final : ∀ (v : Nat) (found : Label), found ≠ Label.pending → m.labels[v]? = some found →
    m'.labels[v]? = some found
  others : ∀ v : Nat, v ∉ (a.trues.take i).map Literal.var → m'.labels[v]? = m.labels[v]?

namespace Extends

theorem refl (a : Assignment) (i : Nat) (m : Minimiser) : Extends a i m m :=
  ⟨fun _ _ _ h => h, fun _ _ => rfl⟩

theorem trans {a : Assignment} {i : Nat} {m₁ m₂ m₃ : Minimiser} (h : Extends a i m₁ m₂)
    (h' : Extends a i m₂ m₃) : Extends a i m₁ m₃ :=
  ⟨fun v found hne hv => h'.final v found hne (h.final v found hne hv),
    fun v hv => (h'.others v hv).trans (h.others v hv)⟩

theorem mono {a : Assignment} {i j : Nat} {m m' : Minimiser} (h : Extends a i m m') (hij : i ≤ j) :
    Extends a j m m' := by
  refine ⟨h.final, fun v hv => h.others v fun hmem => hv ?_⟩
  obtain ⟨l, hl, hlv⟩ := List.mem_map.mp hmem
  exact List.mem_map.mpr ⟨l, List.take_subset_take_left _ hij hl, hlv⟩

end Extends

variable {s : Arena κ} {a : Assignment} {vs : List Nat}

/-- What a function that labels the variables before a position promises. -/
def Labels (s : Arena κ) (a : Assignment) (vs : List Nat) (i : Nat)
    (f : Nat → Minimiser → Except Fault (Label × Minimiser)) : Prop :=
  ∀ {j l m m' found}, j < i → a.trues[j]? = some l → Sound s a vs m →
    f l.var m = .ok (found, m') →
    Sound s a vs m' ∧ Extends a (j + 1) m m' ∧ m'.labels[l.var]? = some found ∧
      found ≠ Label.pending

theorem anyPoison_spec {i : Nat} {f : Nat → Minimiser → Except Fault (Label × Minimiser)}
    (hf : Labels s a vs i f) {ls : List Literal} (hls : ∀ l ∈ ls, -l ∈ a.trues.take i)
    {m m' : Minimiser} {poisoned : Bool} (h : Sound s a vs m)
    (hrun : anyPoison a f ls m = .ok (poisoned, m')) :
    Sound s a vs m' ∧ Extends a i m m' ∧ (poisoned = false → ∀ l ∈ ls, a.levelOf l.var ≠ 0 →
      m'.labels[l.var]? = some .removable ∨ m'.labels[l.var]? = some .keep) := by
  induction ls generalizing m with
  | nil =>
    cases hrun
    exact ⟨h, .refl _ _ _, fun _ l hl => by cases hl⟩
  | cons l ls ih =>
    have hrest : ∀ n ∈ ls, -n ∈ a.trues.take i := fun n hn => hls n (List.mem_cons_of_mem _ hn)
    unfold anyPoison at hrun
    split at hrun
    · rename_i hzero
      obtain ⟨hs, he, hp⟩ := ih hrest h hrun
      refine ⟨hs, he, fun hn k hk hlevel => ?_⟩
      rcases List.mem_cons.mp hk with rfl | hk
      · exact absurd hzero hlevel
      · exact hp hn k hk hlevel
    · obtain ⟨⟨found, m₁⟩, hlabel, hrun⟩ := ok_of_bind hrun
      obtain ⟨j, hj, hlj⟩ := mem_take_iff.mp (hls l List.mem_cons_self)
      have hvar := Literal.var_negate l
      rw [← hvar] at hlabel
      obtain ⟨hs₁, he₁, hfound, hfinal⟩ := hf hj hlj h hlabel
      rw [hvar] at hfound
      have he₁' := he₁.mono (j := i) hj
      dsimp only at hrun
      split at hrun
      · cases hrun
        exact ⟨hs₁, he₁', fun hn => (by cases hn)⟩
      · rename_i hpoison
        obtain ⟨hs, he, hp⟩ := ih hrest hs₁ hrun
        refine ⟨hs, he₁'.trans he, fun hn k hk hlevel => ?_⟩
        rcases List.mem_cons.mp hk with rfl | hk
        · have hlast := he.final _ found hfinal hfound
          cases found with
          | pending => exact absurd rfl hfinal
          | poison => exact absurd rfl hpoison
          | removable => exact Or.inl hlast
          | keep => exact Or.inr hlast
        · exact hp hn k hk hlevel

/-- What the reason of a variable tells about it. -/
theorem ofReason_spec (hj : s.Justifies a) {i : Nat} {l : Literal} (hl : a.trues[i]? = some l)
    {f : Nat → Minimiser → Except Fault (Label × Minimiser)} (hf : Labels s a vs i f)
    {m m' : Minimiser} {found : Label} (h : Sound s a vs m)
    (hrun : ofReason s a f l.var m = .ok (found, m')) :
    Sound s a vs m' ∧ Extends a i m m' ∧ found ≠ .pending ∧ (found = .keep → l.var ∈ vs) ∧
      (found = .removable → ∃ reason, s.reasonOf a l.var = .ok (some reason) ∧
        (∀ n ∈ reason, -n ∈ a.trues.take i) ∧ ∀ n ∈ reason, a.levelOf n.var ≠ 0 →
          m'.labels[n.var]? = some .removable ∨ m'.labels[n.var]? = some .keep) := by
  unfold ofReason at hrun
  obtain ⟨reason?, hreason, hrun⟩ := ok_of_bind hrun
  cases reason? with
  | none =>
    cases hrun
    exact ⟨h, .refl _ _ _, nofun, nofun, nofun⟩
  | some reason =>
    obtain ⟨hbefore, -⟩ := hj.reasonOf_spec hl hreason
    dsimp only at hrun
    split at hrun
    · obtain ⟨⟨poisoned, m₁⟩, hany, hrun⟩ := ok_of_bind hrun
      obtain ⟨hs, he, hp⟩ := anyPoison_spec hf hbefore h hany
      dsimp only at hrun
      split at hrun
      · cases hrun
        refine ⟨hs, he, ?_, fun hk => hs.pending l.var ?_, fun hk => ?_⟩
        · split <;> exact nofun
        · split at hk
          · rename_i hpending
            exact beq_iff_eq.mp hpending
          · cases hk
        · split at hk <;> cases hk
      · rename_i hclean
        cases hrun
        exact ⟨hs, he, nofun, nofun, fun _ =>
          ⟨reason, hreason, hbefore, hp (by simpa using hclean)⟩⟩
    · cases hrun
      exact ⟨h, .refl _ _ _, nofun, nofun, nofun⟩

/-- A variable has no final label yet. -/
def Open (m : Minimiser) (v : Nat) : Prop :=
  ∀ found : Label, found ≠ .pending → m.labels[v]? ≠ some found

theorem final_or_open (m : Minimiser) (v : Nat) :
    (∃ found : Label, found ≠ .pending ∧ m.labels[v]? = some found) ∨ m.Open v := by
  by_cases h : m.Open v
  · exact Or.inr h
  · unfold Open at h
    push Not at h
    exact Or.inl h

theorem label_of_final {depth v : Nat} {m : Minimiser} {found : Label} (hne : found ≠ .pending)
    (hm : m.labels[v]? = some found) : label s a depth v m = .ok (found, m) := by
  unfold label
  rw [hm]
  cases found with
  | pending => exact absurd rfl hne
  | poison => rfl
  | removable => rfl
  | keep => rfl

theorem label_of_open {depth v : Nat} {m : Minimiser} (h : m.Open v) :
    label s a depth v m = (do
      let (found, m') ← match depth with
        | 0 => .ok (.poison, m)
        | depth + 1 => ofReason s a (label s a depth) v m
      return (found, ⟨m'.labels.insert v found, m'.levels⟩)) := by
  rw [label]
  split
  · rename_i hm
    exact absurd hm (h .poison nofun)
  · rename_i hm
    exact absurd hm (h .removable nofun)
  · rename_i hm
    exact absurd hm (h .keep nofun)
  · cases depth <;> rfl

/-- What is not followed any further counts as poison. -/
theorem label_zero_of_open {v : Nat} {m : Minimiser} (h : m.Open v) :
    label s a 0 v m = .ok (.poison, ⟨m.labels.insert v .poison, m.levels⟩) :=
  label_of_open h

theorem label_succ_of_open {depth v : Nat} {m : Minimiser} (h : m.Open v) :
    label s a (depth + 1) v m = (do
      let (found, m') ← ofReason s a (label s a depth) v m
      return (found, ⟨m'.labels.insert v found, m'.levels⟩)) :=
  label_of_open h

theorem getElem?_insert (labels : Std.HashMap Nat Label) (v w : Nat) (found : Label) :
    (labels.insert v found)[w]? = if v = w then some found else labels[w]? := by
  rw [Std.HashMap.getElem?_insert]
  by_cases hw : v = w
  · simp [hw]
  · simp [hw]

/-- A label that was found can be entered if there was no final one. -/
theorem Sound.insert {m : Minimiser} {i : Nat} {l : Literal} {found : Label}
    (h : Sound s a vs m) (hl : a.trues[i]? = some l) (hnew : m.Open l.var)
    (hfinal : found ≠ .pending) (hkeep : found = .keep → l.var ∈ vs)
    (hremovable : found = .removable → ∃ reason, s.reasonOf a l.var = .ok (some reason) ∧
      (∀ n ∈ reason, -n ∈ a.trues.take i) ∧ ∀ n ∈ reason, a.levelOf n.var ≠ 0 →
        m.labels[n.var]? = some .removable ∨ m.labels[n.var]? = some .keep) :
    Sound s a vs ⟨m.labels.insert l.var found, m.levels⟩ ∧
      Extends a (i + 1) m ⟨m.labels.insert l.var found, m.levels⟩ := by
  have hget : ∀ v : Nat, (m.labels.insert l.var found)[v]? =
      if l.var = v then some found else m.labels[v]? := fun v => getElem?_insert ..
  have hstay : ∀ (v : Nat) (other : Label), other ≠ Label.pending → m.labels[v]? = some other →
      (m.labels.insert l.var found)[v]? = some other := by
    intro v other hne hv
    rw [hget, if_neg]
    · exact hv
    · rintro rfl
      exact hnew other hne hv
  have hstays : ∀ n : Literal,
      (m.labels[n.var]? = some .removable ∨ m.labels[n.var]? = some .keep) →
      (m.labels.insert l.var found)[n.var]? = some .removable ∨
        (m.labels.insert l.var found)[n.var]? = some .keep := fun n hn =>
    hn.imp (hstay _ _ nofun) (hstay _ _ nofun)
  refine ⟨⟨fun v hv => ?_, fun v hv => ?_, fun v hv => ?_⟩, ⟨hstay, fun v hv => ?_⟩⟩
  · rw [hget] at hv
    split at hv
    · rename_i hlv
      obtain ⟨reason, hreason, -, hlabels⟩ := hremovable (Option.some.inj hv)
      rw [hlv] at hreason
      exact ⟨reason, hreason, fun n hn hlevel => hstays n (hlabels n hn hlevel)⟩
    · obtain ⟨reason, hreason, hlabels⟩ := h.removable v hv
      exact ⟨reason, hreason, fun n hn hlevel => hstays n (hlabels n hn hlevel)⟩
  · rw [hget] at hv
    split at hv
    · rename_i hlv
      exact hlv ▸ hkeep (Option.some.inj hv)
    · exact h.keep v hv
  · rw [hget] at hv
    split at hv
    · exact absurd (Option.some.inj hv) hfinal
    · exact h.pending v hv
  · show (m.labels.insert l.var found)[v]? = m.labels[v]?
    rw [hget, if_neg]
    rintro rfl
    exact hv (List.mem_map.mpr ⟨l, mem_take_iff.mpr ⟨i, Nat.lt_succ_self i, hl⟩, rfl⟩)

omit [CustomConstraint κ] in
/-- Labelling what is before a position leaves the variable at that position alone. -/
theorem Extends.labels_eq (hcon : a.Consistent) {i : Nat} {l : Literal} {m m' : Minimiser}
    (h : Extends a i m m') (hl : a.trues[i]? = some l) : m'.labels[l.var]? = m.labels[l.var]? := by
  refine h.others _ fun hmem => ?_
  obtain ⟨x, hx, hxv⟩ := List.mem_map.mp hmem
  exact hcon.var_ne_of_mem_take hl hx hxv

omit [CustomConstraint κ] in
theorem Extends.isOpen (hcon : a.Consistent) {i : Nat} {l : Literal} {m m' : Minimiser}
    (h : Extends a i m m') (hl : a.trues[i]? = some l) (hopen : m.Open l.var) : m'.Open l.var := by
  intro found hne hv
  rw [h.labels_eq hcon hl] at hv
  exact hopen found hne hv

/-- Labels stay sound however far variables are followed back. -/
theorem label_spec (hj : s.Justifies a) (depth : Nat) (i : Nat) :
    Labels s a vs i (label s a depth) := by
  induction depth generalizing i with
  | zero =>
    intro j l m m' found hlt hl h hrun
    rcases m.final_or_open l.var with ⟨other, hne, hm⟩ | hopen
    · rw [label_of_final hne hm] at hrun
      cases hrun
      exact ⟨h, .refl _ _ _, hm, hne⟩
    · rw [label_zero_of_open hopen] at hrun
      cases hrun
      have hpoison : Label.poison ≠ .pending := nofun
      obtain ⟨hs, he⟩ := h.insert hl hopen hpoison nofun nofun
      exact ⟨hs, he, by simp, hpoison⟩
  | succ depth ih =>
    intro j l m m' found hlt hl h hrun
    rcases m.final_or_open l.var with ⟨other, hne, hm⟩ | hopen
    · rw [label_of_final hne hm] at hrun
      cases hrun
      exact ⟨h, .refl _ _ _, hm, hne⟩
    · rw [label_succ_of_open hopen] at hrun
      obtain ⟨⟨found₁, m₁⟩, hreason, hrun⟩ := ok_of_bind hrun
      cases hrun
      obtain ⟨hs₁, he₁, hfinal, hk, hr⟩ := ofReason_spec hj hl (ih j) h hreason
      obtain ⟨hs, he⟩ := hs₁.insert hl (he₁.isOpen hj.consistent hl hopen) hfinal hk hr
      exact ⟨hs, (he₁.mono (Nat.le_succ j)).trans he, by simp, hfinal⟩

/-- In the end every literal has a final label, and the removable ones are gone. -/
theorem removeLabelled_spec (hj : s.Justifies a) {ls kept : List Literal}
    (hls : ∀ l ∈ ls, -l ∈ a.trues) {m m' : Minimiser} (h : Sound s a vs m)
    (hrun : removeLabelled s a ls m = .ok (kept, m')) :
    Sound s a vs m' ∧ Extends a a.trues.length m m' ∧ kept.Sublist ls ∧
      (∀ l ∈ ls, ¬ m'.Open l.var ∧ (l ∈ kept ↔ m'.labels[l.var]? ≠ some .removable)) ∧
      ∀ first ∈ ls.head?, m.labels[first.var]? = some .keep → kept.head? = some first := by
  induction ls generalizing m kept with
  | nil =>
    cases hrun
    exact ⟨h, .refl _ _ _, List.Sublist.refl _, fun l hl => (by cases hl), fun f hf => by cases hf⟩
  | cons l ls ih =>
    unfold removeLabelled at hrun
    obtain ⟨⟨found, m₁⟩, hlabel, hrun⟩ := ok_of_bind hrun
    obtain ⟨⟨rest, m₂⟩, hrest, hrun⟩ := ok_of_bind hrun
    cases hrun
    obtain ⟨i, hi⟩ := List.mem_iff_getElem?.mp (hls l List.mem_cons_self)
    have hlt := (List.getElem?_eq_some_iff.mp hi).1
    have hvar := Literal.var_negate l
    have hlabel' : label s a maxDepth (-l).var m = .ok (found, m₁) := by rw [hvar]; exact hlabel
    obtain ⟨hs₁, he₁, hfound, hfinal⟩ := label_spec hj maxDepth _ hlt hi h hlabel'
    rw [hvar] at hfound
    obtain ⟨hs, he, hsub, hmem, -⟩ := ih (fun k hk => hls k (List.mem_cons_of_mem _ hk)) hs₁ hrest
    have hlast := he.final _ found hfinal hfound
    have hstays : found = .poison ∨ found = .keep ↔ found ≠ .removable := by
      cases found with
      | pending => exact absurd rfl hfinal
      | poison => decide
      | removable => decide
      | keep => decide
    have hsplit : ∀ k : Literal, k ∈ (if found = .poison ∨ found = .keep then l :: rest else rest) ↔
        (k = l ∧ found ≠ .removable) ∨ k ∈ rest := by
      intro k
      rw [← hstays]
      split
      · rename_i hk
        rw [List.mem_cons, and_iff_left hk]
      · rename_i hk
        rw [or_iff_right fun hkl => hk hkl.2]
    refine ⟨hs, (he₁.mono hlt).trans he, ?_, fun k hk => ?_, fun first hfirst hkeep => ?_⟩
    · split
      · exact hsub.cons_cons l
      · exact hsub.cons l
    · rw [hsplit]
      by_cases hin : k ∈ ls
      · obtain ⟨hopen, hiff⟩ := hmem k hin
        refine ⟨hopen, fun hor => ?_, fun hne => Or.inr (hiff.mpr hne)⟩
        rcases hor with ⟨rfl, hne⟩ | hkept
        · rw [hlast]
          exact fun heq => hne (Option.some.inj heq)
        · exact hiff.mp hkept
      · obtain rfl : k = l := (List.mem_cons.mp hk).resolve_right hin
        rw [hlast, or_iff_left fun hkept => hin (hsub.subset hkept)]
        refine ⟨fun hopen => hopen found hfinal hlast, fun hne heq => hne.2 (Option.some.inj heq),
          fun hne => ⟨rfl, fun heq => hne (heq ▸ rfl)⟩⟩
    · cases hfirst
      have hkeep' := he₁.final _ .keep (by decide) hkeep
      rw [hfound] at hkeep'
      cases hkeep'
      rfl

omit [CustomConstraint κ] in
/-- At first the variables of the clause are labelled, and those that stay for sure are kept. -/
theorem labels_ofClause (a : Assignment) (ls : List Literal) (m : Minimiser) (v : Nat) :
    (m.ofClause a ls).labels[v]? =
      if v ∈ ls.map Literal.var then
        some (if a.levelOf v == a.decisionLevel || (a.reason? v).isNone then .keep else .pending)
      else m.labels[v]? := by
  induction ls generalizing m with
  | nil => rfl
  | cons l ls ih =>
    have hget : ∀ w : Nat, (m.enter a l).labels[w]? = if l.var = w then
        some (if a.levelOf w == a.decisionLevel || (a.reason? w).isNone then .keep else .pending)
        else m.labels[w]? := by
      intro w
      have hrun : (m.enter a l).labels = m.labels.insert l.var
        (if a.levelOf l.var == a.decisionLevel || (a.reason? l.var).isNone then .keep
          else .pending) := rfl
      rw [hrun, getElem?_insert]
      by_cases hw : l.var = w
      · rw [if_pos hw, if_pos hw, hw]
      · rw [if_neg hw, if_neg hw]
    show ((m.enter a l).ofClause a ls).labels[v]? = _
    rw [ih, hget]
    by_cases hv : v ∈ ls.map Literal.var
    · have hv' : v ∈ (l :: ls).map Literal.var := List.mem_cons_of_mem _ hv
      rw [if_pos hv, if_pos hv']
    · by_cases hl : l.var = v
      · have hv' : v ∈ (l :: ls).map Literal.var := List.mem_cons.mpr (Or.inl hl.symm)
        rw [if_neg hv, if_pos hl, if_pos hv']
      · have hv' : v ∉ (l :: ls).map Literal.var := by
          rw [List.map_cons, List.mem_cons]
          rintro (rfl | hmem)
          · exact hl rfl
          · exact hv hmem
        rw [if_neg hv, if_neg hl, if_neg hv']

/-- Before anything was followed back nothing is removable, and just the clause is labelled. -/
theorem sound_ofClause (ls : List Literal) :
    Sound s a (ls.map Literal.var) (empty.ofClause a ls) := by
  have hlabels := labels_ofClause a ls empty
  have hempty : ∀ v : Nat, empty.labels[v]? = none := fun v => Std.HashMap.getElem?_empty
  refine ⟨fun v hv => ?_, fun v hv => ?_, fun v hv => ?_⟩
  · rw [hlabels] at hv
    split at hv
    · split at hv <;> cases hv
    · rw [hempty] at hv
      cases hv
  · by_contra hnot
    rw [hlabels, if_neg hnot, hempty] at hv
    cases hv
  · by_contra hnot
    rw [hlabels, if_neg hnot, hempty] at hv
    cases hv

/-- What goes is labelled as removable, and so goes back to what is kept. -/
theorem removeImplied_spec (hj : s.Justifies a) {first : Literal} {lower kept : List Literal}
    (hls : ∀ l ∈ first :: lower, -l ∈ a.trues) (hfirst : a.levelOf first.var = a.decisionLevel)
    {m' : Minimiser} (hrun : removeImplied s a (first :: lower) empty = .ok (kept, m')) :
    (kept.Sublist (first :: lower) ∧ kept.head? = some first ∧
      ∀ l ∈ first :: lower, s.Rests a kept l.var) ∧ m' = empty := by
  unfold removeImplied at hrun
  obtain ⟨⟨kept', m₁⟩, hremove, hrun⟩ := ok_of_bind hrun
  cases hrun
  obtain ⟨hs, -, hsub, hmem, hhead⟩ := removeLabelled_spec hj hls (sound_ofClause _) hremove
  have hstep : ∀ v, (m₁.labels[v]? = some .removable ∨ m₁.labels[v]? = some .keep) →
      (∃ m ∈ kept, m.var = v) ∨ ∃ reason, s.reasonOf a v = .ok (some reason) ∧
        ∀ n ∈ reason, a.levelOf n.var ≠ 0 →
          m₁.labels[n.var]? = some .removable ∨ m₁.labels[n.var]? = some .keep := by
    rintro v (hr | hk)
    · exact Or.inr (hs.removable v hr)
    · obtain ⟨l, hl, rfl⟩ := List.mem_map.mp (hs.keep v hk)
      exact Or.inl ⟨l, (hmem l hl).2.mpr (by rw [hk]; exact nofun), rfl⟩
  refine ⟨⟨hsub, hhead first rfl ?_, fun l hl => ?_⟩, rfl⟩
  · have hin : first.var ∈ (first :: lower).map Literal.var := List.mem_cons_self
    rw [labels_ofClause, if_pos hin]
    simp [hfirst]
  · by_cases hkept : l ∈ kept
    · exact .kept hkept
    · have hr : m₁.labels[l.var]? = some .removable := not_not.mp fun hne =>
          hkept ((hmem l hl).2.mpr hne)
      obtain ⟨i, hi⟩ := List.mem_iff_getElem?.mp (hls l hl)
      have hrests := Arena.Rests.of_closed hj hstep hi (Or.inl (by rw [Literal.var_negate, hr]))
      rwa [Literal.var_negate] at hrests

/-! ### There always are labels -/

omit [CustomConstraint κ] in
theorem anyPoison_total {f : Nat → Minimiser → Except Fault (Label × Minimiser)} {ls : List Literal}
    (hf : ∀ l ∈ ls, a.levelOf l.var ≠ 0 → ∀ m, ∃ x, f l.var m = .ok x) (m : Minimiser) :
    ∃ x, anyPoison a f ls m = .ok x := by
  induction ls generalizing m with
  | nil => exact ⟨_, rfl⟩
  | cons l ls ih =>
    have ih' := ih fun k hk => hf k (List.mem_cons_of_mem _ hk)
    unfold anyPoison
    split
    · exact ih' m
    · rename_i hlevel
      refine exists_ok_bind (hf l List.mem_cons_self hlevel m) fun found _ => ?_
      dsimp only
      split
      · exact ⟨_, rfl⟩
      · exact ih' found.2

theorem ofReason_total (hj : s.Justifies a) {f : Nat → Minimiser → Except Fault (Label × Minimiser)}
    {v : Nat} (hf : ∀ reason, s.reasonOf a v = .ok (some reason) → ∀ l ∈ reason,
      a.levelOf l.var ≠ 0 → ∀ m, ∃ x, f l.var m = .ok x) (m : Minimiser) :
    ∃ x, ofReason s a f v m = .ok x := by
  refine exists_ok_bind (hj.reasonOf_total v) fun reason? hreason => ?_
  split
  · exact ⟨_, rfl⟩
  · split
    · refine exists_ok_bind (anyPoison_total (hf _ hreason) m) fun poisoned _ => ?_
      dsimp only
      split
      · exact ⟨_, rfl⟩
      · exact ⟨_, rfl⟩
    · exact ⟨_, rfl⟩

theorem label_total (hj : s.Justifies a) (depth v : Nat) (m : Minimiser) :
    ∃ x, label s a depth v m = .ok x := by
  induction depth generalizing v m with
  | zero =>
    rcases m.final_or_open v with ⟨found, hne, hm⟩ | hopen
    · exact ⟨_, label_of_final hne hm⟩
    · exact ⟨_, label_zero_of_open hopen⟩
  | succ depth ih =>
    rcases m.final_or_open v with ⟨found, hne, hm⟩ | hopen
    · exact ⟨_, label_of_final hne hm⟩
    · rw [label_succ_of_open hopen]
      exact exists_ok_bind (ofReason_total hj (fun _ _ l _ _ m => ih l.var m) m) fun _ _ => ⟨_, rfl⟩

theorem removeLabelled_total (hj : s.Justifies a) (ls : List Literal) (m : Minimiser) :
    ∃ x, removeLabelled s a ls m = .ok x := by
  induction ls generalizing m with
  | nil => exact ⟨_, rfl⟩
  | cons l ls ih =>
    exact exists_ok_bind (label_total hj maxDepth l.var m) fun found _ =>
      exists_ok_bind (ih found.2) fun kept _ => ⟨_, rfl⟩

theorem removeImplied_total (hj : s.Justifies a) (ls : List Literal) (m : Minimiser) :
    ∃ x, removeImplied s a ls m = .ok x :=
  exists_ok_bind (removeLabelled_total hj ls _) fun _ _ => ⟨_, rfl⟩

end Minimiser

end ClauseLearning
