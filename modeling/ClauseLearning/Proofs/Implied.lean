import ClauseLearning.Proofs.Linking
import ClauseLearning.Proofs.Running

/-!
# What the rest of a clause implies

A literal of a clause is implied by the rest if no way back from it, along reasons, comes to a
decision outside of the clause before it comes to a literal of the clause or to a root fact
(`Arena.Escapes`). As long as the limit of depth cuts nothing off, the expensive rule removes just
these literals: a label tells whether its variable escapes (`Minimiser.Honest`), also where a path
was given up because its level does not occur in the clause. A value of such a level escapes, since
every value but the decision has an antecedent of its own level.

* `Arena.Linked.escapes`: levels that do not occur in the clause.
* `Minimiser.follow`: labelling without a limit of depth; `Minimiser.follow_total`: chains that are
  short enough are followed.
* `Minimiser.follow_spec`: labels are honest.
* `Minimiser.removeImplied_iff`: the literals that are kept.
* `Engine.Reachable.removes_implied`: every clause that a search learns.
-/

namespace ClauseLearning

variable {κ : Type} [CustomConstraint κ] {s : Arena κ} {a : Assignment} {vs : List Nat}

/-! ## Escaping -/

namespace Arena

/-- There is a way back from the value of `v` to that of `w` that meets neither a root fact nor,
behind `v`, a variable of the clause. -/
def Strays (s : Arena κ) (a : Assignment) (vs : List Nat) : Nat → Nat → Prop :=
  Relation.ReflTransGen fun v w => s.Antecedent a v w ∧ w ∉ vs

/-- Some way back comes to a decision outside of the clause, or the value itself is decided. -/
def Escapes (s : Arena κ) (a : Assignment) (vs : List Nat) (v : Nat) : Prop :=
  ∃ w, s.Strays a vs v w ∧ a.reason? w = none

theorem Escapes.of_none {v : Nat} (h : a.reason? v = none) : s.Escapes a vs v := ⟨v, .refl, h⟩

theorem Escapes.of_antecedent {v w : Nat} (h : s.Escapes a vs w) (hstep : s.Antecedent a v w)
    (hw : w ∉ vs) : s.Escapes a vs v := by
  obtain ⟨u, hstrays, hu⟩ := h
  exact ⟨u, .head ⟨hstep, hw⟩ hstrays, hu⟩

/-- What has a reason of nothing but the clause and root facts does not escape. -/
theorem not_escapes_of_reason {v : Nat} {reason : List Literal}
    (hreason : s.reasonOf a v = .ok (some reason))
    (hvs : ∀ m ∈ reason, a.levelOf m.var ≠ 0 → m.var ∈ vs) : ¬ s.Escapes a vs v := by
  rintro ⟨w, hstrays, hw⟩
  rcases hstrays.cases_head with rfl | ⟨u, ⟨hstep, hu⟩, -⟩
  · exact reason?_ne_none hreason hw
  · obtain ⟨hlevel, m, hm, rfl⟩ := (Antecedent.of_reason hreason).mp hstep
    exact hu (hvs m hm hlevel)

/-- Chains of antecedents are no longer than the trail. -/
theorem Justifies.length_le_of_isChain (hj : s.Justifies a) {i : Nat} {l : Literal}
    (hl : a.trues[i]? = some l) {vs : List Nat} (h : (l.var :: vs).IsChain (s.Antecedent a)) :
    vs.length ≤ i := by
  induction vs generalizing i l with
  | nil => exact Nat.zero_le i
  | cons w vs ih =>
    obtain ⟨hstep, hrest⟩ := List.isChain_cons_cons.mp h
    obtain ⟨j, m, hji, hm, rfl⟩ := hj.of_antecedent hl hstep
    have hle := ih hm hrest
    rw [List.length_cons]
    omega

/-- A value whose level does not occur in the clause goes back to the decision of that level. -/
theorem Linked.escapes (h : s.Linked a) (hj : s.Justifies a) {i : Nat} {l : Literal}
    (hl : a.trues[i]? = some l) (hlevel : a.levelOf l.var ≠ 0)
    (hvs : ∀ v ∈ vs, a.levelOf v ≠ a.levelOf l.var) : s.Escapes a vs l.var := by
  induction i using Nat.strongRecOn generalizing l with
  | ind i ih =>
    obtain ⟨reason?, hreason⟩ := hj.reasonOf_total l.var
    cases reason? with
    | none => exact .of_none (hj.reason?_of_reasonOf hl hreason)
    | some reason =>
      obtain ⟨w, hw, hsame⟩ := h l.var ⟨reason, hreason⟩ hlevel
      obtain ⟨j, m, hji, hm, rfl⟩ := hj.of_antecedent hl hw
      rw [← hsame] at hlevel hvs
      exact (ih j hji hm hlevel hvs).of_antecedent hw fun hmem => hvs _ hmem rfl

end Arena

namespace Minimiser

/-- What follows from the rest of the clause does not escape. -/
theorem Sound.not_escapes {m : Minimiser} (h : Sound s a vs m) {v : Nat}
    (hv : m.labels[v]? = some .removable) : ¬ s.Escapes a vs v := by
  have hall : ∀ u, s.Strays a vs v u → m.labels[u]? = some .removable := by
    intro u hstrays
    induction hstrays with
    | refl => exact hv
    | tail _ hstep ih =>
      obtain ⟨hantecedent, hout⟩ := hstep
      obtain ⟨reason, hreason, hbehind⟩ := h.removable _ ih
      obtain ⟨hlevel, n, hn, rfl⟩ := (Arena.Antecedent.of_reason hreason).mp hantecedent
      rcases hbehind n hn hlevel with hr | hk
      · exact hr
      · exact absurd (h.keep _ hk) hout
  rintro ⟨u, hstrays, hu⟩
  obtain ⟨reason, hreason, -⟩ := h.removable _ (hall u hstrays)
  exact Arena.reason?_ne_none hreason hu

/-! ## Labelling without a limit -/

/-- As `label`, but it is a fault if a chain of more variables than allowed would have to be
followed. -/
def follow (s : Arena κ) (a : Assignment) :
    Nat → Nat → Minimiser → Except Fault (Label × Minimiser)
  | depth, v, m =>
    match m.labels[v]? with
    | some .poison => .ok (.poison, m)
    | some .removable => .ok (.removable, m)
    | some .keep => .ok (.keep, m)
    | _ => do
      let (found, m) ←
        match depth with
        | 0 => .error .outOfSteps
        | depth + 1 => ofReason s a (follow s a depth) v m
      match m with
      | ⟨labels, levels⟩ => return (found, ⟨labels.insert v found, levels⟩)

/-- Labels literals one after the other. -/
def followAll (s : Arena κ) (a : Assignment) : List Literal → Minimiser → Except Fault Minimiser
  | [], m => .ok m
  | l :: ls, m => do
    let (_, m) ← follow s a maxDepth l.var m
    followAll s a ls m

/-- For no literal of the clause is a chain followed that is longer than `maxDepth`. -/
def Uncut (s : Arena κ) (a : Assignment) (ls : List Literal) : Prop :=
  ∃ m, followAll s a ls (empty.ofClause a ls) = .ok m

section

variable {f g : Nat → Minimiser → Except Fault (Label × Minimiser)}

omit [CustomConstraint κ] in
theorem anyPoison_mono (hfg : ∀ {v m x}, f v m = .ok x → g v m = .ok x) {ls : List Literal}
    {m : Minimiser} {x : Bool × Minimiser} (hrun : anyPoison a f ls m = .ok x) :
    anyPoison a g ls m = .ok x := by
  induction ls generalizing m with
  | nil => exact hrun
  | cons l ls ih =>
    unfold anyPoison at hrun ⊢
    by_cases hzero : a.levelOf l.var = 0
    · rw [if_pos hzero] at hrun ⊢
      exact ih hrun
    · rw [if_neg hzero] at hrun ⊢
      obtain ⟨⟨found, m₁⟩, hf, hrun⟩ := ok_of_bind hrun
      rw [hfg hf]
      dsimp only [bind, Except.bind] at hrun ⊢
      by_cases hpoison : found = .poison
      · rw [if_pos hpoison] at hrun ⊢
        exact hrun
      · rw [if_neg hpoison] at hrun ⊢
        exact ih hrun

theorem ofReason_mono (hfg : ∀ {v m x}, f v m = .ok x → g v m = .ok x) {v : Nat} {m : Minimiser}
    {x : Label × Minimiser} (hrun : ofReason s a f v m = .ok x) : ofReason s a g v m = .ok x := by
  unfold ofReason at hrun ⊢
  obtain ⟨reason?, hreason, hrun⟩ := ok_of_bind hrun
  rw [hreason]
  cases reason? with
  | none => exact hrun
  | some reason =>
    dsimp only [bind, Except.bind] at hrun ⊢
    by_cases hlevel : m.levels.contains (a.levelOf v) = true
    · rw [if_pos hlevel] at hrun ⊢
      obtain ⟨poisoned, hany, hrun⟩ := ok_of_bind hrun
      rw [anyPoison_mono hfg hany]
      exact hrun
    · rw [if_neg hlevel] at hrun ⊢
      exact hrun

end

/-- A label is known, or the reason gives it. -/
theorem follow_cases {depth v : Nat} {m m' : Minimiser} {found : Label}
    (hrun : follow s a depth v m = .ok (found, m')) :
    (m.labels[v]? = some found ∧ found ≠ .pending ∧ m' = m) ∨
      (m.Open v ∧ ∃ k m₁, depth = k + 1 ∧ ofReason s a (follow s a k) v m = .ok (found, m₁) ∧
        m' = ⟨m₁.labels.insert v found, m₁.levels⟩) := by
  unfold follow at hrun
  split at hrun
  · cases hrun
    exact Or.inl ⟨‹_›, nofun, rfl⟩
  · cases hrun
    exact Or.inl ⟨‹_›, nofun, rfl⟩
  · cases hrun
    exact Or.inl ⟨‹_›, nofun, rfl⟩
  · rename_i hpoison hremovable hkeep
    have hopen : m.Open v := by
      intro other hne hm
      cases other with
      | pending => exact hne rfl
      | poison => exact hpoison hm
      | removable => exact hremovable hm
      | keep => exact hkeep hm
    cases depth with
    | zero => cases hrun
    | succ k =>
      obtain ⟨⟨found₁, m₁⟩, hreason, hrun⟩ := ok_of_bind hrun
      cases hrun
      exact Or.inr ⟨hopen, k, m₁, rfl, hreason, rfl⟩

/-- What is followed to the end is labelled so. -/
theorem label_of_follow {depth v : Nat} {m : Minimiser} {x : Label × Minimiser}
    (hrun : follow s a depth v m = .ok x) : label s a depth v m = .ok x := by
  induction depth generalizing v m x with
  | zero =>
    obtain ⟨found, m'⟩ := x
    rcases follow_cases hrun with ⟨hm, hne, rfl⟩ | ⟨-, k, m₁, hk, -⟩
    · exact label_of_final hne hm
    · cases hk
  | succ depth ih =>
    obtain ⟨found, m'⟩ := x
    rcases follow_cases hrun with ⟨hm, hne, rfl⟩ | ⟨hopen, k, m₁, hk, hreason, rfl⟩
    · exact label_of_final hne hm
    · cases hk
      rw [label_succ_of_open hopen, ofReason_mono ih hreason]
      rfl

/-- Chains that are short enough are followed to the end. -/
theorem follow_total (hj : s.Justifies a) {depth v : Nat}
    (hchains : ∀ vs, (v :: vs).IsChain (s.Antecedent a) → (v :: vs).length ≤ depth)
    (m : Minimiser) : ∃ x, follow s a depth v m = .ok x := by
  induction depth generalizing v m with
  | zero => exact absurd (hchains [] (.singleton v)) (by simp)
  | succ depth ih =>
    unfold follow
    split
    · exact ⟨_, rfl⟩
    · exact ⟨_, rfl⟩
    · exact ⟨_, rfl⟩
    · refine exists_ok_bind (ofReason_total hj (fun reason hreason l hl hlevel m => ?_) m)
        fun _ _ => ⟨_, rfl⟩
      refine ih (fun vs hvs => ?_) m
      have hstep : s.Antecedent a v l.var :=
        (Arena.Antecedent.of_reason hreason).mpr ⟨hlevel, l, hl, rfl⟩
      exact Nat.le_of_succ_le_succ (hchains (l.var :: vs) (.cons_cons hstep hvs))

theorem followAll_total (hj : s.Justifies a) {ls : List Literal}
    (hchains : ∀ l ∈ ls, ∀ vs, (l.var :: vs).IsChain (s.Antecedent a) →
      (l.var :: vs).length ≤ maxDepth) (m : Minimiser) : ∃ m', followAll s a ls m = .ok m' := by
  induction ls generalizing m with
  | nil => exact ⟨m, rfl⟩
  | cons l ls ih =>
    exact exists_ok_bind (follow_total hj (hchains l List.mem_cons_self) m) fun found _ =>
      ih (fun k hk => hchains k (List.mem_cons_of_mem _ hk)) found.2

/-- Nothing is cut off if there is no longer chain of antecedents behind the clause. -/
theorem Uncut.of_chains (hj : s.Justifies a) {ls : List Literal}
    (hchains : ∀ l ∈ ls, ∀ vs, (l.var :: vs).IsChain (s.Antecedent a) →
      (l.var :: vs).length ≤ maxDepth) : Uncut s a ls :=
  followAll_total hj hchains _

/-- Nothing is cut off on a short trail. -/
theorem Uncut.of_length (hj : s.Justifies a) {ls : List Literal} (hls : ∀ l ∈ ls, -l ∈ a.trues)
    (hshort : a.trues.length ≤ maxDepth) : Uncut s a ls := by
  refine .of_chains hj fun l hl vs hvs => ?_
  obtain ⟨i, hi⟩ := List.mem_iff_getElem?.mp (hls l hl)
  have hlt := (List.getElem?_eq_some_iff.mp hi).1
  rw [← Literal.var_negate l] at hvs
  have hle := hj.length_le_of_isChain hi hvs
  rw [List.length_cons]
  omega

/-! ## Labels are honest -/

/-- The clause is entered in the tables, and what is labelled as poison or kept escapes, other than
the literal of the current level. -/
structure Honest (s : Arena κ) (a : Assignment) (vs : List Nat) (m : Minimiser) : Prop where
  entered : ∀ v ∈ vs, m.labels[v]? ≠ none
  levels : ∀ v ∈ vs, m.levels.contains (a.levelOf v) = true
  pending : ∀ v : Nat, m.labels[v]? = some .pending → a.reason? v ≠ none
  poison : ∀ v : Nat, m.labels[v]? = some .poison → v ∉ vs ∧ s.Escapes a vs v
  keep : ∀ v : Nat, m.labels[v]? = some .keep → a.levelOf v = a.decisionLevel ∨ s.Escapes a vs v

theorem Honest.insert {m : Minimiser} (h : Honest s a vs m) {v : Nat} {found : Label}
    (hfinal : found ≠ .pending) (hpoison : found = .poison → v ∉ vs ∧ s.Escapes a vs v)
    (hkeep : found = .keep → s.Escapes a vs v) :
    Honest s a vs ⟨m.labels.insert v found, m.levels⟩ := by
  have hget : ∀ w : Nat, (m.labels.insert v found)[w]? =
      if v = w then some found else m.labels[w]? := fun w => getElem?_insert ..
  refine ⟨fun w hw => ?_, h.levels, fun w hw => ?_, fun w hw => ?_, fun w hw => ?_⟩
  · rw [hget]
    split
    · exact nofun
    · exact h.entered w hw
  · rw [hget] at hw
    split at hw
    · exact absurd (Option.some.inj hw) hfinal
    · exact h.pending w hw
  · rw [hget] at hw
    split at hw
    · rename_i hvw
      exact hvw ▸ hpoison (Option.some.inj hw)
    · exact h.poison w hw
  · rw [hget] at hw
    split at hw
    · rename_i hvw
      exact Or.inr (hvw ▸ hkeep (Option.some.inj hw))
    · exact h.keep w hw

/-- What a function promises, that labels the variables before a position, about their labels. -/
def Tells (s : Arena κ) (a : Assignment) (vs : List Nat) (i : Nat)
    (f : Nat → Minimiser → Except Fault (Label × Minimiser)) : Prop :=
  ∀ {j l m m' found}, j < i → a.trues[j]? = some l → a.levelOf l.var ≠ 0 → Sound s a vs m →
    Honest s a vs m → f l.var m = .ok (found, m') → Honest s a vs m'

section

variable {f : Nat → Minimiser → Except Fault (Label × Minimiser)} {i : Nat} {m m' : Minimiser}

theorem anyPoison_honest (hf : Labels s a vs i f) (ht : Tells s a vs i f) {ls : List Literal}
    (hls : ∀ l ∈ ls, -l ∈ a.trues.take i) (h : Sound s a vs m) (hh : Honest s a vs m)
    {poisoned : Bool} (hrun : anyPoison a f ls m = .ok (poisoned, m')) :
    Honest s a vs m' ∧ (poisoned = true →
      ∃ l ∈ ls, a.levelOf l.var ≠ 0 ∧ l.var ∉ vs ∧ s.Escapes a vs l.var) := by
  induction ls generalizing m with
  | nil =>
    cases hrun
    exact ⟨hh, nofun⟩
  | cons l ls ih =>
    have hrest : ∀ n ∈ ls, -n ∈ a.trues.take i := fun n hn => hls n (List.mem_cons_of_mem _ hn)
    unfold anyPoison at hrun
    split at hrun
    · obtain ⟨hh', hp⟩ := ih hrest h hh hrun
      refine ⟨hh', fun hpoisoned => ?_⟩
      obtain ⟨k, hk, hescapes⟩ := hp hpoisoned
      exact ⟨k, List.mem_cons_of_mem _ hk, hescapes⟩
    · rename_i hlevel
      obtain ⟨⟨found, m₁⟩, hlabel, hrun⟩ := ok_of_bind hrun
      obtain ⟨j, hj, hlj⟩ := mem_take_iff.mp (hls l List.mem_cons_self)
      have hvar := Literal.var_negate l
      rw [← hvar] at hlabel hlevel
      obtain ⟨hs₁, -, hfound, -⟩ := hf hj hlj h hlabel
      have hh₁ := ht hj hlj hlevel h hh hlabel
      rw [hvar] at hfound hlevel
      dsimp only at hrun
      split at hrun
      · rename_i hpoison
        cases hrun
        rw [hpoison] at hfound
        exact ⟨hh₁, fun _ => ⟨l, List.mem_cons_self, hlevel, hh₁.poison l.var hfound⟩⟩
      · obtain ⟨hh', hp⟩ := ih hrest hs₁ hh₁ hrun
        refine ⟨hh', fun hpoisoned => ?_⟩
        obtain ⟨k, hk, hescapes⟩ := hp hpoisoned
        exact ⟨k, List.mem_cons_of_mem _ hk, hescapes⟩

/-- A variable that its reason does not explain by the clause escapes. -/
theorem ofReason_honest (hj : s.Justifies a) (hlinked : s.Linked a) {l : Literal}
    (hl : a.trues[i]? = some l) (hlevel : a.levelOf l.var ≠ 0) (hf : Labels s a vs i f)
    (ht : Tells s a vs i f) (h : Sound s a vs m) (hh : Honest s a vs m) (hopen : m.Open l.var)
    {found : Label} (hrun : ofReason s a f l.var m = .ok (found, m')) :
    Honest s a vs m' ∧ (found = .poison → l.var ∉ vs ∧ s.Escapes a vs l.var) ∧
      (found = .keep → s.Escapes a vs l.var) := by
  -- what is in the clause and has no final label is still to be followed back
  have hpending : l.var ∈ vs → m.labels[l.var]? = some .pending := fun hmem => by
    obtain ⟨other, hother⟩ := Option.ne_none_iff_exists'.mp (hh.entered _ hmem)
    by_cases hne : other = .pending
    · rw [hother, hne]
    · exact absurd hother (hopen other hne)
  unfold ofReason at hrun
  obtain ⟨reason?, hreason, hrun⟩ := ok_of_bind hrun
  cases reason? with
  | none =>
    cases hrun
    have hnone := hj.reason?_of_reasonOf hl hreason
    exact ⟨hh, fun _ => ⟨fun hmem => hh.pending _ (hpending hmem) hnone, .of_none hnone⟩, nofun⟩
  | some reason =>
    obtain ⟨hbefore, -⟩ := hj.reasonOf_spec hl hreason
    dsimp only at hrun
    split at hrun
    · obtain ⟨⟨poisoned, m₁⟩, hany, hrun⟩ := ok_of_bind hrun
      obtain ⟨hh₁, hp⟩ := anyPoison_honest hf ht hbefore h hh hany
      obtain ⟨-, he, -⟩ := anyPoison_spec hf hbefore h hany
      have hsame := he.labels_eq hj.consistent hl
      cases poisoned with
      | false =>
        cases hrun
        exact ⟨hh₁, nofun, nofun⟩
      | true =>
        obtain ⟨n, hn, hlevel, hout, hescapes⟩ := hp rfl
        have hstep : s.Antecedent a l.var n.var :=
          (Arena.Antecedent.of_reason hreason).mpr ⟨hlevel, n, hn, rfl⟩
        have hescapes' := hescapes.of_antecedent hstep hout
        cases hrun
        refine ⟨hh₁, fun hpoison => ⟨fun hmem => ?_, hescapes'⟩, fun _ => hescapes'⟩
        rw [if_pos (by rw [hsame, hpending hmem]; rfl)] at hpoison
        cases hpoison
    · rename_i hout
      cases hrun
      have hvs : ∀ v ∈ vs, a.levelOf v ≠ a.levelOf l.var := fun v hv hsame =>
        hout (hsame ▸ hh.levels v hv)
      exact ⟨hh, fun _ => ⟨fun hmem => hvs _ hmem rfl, hlinked.escapes hj hl hlevel hvs⟩, nofun⟩

end

theorem follow_labels (hj : s.Justifies a) (depth i : Nat) : Labels s a vs i (follow s a depth) :=
  fun hlt hl h hrun => label_spec hj depth i hlt hl h (label_of_follow hrun)

/-- Labels stay honest as long as nothing is cut off. -/
theorem follow_spec (hj : s.Justifies a) (hlinked : s.Linked a) (depth i : Nat) :
    Tells s a vs i (follow s a depth) := by
  induction depth generalizing i with
  | zero =>
    intro j l m m' found hlt hl hlevel h hh hrun
    rcases follow_cases hrun with ⟨-, -, rfl⟩ | ⟨-, k, m₁, hk, -⟩
    · exact hh
    · cases hk
  | succ depth ih =>
    intro j l m m' found hlt hl hlevel h hh hrun
    rcases follow_cases hrun with ⟨-, -, rfl⟩ | ⟨hopen, k, m₁, hk, hreason, rfl⟩
    · exact hh
    · cases hk
      have hf : Labels s a vs j (follow s a depth) := follow_labels hj depth j
      obtain ⟨hh₁, hpoison, hkeep⟩ :=
        ofReason_honest hj hlinked hl hlevel hf (ih j) h hh hopen hreason
      obtain ⟨-, -, hfinal, -⟩ := ofReason_spec hj hl hf h hreason
      exact hh₁.insert hfinal hpoison hkeep

/-- Following all literals of the clause labels them as the removal does. -/
theorem removeLabelled_of_followAll (hj : s.Justifies a) (hlinked : s.Linked a) {ls : List Literal}
    (hls : ∀ l ∈ ls, -l ∈ a.trues ∧ a.levelOf l.var ≠ 0) {m m' : Minimiser} (h : Sound s a vs m)
    (hh : Honest s a vs m) (hrun : followAll s a ls m = .ok m') :
    Honest s a vs m' ∧ ∃ kept, removeLabelled s a ls m = .ok (kept, m') := by
  induction ls generalizing m with
  | nil =>
    cases hrun
    exact ⟨hh, [], rfl⟩
  | cons l ls ih =>
    obtain ⟨⟨found, m₁⟩, hfollow, hrun⟩ := ok_of_bind hrun
    obtain ⟨hl, hlevel⟩ := hls l List.mem_cons_self
    obtain ⟨i, hi⟩ := List.mem_iff_getElem?.mp hl
    have hvar := Literal.var_negate l
    have hfollow' : follow s a maxDepth (-l).var m = .ok (found, m₁) := by rw [hvar]; exact hfollow
    have hlt := Nat.lt_succ_self i
    obtain ⟨hs₁, -⟩ := follow_labels hj maxDepth _ hlt hi h hfollow'
    have hh₁ := follow_spec hj hlinked maxDepth _ hlt hi (by rwa [hvar]) h hh hfollow'
    obtain ⟨hh', ks, hremove⟩ := ih (fun k hk => hls k (List.mem_cons_of_mem _ hk)) hs₁ hh₁ hrun
    refine ⟨hh', ?_⟩
    unfold removeLabelled
    rw [label_of_follow hfollow]
    dsimp only [bind, Except.bind]
    rw [hremove]
    exact ⟨_, rfl⟩

omit [CustomConstraint κ] in
theorem levels_ofClause (a : Assignment) (ls : List Literal) (m : Minimiser) {n : Nat} :
    n ∈ (m.ofClause a ls).levels ↔ (∃ l ∈ ls, a.levelOf l.var = n) ∨ n ∈ m.levels := by
  induction ls generalizing m with
  | nil => simp [ofClause]
  | cons l ls ih =>
    show n ∈ ((m.enter a l).ofClause a ls).levels ↔ _
    have henter : (m.enter a l).levels = m.levels.insert (a.levelOf l.var) := rfl
    rw [ih, henter, Std.HashSet.mem_insert, beq_iff_eq, List.exists_mem_cons_iff]
    exact or_left_comm.trans or_assoc.symm

/-- Before anything was followed back, the literals of lower levels that are kept are decisions. -/
theorem honest_ofClause (ls : List Literal) :
    Honest s a (ls.map Literal.var) (empty.ofClause a ls) := by
  have hlabels := labels_ofClause a ls empty
  have hempty : ∀ v : Nat, empty.labels[v]? = none := fun v => Std.HashMap.getElem?_empty
  refine ⟨fun v hv => ?_, fun v hv => ?_, fun v hv => ?_, fun v hv => ?_, fun v hv => ?_⟩
  · rw [hlabels, if_pos hv]
    exact nofun
  · obtain ⟨l, hl, rfl⟩ := List.mem_map.mp hv
    rw [Std.HashSet.contains_iff_mem, levels_ofClause]
    exact Or.inl ⟨l, hl, rfl⟩
  · rw [hlabels] at hv
    split at hv
    · split at hv
      · cases hv
      · rename_i hfixed
        intro hnone
        simp [hnone] at hfixed
    · rw [hempty] at hv
      cases hv
  · rw [hlabels] at hv
    split at hv
    · split at hv <;> cases hv
    · rw [hempty] at hv
      cases hv
  · rw [hlabels] at hv
    split at hv
    · split at hv
      · rename_i hfixed
        rcases Bool.or_eq_true_iff.mp hfixed with hlevel | hnone
        · exact Or.inl (beq_iff_eq.mp hlevel)
        · exact Or.inr (.of_none (Option.isNone_iff_eq_none.mp hnone))
      · cases hv
    · rw [hempty] at hv
      cases hv

/-- If nothing is cut off, what stays below the current level is what escapes. -/
theorem removeImplied_iff (hj : s.Justifies a) (hlinked : s.Linked a) {first : Literal}
    {lower kept : List Literal} (hls : ∀ l ∈ first :: lower, -l ∈ a.trues ∧ a.levelOf l.var ≠ 0)
    (hlower : ∀ l ∈ lower, a.levelOf l.var ≠ a.decisionLevel) {m : Minimiser}
    (hrun : removeImplied s a (first :: lower) empty = .ok (kept, m))
    (huncut : Uncut s a (first :: lower)) :
    ∀ l ∈ lower, l ∉ kept ↔ a.reason? l.var ≠ none ∧
      ¬ s.Escapes a ((first :: lower).map Literal.var) l.var := by
  obtain ⟨m', hfollow⟩ := huncut
  obtain ⟨hh, kept', hremove⟩ :=
    removeLabelled_of_followAll hj hlinked hls (sound_ofClause _) (honest_ofClause _) hfollow
  unfold removeImplied at hrun
  rw [hremove] at hrun
  cases hrun
  obtain ⟨hs, -, -, hmem, -⟩ :=
    removeLabelled_spec hj (fun l hl => (hls l hl).1) (sound_ofClause _) hremove
  intro l hl
  obtain ⟨hopen, hiff⟩ := hmem l (List.mem_cons_of_mem _ hl)
  rw [hiff, not_not]
  constructor
  · intro hgone
    obtain ⟨reason, hreason, -⟩ := hs.removable _ hgone
    exact ⟨Arena.reason?_ne_none hreason, hs.not_escapes hgone⟩
  · rintro ⟨-, hstays⟩
    obtain ⟨found, hfinal, hfound⟩ := (m'.final_or_open l.var).resolve_right hopen
    cases found with
    | pending => exact absurd rfl hfinal
    | poison => exact absurd (hh.poison _ hfound).2 hstays
    | removable => exact hfound
    | keep => exact absurd ((hh.keep _ hfound).resolve_left (hlower l hl)) hstays

end Minimiser

/-! ## Conflicts of a search -/

namespace Engine

variable {e : Engine κ} {r : Reference}

/-- A conflict is analysed in the state `low`, where `d` is derived from it. -/
structure Derives (e : Engine κ) (r : Reference) (low : SearchState κ) (d : Derivation κ) :
    Prop where
  lowered : ∃ c, e.search.arena.get? r = some c ∧ e.search.backtrack
    (highestLevel e.search.assignment (c.reason e.search.assignment none)) = .ok low
  derived : Analyser.derive r low.assignment e.analyser.seen low.order low.learned low.arena = .ok d
  minimiser : e.analyser.minimiser = .empty
  justifies : d.arena.Justifies low.assignment
  linked : d.arena.Linked low.assignment
  follows : d.Follows low.arena low.assignment low.order low.learned

/-- From every conflict above the root something is derived. -/
theorem Reachable.exists_derives (h : Reachable (.searching (.conflict r)) e)
    (hfree : e.search.order.allowed = none) {c : Constraint κ} (hc : e.search.arena.get? r = some c)
    (hne : highestLevel e.search.assignment (c.reason e.search.assignment none) ≠ 0) :
    ∃ low d, e.Derives r low d := by
  have ho := h.orderly
  obtain ⟨-, c', hc', hv⟩ := ho.fits.at_stage
  cases hc.symm.trans hc'
  obtain ⟨low, hlow⟩ := exists_lowers ho.wellFormed ho.fits.honours hc hv hne
  have hw := hlow.wellFormed
  obtain ⟨c₁, hc₁, hv₁, hhighest⟩ := hlow.violated
  obtain ⟨c₂, hc₂, hback⟩ := hlow.lowered
  have hlinked := (h.linked trivial hfree).backtrack ho.wellFormed.search hback
  have hne₁ : highestLevel low.assignment (c₁.reason low.assignment none) ≠ 0 := by
    rw [hhighest]
    exact hlow.above
  obtain ⟨m, hm, hlevel⟩ := exists_highestLevel low.assignment hne₁
  obtain ⟨d, hd⟩ := Analyser.derive_total hw.justifies hlow.driven hc₁ hv₁ hlow.clean low.order
    hw.lists hlow.above ⟨m, hm, hlevel.trans hhighest⟩
  have hfollows := Analyser.derive_spec hw.justifies hc₁ hv₁ hlow.clean hw.order.valid hd
  exact ⟨low, d, ⟨c₂, hc₂, hback⟩, hd, hlow.clean.minimiser,
    hw.justifies.retagged hfollows.retagged,
    (hlinked.arena hw).retagged hfollows.retagged, hfollows⟩

/-- Whatever the rule, an analysis shrinks what is derived. -/
theorem Derives.analyse_eq {low : SearchState κ} {d : Derivation κ} (h : e.Derives r low d)
    {minimisation : Minimisation} {kept : List Literal} {an : Analyser}
    (hrun : Analyser.minimise d.arena low.assignment d.literals ⟨minimisation, d.seen, .empty⟩ =
      .ok (kept, an)) :
    Analyser.analyse r low.assignment ⟨minimisation, e.analyser.seen, e.analyser.minimiser⟩
      low.order low.learned low.arena = .ok (d.lesson low.assignment kept an) := by
  rw [Analyser.analyse_eq]
  show (Analyser.derive r low.assignment e.analyser.seen low.order low.learned low.arena >>= _) = _
  rw [h.derived, h.minimiser]
  show (Analyser.minimise d.arena low.assignment d.literals _ >>= _) = _
  rw [hrun]
  rfl

/-- From every clause that is learned the expensive rule removes literals behind the first, and
leaves the others in order and its tables empty. As long as nothing is cut off, it removes just
those that have a reason and do not escape. -/
theorem Reachable.removes_implied (h : Reachable (.searching (.conflict r)) e)
    (hfree : e.search.order.allowed = none) {c : Constraint κ} (hc : e.search.arena.get? r = some c)
    (hne : highestLevel e.search.assignment (c.reason e.search.assignment none) ≠ 0) :
    ∃ low d kept, e.Derives r low d ∧
      e.analyser.minimiser.removeImplied d.arena low.assignment d.literals = .ok (kept, .empty) ∧
      kept.Sublist d.literals ∧ kept.head? = some (-d.last) ∧
      (Minimiser.Uncut d.arena low.assignment d.literals → ∀ l ∈ d.lower,
        l ∉ kept ↔ low.assignment.reason? l.var ≠ none ∧
          ¬ d.arena.Escapes low.assignment (d.literals.map Literal.var) l.var) ∧
      Analyser.analyse r low.assignment ⟨.expensive, e.analyser.seen, e.analyser.minimiser⟩
        low.order low.learned low.arena =
          .ok (d.lesson low.assignment kept ⟨.expensive, d.seen, .empty⟩) := by
  obtain ⟨low, d, hd⟩ := h.exists_derives hfree hc hne
  have hlast : low.assignment.levelOf (-d.last).var = low.assignment.decisionLevel := by
    rw [Literal.var_negate, hd.follows.level]
  obtain ⟨⟨kept, m⟩, hrun⟩ := Minimiser.removeImplied_total hd.justifies d.literals .empty
  obtain ⟨⟨hsub, hhead, -⟩, rfl⟩ :=
    Minimiser.removeImplied_spec hd.justifies hd.follows.falsified hlast hrun
  refine ⟨low, d, kept, hd, ?_, hsub, hhead, fun huncut => ?_, hd.analyse_eq ?_⟩
  · rw [hd.minimiser]
    exact hrun
  · exact Minimiser.removeImplied_iff hd.justifies hd.linked
      (fun l hl => ⟨hd.follows.falsified l hl, hd.follows.levelOf_ne_zero l hl⟩)
      (fun l hl => ((hd.follows.lower l).mp hl).2.2) hrun huncut
  · show (Minimiser.empty.removeImplied d.arena low.assignment d.literals >>= _) = _
    rw [hrun]
    rfl

/-! ### A literal that is implied -/

/-- With `1`, `3` is true, and with that and `2`, `4` is; but `1`, `2` and `4` exclude each
other. -/
def withDetour : Engine Empty :=
  [⟨.make 1 false, .make 3 true, []⟩, ⟨.make 2 false, .make 3 false, [.make 4 true]⟩,
      ⟨.make 1 false, .make 2 false, [.make 4 false]⟩].foldl
    (fun e k => e.modifySearch fun s => (s.attach ⟨.clause k, .ofHandle 0⟩).2.2)
    ((make Options.standard).grow 4)

theorem reachable_withDetour : Reachable .resting withDetour := by
  have hstart : Reachable (.adding (make Options.standard : Engine Empty).search [])
      ((make Options.standard).grow 4) := .widened (.begun (.make _) rfl) 4
  refine .rested (((hstart.attached_clause (a := Assignment.empty.grow 4) rfl _ ?_ ?_ ?_ ?_ ?_
    ?_).attached_clause (a := Assignment.empty.grow 4) rfl _ ?_ ?_ ?_ ?_ ?_
    ?_).attached_clause (a := Assignment.empty.grow 4) rfl _ ?_ ?_ ?_ ?_ ?_ ?_)
  all_goals decide +kernel

/-- With `1` and `2` assumed, the last clause is violated. What is derived names `3`, which follows
from `1`. -/
theorem exists_conflict_withDetour :
    ∃ (e : Engine Empty) (c : Constraint Empty), Reachable (.searching (.conflict ⟨2⟩)) e ∧
      e.search.order.allowed = none ∧ e.search.arena.get? ⟨2⟩ = some c ∧
      highestLevel e.search.assignment (c.reason e.search.assignment none) ≠ 0 ∧
      ∀ low d, e.Derives ⟨2⟩ low d →
        d.lower = [.make 1 false, .make 3 false] ∧ low.assignment.trues.length = 4 ∧
          low.assignment.reason? 1 = none ∧
          (d.arena.reasonOf low.assignment 3).toOption = some (some [.make 1 false]) := by
  have hresult : (advance 5 .propagating (withDetour.posed [.make 1 true, .make 2 true])).any
      (fun x => Decidable.decide (x.1 = .conflict ⟨2⟩ ∧ x.2.search.order.allowed = none) &&
        ((x.2.search.arena.get? ⟨2⟩).any fun c => Decidable.decide
          (highestLevel x.2.search.assignment (c.reason x.2.search.assignment none) = 2)) &&
        (x.2.search.backtrack 2).toOption.any fun low =>
          (Analyser.derive ⟨2⟩ low.assignment x.2.analyser.seen low.order low.learned
            low.arena).toOption.any fun d => Decidable.decide
              (d.lower = [.make 1 false, .make 3 false] ∧ low.assignment.trues.length = 4 ∧
                low.assignment.reason? 1 = none ∧
                (d.arena.reasonOf low.assignment 3).toOption = some (some [.make 1 false]))) =
      true := by decide +kernel
  obtain ⟨⟨stage, e⟩, hadvance, hx⟩ := (Option.any_eq_true ..).mp hresult
  simp only [Bool.and_eq_true, decide_eq_true_eq] at hx
  obtain ⟨⟨⟨rfl, hfree⟩, hc⟩, hlow⟩ := hx
  obtain ⟨c, hc, hhighest⟩ := (Option.any_eq_true ..).mp hc
  have hhighest := of_decide_eq_true hhighest
  have hposed : Reachable (.searching .propagating)
      (withDetour.posed [.make 1 true, .make 2 true]) :=
    .posed reachable_withDetour rfl fun l hl => by
      rcases List.mem_pair.mp hl with rfl | rfl <;> decide
  refine ⟨e, c, hposed.reaches (reaches_of_advance hadvance), hfree, hc, by omega,
    fun low d hd => ?_⟩
  obtain ⟨c', hc', hback⟩ := hd.lowered
  cases hc.symm.trans hc'
  rw [hhighest] at hback
  rw [hback] at hlow
  obtain ⟨low', hlow', hd'⟩ := (Option.any_eq_true ..).mp hlow
  cases hlow'
  rw [hd.derived] at hd'
  exact of_decide_eq_true hd'

/-- As `3` follows from `1`, it goes. -/
theorem Reachable.removes_implied_of_withDetour :
    ∃ (e : Engine Empty) (low : SearchState Empty) (d : Derivation Empty) (kept : List Literal),
      Reachable (.searching (.conflict ⟨2⟩)) e ∧ e.search.order.allowed = none ∧
        e.Derives ⟨2⟩ low d ∧ Minimiser.Uncut d.arena low.assignment d.literals ∧
        e.analyser.minimiser.removeImplied d.arena low.assignment d.literals =
          .ok (kept, .empty) ∧
        kept.head? = some (-d.last) ∧ .make 1 false ∈ kept ∧ .make 3 false ∉ kept := by
  obtain ⟨e, c, h, hfree, hc, hne, hall⟩ := exists_conflict_withDetour
  obtain ⟨low, d, kept, hd, hrun, -, hhead, hremoves, -⟩ := Reachable.removes_implied h hfree hc hne
  obtain ⟨hlower, hlength, hdecision, hreason⟩ := hall low d hd
  have huncut : Minimiser.Uncut d.arena low.assignment d.literals :=
    .of_length hd.justifies hd.follows.falsified (by rw [hlength]; decide)
  have hiff := hremoves huncut
  rw [hlower] at hiff
  refine ⟨e, low, d, kept, h, hfree, hd, huncut, hrun, hhead, ?_, ?_⟩
  · by_contra hgone
    exact ((hiff _ (by decide)).mp hgone).1 hdecision
  · have hreason' : d.arena.reasonOf low.assignment 3 = .ok (some [.make 1 false]) := by
      cases hr : d.arena.reasonOf low.assignment 3 with
      | error fault =>
        rw [hr] at hreason
        cases hreason
      | ok reason =>
        rw [hr] at hreason
        rw [Option.some.inj hreason]
    refine (hiff _ (by decide)).mpr ⟨Arena.reason?_ne_none hreason',
      Arena.not_escapes_of_reason hreason' fun m hm _ => ?_⟩
    rw [List.mem_singleton.mp hm]
    exact List.mem_map_of_mem (List.mem_cons_of_mem _ (by rw [hlower]; decide))

end Engine

end ClauseLearning
