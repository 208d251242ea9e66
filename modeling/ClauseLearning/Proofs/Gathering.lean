import ClauseLearning.Proofs.Layouts

/-!
# What tokens amount to

The tokens behind what was read, together with what was read of the constraint at hand, make up the
constraints that are still to come: `Reader.Accounts` says so of a reader, the tokens ahead and the
formula that is read in the end. One token is read at a time.

* `Reader.accounts_number_iff`, `Reader.accounts_mark_iff`, `Reader.accounts_close_iff`,
  `Reader.accounts_header_iff`, `Reader.accounts_nil_iff`.
-/

namespace ClauseLearning

/-! ## Formulas in several steps -/

namespace Formula

/-- Adds constraints in order. -/
def extend (cs : List Constraint) (f : Formula) : Formula := cs.foldl (fun f c => f.add c) f

theorem constraints_extend (cs : List Constraint) (f : Formula) :
    (f.extend cs).constraints = f.constraints ++ cs := by
  induction cs generalizing f with
  | nil => rw [List.append_nil]; rfl
  | cons c cs ih =>
    change ((f.add c).extend cs).constraints = f.constraints ++ c :: cs
    rw [ih, constraints_add, List.append_assoc, List.singleton_append]

theorem foldl_max_natAbs (ns : List Int) (m : Nat) :
    ns.foldl (fun m n => max m n.natAbs) m = max m (maxVariable ns) := by
  induction ns generalizing m with
  | nil => exact (Nat.max_zero m).symm
  | cons n ns ih =>
    rw [maxVariable, List.foldl_cons, List.foldl_cons, ih, ih, Nat.zero_max, Nat.max_assoc]

theorem maxVariable_append (ns ms : List Int) :
    maxVariable (ns ++ ms) = max (maxVariable ns) (maxVariable ms) := by
  rw [maxVariable, List.foldl_append, foldl_max_natAbs]
  rfl

theorem numVariables_extend (cs : List Constraint) (f : Formula) :
    (f.extend cs).numVariables =
      max f.numVariables (maxVariable (cs.flatMap Constraint.numbers)) := by
  induction cs generalizing f with
  | nil => exact (Nat.max_zero _).symm
  | cons c cs ih =>
    change ((f.add c).extend cs).numVariables = _
    rw [ih, numVariables_add, List.flatMap_cons, maxVariable_append, Nat.max_assoc]

end Formula

namespace Dimacs

/-! ## Groups -/

theorem Token.append_inj {ns ms : List Int} {t u : Token} {ts us : List Token}
    (ht : ∀ n, t ≠ .number n) (hu : ∀ n, u ≠ .number n)
    (h : ns.map Token.number ++ t :: ts = ms.map Token.number ++ u :: us) :
    ns = ms ∧ t = u ∧ ts = us := by
  induction ns generalizing ms with
  | nil =>
    cases ms with
    | nil =>
      cases h
      exact ⟨rfl, rfl, rfl⟩
    | cons m ms => exact absurd (List.cons.inj h).1 (ht m)
  | cons n ns ih =>
    cases ms with
    | nil => exact absurd (List.cons.inj h).1.symm (hu n)
    | cons m ms =>
      obtain ⟨hn, hrest⟩ := List.cons.inj h
      obtain ⟨rfl, htail⟩ := ih hrest
      exact ⟨by rw [Token.number.inj hn], htail⟩

namespace Reader

variable {r r' : Reader} {ts : List Token} {f : Formula}

/-- The tokens that were read of the constraint at hand. -/
def pending (r : Reader) : List Token :=
  (if r.isParity then [.mark] else []) ++ r.current.reverse.map .number

/-- The constraint at hand, if it ends here. -/
def constraint (r : Reader) : Formula.Constraint :=
  if r.isParity then .parity r.current.reverse false else .clause r.current.reverse

theorem pending_eq_nil_iff : r.pending = [] ↔ r.isParity = false ∧ r.current = [] := by
  cases h : r.isParity <;> simp [pending, h]

/-- A constraint at hand is only followed by numbers and the zero that closes it, and no constraint
at all by what starts one. -/
theorem groups_pending {t : Token} {cs : List Formula.Constraint} (ht : ∀ n, t ≠ .number n)
    (h : Groups (r.pending ++ t :: ts) cs) :
    (t = .close ∧ ∃ cs', cs = r.constraint :: cs' ∧ Groups ts cs') ∨
      (t = .mark ∧ r.isParity = false ∧ r.current = []) := by
  generalize hts : r.pending ++ t :: ts = us at h
  cases hparity : r.isParity with
  | true =>
    simp only [pending, constraint, hparity, if_true, List.singleton_append] at hts ⊢
    cases h with
    | nil => cases hts
    | clause ns h =>
      cases ns with
      | nil => cases hts
      | cons n ns => cases hts
    | parity ns h =>
      obtain ⟨hns, rfl, rfl⟩ := Token.append_inj ht (by simp) (List.cons.inj hts).2
      exact .inl ⟨rfl, _, by rw [hns], h⟩
  | false =>
    simp only [pending, constraint, hparity, Bool.false_eq_true, if_false, List.nil_append] at hts ⊢
    cases h with
    | nil => simp at hts
    | clause ns h =>
      obtain ⟨hns, rfl, rfl⟩ := Token.append_inj ht (by simp) hts
      exact .inl ⟨rfl, _, by rw [hns], h⟩
    | @parity ns us cs h =>
      have hmark : r.current.reverse.map Token.number ++ t :: ts =
        ([] : List Int).map Token.number ++ .mark :: (ns.map .number ++ .close :: us) := hts
      obtain ⟨hns, rfl, -⟩ := Token.append_inj ht (by simp) hmark
      exact .inr ⟨rfl, trivial, by simpa using hns⟩

theorem groups_close_iff {cs : List Formula.Constraint} :
    Groups (r.pending ++ .close :: ts) cs ↔ ∃ cs', cs = r.constraint :: cs' ∧ Groups ts cs' := by
  constructor
  · intro h
    obtain ⟨-, h⟩ | ⟨h, -⟩ := groups_pending (by simp) h
    · exact h
    · cases h
  · rintro ⟨cs', rfl, h⟩
    cases hparity : r.isParity with
    | true => simpa [pending, constraint, hparity] using Groups.parity r.current.reverse h
    | false => simpa [pending, constraint, hparity] using Groups.clause r.current.reverse h

/-- A constraint that is not closed is no group. -/
theorem groups_pending_iff {cs : List Formula.Constraint} :
    Groups r.pending cs ↔ r.pending = [] ∧ cs = [] := by
  constructor
  · intro h
    have hclose : Token.close ∉ r.pending := by
      cases hparity : r.isParity <;> simp [pending, hparity]
    generalize r.pending = us at h hclose
    cases h with
    | nil => exact ⟨rfl, rfl⟩
    | clause ns h => exact absurd (by simp) hclose
    | parity ns h => exact absurd (by simp) hclose
  · rintro ⟨hpending, rfl⟩
    rw [hpending]
    exact .nil

/-! ## Tokens ahead -/

/-- The constraints that the tokens make up, behind what was read, are as many as the header says,
and with them the formula is complete. -/
inductive Accounts (r : Reader) (ts : List Token) (f : Formula) : Prop
  | body {header : Header} {cs : List Formula.Constraint} (hheader : r.header = some header)
      (hgroups : Groups (r.pending ++ ts) cs) (hcount : header.numClauses = r.numRead + cs.length)
      (hf : f = r.formula.extend cs)
  | text {header : Header} {ts' : List Token} {cs : List Formula.Constraint}
      (hheader : r.header = none) (hts : r.pending ++ ts = .header header :: ts')
      (hgroups : Groups ts' cs) (hcount : header.numClauses = r.numRead + cs.length)
      (hf : f = (Formula.ofNumVariables (header.numVariables % Word.bound32)).extend cs)

theorem accounts_congr {ts' : List Token} (hheader : r'.header = r.header)
    (hformula : r'.formula = r.formula) (hcount : r'.numRead = r.numRead)
    (hts : r'.pending ++ ts' = r.pending ++ ts) : r'.Accounts ts' f ↔ r.Accounts ts f := by
  constructor
  · intro h
    cases h with
    | body h₁ h₂ h₃ h₄ =>
      exact .body (hheader ▸ h₁) (hts ▸ h₂) (hcount ▸ h₃) (hformula ▸ h₄)
    | text h₁ h₂ h₃ h₄ h₅ => exact .text (hheader ▸ h₁) (hts ▸ h₂) h₃ (hcount ▸ h₄) h₅
  · intro h
    cases h with
    | body h₁ h₂ h₃ h₄ =>
      exact .body (hheader ▸ h₁) (hts ▸ h₂) (hcount ▸ h₃) (hformula ▸ h₄)
    | text h₁ h₂ h₃ h₄ h₅ => exact .text (hheader ▸ h₁) (hts ▸ h₂) h₃ (hcount ▸ h₄) h₅

theorem accounts_place (place : Place) :
    { r with place := place }.Accounts ts f ↔ r.Accounts ts f :=
  accounts_congr rfl rfl rfl rfl

theorem accounts_number_iff (n : Int) (place : Place) :
    { r with current := n :: r.current, place := place }.Accounts ts f ↔
      r.Accounts (.number n :: ts) f :=
  accounts_congr rfl rfl rfl (by simp [pending])

/-- No header is left in front of the tokens once it was read. -/
theorem Accounts.head_ne_header (h : r.Accounts ts f) (hheader : r.header ≠ none)
    (header : Header) : ts.head? ≠ some (.header header) := by
  intro hhead
  obtain ⟨ts, rfl⟩ := List.head?_eq_some_iff.mp hhead
  cases h with
  | body _ hgroups _ _ => obtain ⟨h, -⟩ | ⟨h, -⟩ := groups_pending (by simp) hgroups <;> cases h
  | text h _ _ _ _ => exact hheader h

theorem pending_eq_nil_of_header {header : Header} {ts' : List Token} {t : Token}
    (h : r.pending ++ t :: ts = .header header :: ts') :
    r.pending = [] ∧ t = .header header ∧ ts = ts' := by
  cases hpending : r.pending with
  | nil =>
    rw [hpending] at h
    cases h
    exact ⟨rfl, rfl, rfl⟩
  | cons u us =>
    have hmem : Token.header header ∈ r.pending := by
      rw [hpending] at h ⊢
      cases h
      simp
    cases hparity : r.isParity <;> simp [pending, hparity] at hmem

theorem accounts_mark_iff (place : Place) :
    r.Accounts (.mark :: ts) f ↔ r.isParity = false ∧ r.current = [] ∧
      { r with isParity := true, place := place }.Accounts ts f := by
  have key (hparity : r.isParity = false) (hcurrent : r.current = []) :
      { r with isParity := true, place := place }.Accounts ts f ↔ r.Accounts (.mark :: ts) f :=
    accounts_congr rfl rfl rfl (by simp [pending, hparity, hcurrent])
  constructor
  · intro h
    obtain ⟨hparity, hcurrent⟩ : r.isParity = false ∧ r.current = [] := by
      cases h with
      | body _ hgroups _ _ =>
        obtain ⟨h, -⟩ | ⟨-, h⟩ := groups_pending (by simp) hgroups
        · cases h
        · exact h
      | text _ hts _ _ _ => cases (pending_eq_nil_of_header hts).2.1
    exact ⟨hparity, hcurrent, (key hparity hcurrent).mpr h⟩
  · rintro ⟨hparity, hcurrent, h⟩
    exact (key hparity hcurrent).mp h

/-- The reader behind a header line. -/
def opened (r : Reader) (header : Header) : Reader :=
  { r with header := some header, formula := .ofNumVariables (header.numVariables % Word.bound32) }

theorem accounts_header_iff {header : Header} :
    r.Accounts (.header header :: ts) f ↔
      r.header = none ∧ r.pending = [] ∧ (r.opened header).Accounts ts f := by
  constructor
  · intro h
    cases h with
    | body _ hgroups _ _ => obtain ⟨h, -⟩ | ⟨h, -⟩ := groups_pending (by simp) hgroups <;> cases h
    | text hheader hts hgroups hcount hf =>
      obtain ⟨hpending, ht, rfl⟩ := pending_eq_nil_of_header hts
      cases ht
      refine ⟨hheader, hpending, .body rfl ?_ hcount hf⟩
      change Groups (r.pending ++ ts) _
      rwa [hpending]
  · rintro ⟨hheader, hpending, h⟩
    cases h with
    | body h hgroups hcount hf =>
      cases h
      change Groups (r.pending ++ ts) _ at hgroups
      rw [hpending] at hgroups
      exact .text hheader (by rw [hpending]; rfl) hgroups hcount hf
    | text h _ _ _ _ => cases h

/-- The reader behind the zero of a constraint. -/
def closed (r : Reader) : Reader :=
  { r with
    formula := r.formula.add r.constraint
    current := []
    isParity := false
    numRead := r.numRead + 1 }

theorem accounts_close_iff :
    r.Accounts (.close :: ts) f ↔ r.header ≠ none ∧ r.closed.Accounts ts f := by
  constructor
  · intro h
    cases h with
    | body hheader hgroups hcount hf =>
      obtain ⟨cs', rfl, hrest⟩ := groups_close_iff.mp hgroups
      refine ⟨by simp [hheader], .body hheader hrest ?_ hf⟩
      rw [hcount, List.length_cons]
      change r.numRead + (cs'.length + 1) = r.numRead + 1 + cs'.length
      omega
    | text _ hts _ _ _ => cases (pending_eq_nil_of_header hts).2.1
  · rintro ⟨hne, h⟩
    cases h with
    | @body header cs hheader hgroups hcount hf =>
      refine .body hheader (groups_close_iff.mpr ⟨_, rfl, hgroups⟩) ?_ hf
      rw [hcount, List.length_cons]
      change r.numRead + 1 + cs.length = r.numRead + (cs.length + 1)
      omega
    | text h _ _ _ _ => exact absurd h hne

/-- The tokens are at their end: the formula is the one that was read. -/
theorem accounts_nil_iff :
    r.Accounts [] f ↔ ∃ header, r.header = some header ∧ r.pending = [] ∧
      header.numClauses = r.numRead ∧ f = r.formula := by
  constructor
  · intro h
    cases h with
    | @body header cs hheader hgroups hcount hf =>
      rw [List.append_nil] at hgroups
      obtain ⟨hpending, rfl⟩ := groups_pending_iff.mp hgroups
      exact ⟨header, hheader, hpending, hcount, hf⟩
    | @text header ts' cs _ hts _ _ _ =>
      rw [List.append_nil] at hts
      have hmem : Token.header header ∈ r.pending := by simp [hts]
      cases hparity : r.isParity <;> simp [pending, hparity] at hmem
  · rintro ⟨header, hheader, hpending, hcount, hf⟩
    refine @Accounts.body r [] f header [] hheader ?_ hcount hf
    rw [hpending]
    exact .nil

end Reader

end Dimacs

end ClauseLearning
