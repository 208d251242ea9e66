import ClauseLearning.Constraint.Basic
import ClauseLearning.Custom.Catalogue
import ClauseLearning.Proofs.Trail
import ClauseLearning.Proofs.Watching

/-!
# What constraints ask to be told of

A constraint that is attached or notified may ask, any number of times, to be told when a variable
loses its value. What it asks for is listed here with the literals that were true at the time.
Nothing else matters to the undo entries, and no value is lost meanwhile, so if every variable that
was asked for had a value, the entries are the old ones and one for every time.

* `Script.registered`, `Constraint.registeredAtAttach`, `Constraint.registeredAtPropagate`: what is
  asked for.
* `Constraint.registers_attach`, `Constraint.registers_propagate`: what this does to the board.
* `CustomConstraint.Prudent`: constraints that ask to be told only of variables that have a value.
* `CustomConstraint.Counts`: constraints that count what they ask for.
* `Catalogue.prudent`, `Catalogue.counts`: the constraints of the catalogue are such.
-/

namespace ClauseLearning

variable {κ : Type}

/-! ## Values that are kept -/

namespace Assignment

/-- What is on the trail is true, and of a variable there is at most one literal. -/
structure Truthful (a : Assignment) : Prop where
  satisfied : ∀ l ∈ a.trues, a.isSatisfied l = true
  nodup : (a.trues.map Literal.var).Nodup

/-- What was true is true, and the trail says so if it did before. -/
structure Keeps (a b : Assignment) : Prop where
  satisfied : ∀ l, a.isSatisfied l = true → b.isSatisfied l = true
  truthful : a.Truthful → b.Truthful

theorem Keeps.refl (a : Assignment) : a.Keeps a := ⟨fun _ h => h, id⟩

theorem Keeps.trans {a b c : Assignment} (h : a.Keeps b) (h' : b.Keeps c) : a.Keeps c :=
  ⟨fun l hl => h'.satisfied l (h.satisfied l hl), fun ht => h'.truthful (h.truthful ht)⟩

/-- It is enough that the trail is the same and the values are. -/
theorem Keeps.of_values {a b : Assignment} (htrues : b.trues = a.trues)
    (hvalue : ∀ v, (b.cell? v).map Cell.value = (a.cell? v).map Cell.value) : a.Keeps b := by
  have hsame : ∀ l, b.isSatisfied l = a.isSatisfied l := by
    intro l
    have hcell := hvalue l.var
    simp only [isSatisfied]
    cases ha : a.cell? l.var with
    | none =>
      rw [ha, Option.map_none, Option.map_eq_none_iff] at hcell
      rw [hcell]
    | some c =>
      rw [ha, Option.map_some] at hcell
      obtain ⟨d, hd, hvalues⟩ := Option.map_eq_some_iff.mp hcell
      rw [hd]
      simp only [hvalues]
  refine ⟨fun l hl => (hsame l).trans hl, fun ht => ⟨fun l hl => ?_, ?_⟩⟩
  · rw [hsame]
    exact ht.satisfied l (htrues ▸ hl)
  · rw [htrues]
    exact ht.nodup

theorem isSatisfied_iff_satisfiedLiteral? {a : Assignment} {l : Literal} :
    a.isSatisfied l = true ↔ a.satisfiedLiteral? l.var = some l := by
  unfold isSatisfied satisfiedLiteral?
  cases a.cell? l.var with
  | none => simp
  | some c =>
    simp only [beq_iff_eq, Option.map_some, Option.some.injEq]
    constructor
    · intro hvalue
      rw [hvalue, Literal.make_var_isPositive]
    · intro hmake
      rw [← hmake, Literal.isPositive_make]

theorem satisfiedLiteral?_eq_some {a : Assignment} {v : Nat} {l : Literal}
    (h : a.satisfiedLiteral? v = some l) : l.var = v ∧ a.isSatisfied l = true := by
  obtain ⟨c, -, hmake⟩ := Option.map_eq_some_iff.mp h
  have hvar : l.var = v := by rw [← hmake, Literal.var_make]
  exact ⟨hvar, isSatisfied_iff_satisfiedLiteral?.mpr (hvar ▸ h)⟩

theorem eq_of_isSatisfied {a : Assignment} {l m : Literal} (hl : a.isSatisfied l = true)
    (hm : a.isSatisfied m = true) (hv : l.var = m.var) : l = m := by
  rw [isSatisfied_iff_satisfiedLiteral?] at hl hm
  rw [hv, hm] at hl
  exact (Option.some.inj hl).symm

theorem lt_size_of_isSatisfied {a : Assignment} {l : Literal} (h : a.isSatisfied l = true) :
    l.var < a.cells.size := by
  obtain ⟨c, hc, -⟩ := Option.map_eq_some_iff.mp (isSatisfied_iff_satisfiedLiteral?.mp h)
  exact lt_size_of_cell hc

theorem keeps_enqueue (a : Assignment) (l : Literal) (r : Option Reference) :
    a.Keeps (a.enqueue l r).2 := by
  unfold enqueue
  split
  · rename_i hcell
    have hlt : l.var < a.cells.size := (Array.getElem?_eq_some_iff.mp hcell).1
    have hnone : a.cell? l.var = none := by simp only [cell?, hcell, Option.join_some]
    have hother : ∀ m, a.isSatisfied m = true → l.var ≠ m.var := by
      intro m hm heq
      simp only [isSatisfied, ← heq, hnone, Bool.false_eq_true] at hm
    have hkept : ∀ m, a.isSatisfied m = true → (a.assign l r).isSatisfied m = true := by
      intro m hm
      rw [isSatisfied, cell?_assign_of_ne a r (hother m hm)]
      exact hm
    refine ⟨hkept, fun ht => ⟨fun m hm => ?_, ?_⟩⟩
    · rw [trues_assign, List.mem_append, List.mem_singleton] at hm
      rcases hm with hm | rfl
      · exact hkept m (ht.satisfied m hm)
      · exact isSatisfied_assign_self r hlt
    · rw [trues_assign, List.map_append, List.map_singleton]
      refine List.nodup_append.mpr ⟨ht.nodup, List.pairwise_singleton _ _, ?_⟩
      rintro v hv w hw rfl
      obtain ⟨m, hm, rfl⟩ := List.mem_map.mp hv
      exact hother m (ht.satisfied m hm) (List.mem_singleton.mp hw).symm
  · exact .refl a
  · exact .refl a

theorem size_cells_enqueue (a : Assignment) (l : Literal) (r : Option Reference) :
    (a.enqueue l r).2.cells.size = a.cells.size := by
  unfold enqueue
  split
  · exact size_cells_assign a l r
  · rfl
  · rfl

/-- The newest literal loses its value, and all others on the trail keep theirs. -/
theorem Truthful.unassign {a : Assignment} (h : a.Truthful) {l : Literal}
    (hl : a.newest? = some l) : a.isSatisfied l = true ∧ (a.unassign l).Truthful := by
  have htrues := trues_eq_concat hl
  have hnodup := h.nodup
  rw [htrues, List.map_append, List.map_singleton, List.nodup_append] at hnodup
  obtain ⟨hnodup, -, hdisjoint⟩ := hnodup
  refine ⟨h.satisfied l ?_, fun m hm => ?_, hnodup⟩
  · rw [htrues]
    exact List.mem_append_right _ (List.mem_singleton_self l)
  · have hne : l.var ≠ m.var := fun heq =>
      hdisjoint _ (List.mem_map_of_mem hm) _ (List.mem_singleton_self _) heq.symm
    rw [isSatisfied, cell?_unassign_of_ne a hne]
    refine h.satisfied m ?_
    rw [htrues]
    exact List.mem_append_left _ hm

end Assignment

/-! ## Entries that are added -/

/-- In the name of `r` it was asked to be told of some variables, each given with its true literal
at the time. Apart from that no undo entry was touched and no value was lost. -/
structure Board.Registers (r : Reference) (asked : List (Nat × Option Literal)) (b b' : Board) :
    Prop where
  keeps : b.assignment.Keeps b'.assignment
  sized : b.watches.Sized b.assignment.cells.size → b'.watches.Sized b'.assignment.cells.size
  known : ∀ v l, (v, some l) ∈ asked → l.var = v ∧ b'.assignment.isSatisfied l = true
  numUndos : b.watches.Sized b.assignment.cells.size → (∀ v, (v, none) ∉ asked) → ∀ v q,
    b'.watches.numUndos v q =
      b.watches.numUndos v q + if q = r then (asked.map Prod.fst).count v else 0

namespace Board.Registers

variable {r : Reference} {asked asked' : List (Nat × Option Literal)} {b b' b'' : Board}

theorem trans (h : Registers r asked b b') (h' : Registers r asked' b' b'') :
    Registers r (asked ++ asked') b b'' where
  keeps := h.keeps.trans h'.keeps
  sized := fun hs => h'.sized (h.sized hs)
  known := fun v l hmem => by
    rcases List.mem_append.mp hmem with hmem | hmem
    · obtain ⟨hvar, hsat⟩ := h.known v l hmem
      exact ⟨hvar, h'.keeps.satisfied l hsat⟩
    · exact h'.known v l hmem
  numUndos := fun hs hnone v q => by
    rw [h'.numUndos (h.sized hs) (fun w hw => hnone w (List.mem_append_right _ hw)),
      h.numUndos hs (fun w hw => hnone w (List.mem_append_left _ hw)), List.map_append,
      List.count_append]
    split <;> omega

/-- Nothing is asked for. -/
theorem of_undos (hkeeps : b.assignment.Keeps b'.assignment)
    (hsized : b.watches.Sized b.assignment.cells.size → b'.watches.Sized b'.assignment.cells.size)
    (hundos : b'.watches.undos = b.watches.undos) : Registers r [] b b' where
  keeps := hkeeps
  sized := hsized
  known := fun _ _ hmem => absurd hmem List.not_mem_nil
  numUndos := fun _ _ v q => by
    simp only [Watches.numUndos, Watches.undosOf, hundos, List.map_nil, List.count_nil, ite_self,
      Nat.add_zero]

theorem refl (r : Reference) (b : Board) : Registers r [] b b := .of_undos (.refl _) id rfl

end Board.Registers

namespace Board

variable (r q : Reference) (l : Literal) (b : Board)

theorem registers_watch (m : Option Literal) : Registers q [] b (b.watch r l m) :=
  .of_undos (.refl _) (fun hs => hs.add l ⟨r, m⟩) rfl

theorem registers_unwatch : Registers q [] b (b.unwatch r l) :=
  .of_undos (.refl _) (fun hs => hs.remove l r) rfl

theorem registers_enqueue (reason : Option Reference) : Registers q [] b (b.enqueue reason l).2 :=
  .of_undos (b.assignment.keeps_enqueue l reason)
    (fun hs => (b.assignment.size_cells_enqueue l reason).symm ▸ hs) rfl

theorem registers_registerUndo (v : Nat) :
    Registers r [(v, b.assignment.satisfiedLiteral? v)] b (b.registerUndo r v) where
  keeps := .refl _
  sized := fun hs => hs.addUndo v r
  known := fun w m hmem => by
    obtain ⟨rfl, hm⟩ := Prod.mk.inj (List.mem_singleton.mp hmem)
    exact Assignment.satisfiedLiteral?_eq_some hm.symm
  numUndos := fun hs hnone w q => by
    have hlt : v < b.watches.undos.size := by
      rw [hs.undos]
      cases hv : b.assignment.satisfiedLiteral? v with
      | none =>
        rw [hv] at hnone
        exact absurd (List.mem_singleton_self _) (hnone v)
      | some m =>
        obtain ⟨rfl, hm⟩ := Assignment.satisfiedLiteral?_eq_some hv
        exact Assignment.lt_size_of_isSatisfied hm
    show (b.watches.addUndo v r).numUndos w q = _
    rw [Watches.numUndos_addUndo hlt]
    by_cases hw : v = w
    · subst hw
      by_cases hq : q = r
      · simp [hq]
      · simp [hq]
    · have hwv : ¬ w = v := fun h => hw h.symm
      simp [hw, hwv]

end Board

/-! ## What is asked for -/

/-- The variables that a script asks to be told of, in order, each with the literal of it that is
true at the time, if there is one. -/
def Script.registered {α : Type} (r : Reference) : Script α → Board → List (Nat × Option Literal)
  | done _, _ => []
  | watch l next, b => next.registered r (b.watch r l none)
  | unwatch l next, b => next.registered r (b.unwatch r l)
  | registerUndo v next, b =>
    (v, b.assignment.satisfiedLiteral? v) :: next.registered r (b.registerUndo r v)
  | enqueue l next, b =>
    (next (b.enqueue (some r) l).1).registered r (b.enqueue (some r) l).2
  | look next, b => (next b.assignment).registered r b

theorem Script.registers_run {α : Type} (r : Reference) (script : Script α) (b : Board) :
    Board.Registers r (script.registered r b) b (script.run r b).2 := by
  induction script generalizing b with
  | done result => exact .refl r b
  | watch l next ih => exact (b.registers_watch r r l none).trans (ih _)
  | unwatch l next ih => exact (b.registers_unwatch r r l).trans (ih _)
  | registerUndo v next ih => exact (b.registers_registerUndo r v).trans (ih _)
  | enqueue l next ih => exact (b.registers_enqueue r l (some r)).trans (ih _ _)
  | look next ih => exact ih _ b

theorem Cardinality.registers_force (r : Reference) (c : Cardinality) (b : Board) :
    Board.Registers r [] b (c.force r b) := by
  unfold force
  induction c.literals generalizing b with
  | nil => exact .refl r b
  | cons l ls ih =>
    have hfirst : Board.Registers r [] b
        (if b.assignment.isUnassigned l = true then (b.enqueue (some r) l).2 else b) := by
      split
      · exact b.registers_enqueue r l (some r)
      · exact .refl r b
    exact hfirst.trans (ih _)

namespace Constraint

variable [CustomConstraint κ]

/-- What a constraint asks for when it is attached. -/
def registeredAtAttach (r : Reference) (c : Constraint κ) (b : Board) :
    List (Nat × Option Literal) :=
  match c.kind with
  | .custom k => (CustomConstraint.attach k).registered r b
  | _ => []

/-- What a constraint asks for when it is notified that `p` became true. -/
def registeredAtPropagate (r : Reference) (p : Literal) (c : Constraint κ) (b : Board) :
    List (Nat × Option Literal) :=
  match c.kind with
  | .cardinality _ => [(p.var, b.assignment.satisfiedLiteral? p.var)]
  | .custom k => (CustomConstraint.propagate k p).registered r b
  | _ => []

theorem registers_attach (r : Reference) (c : Constraint κ) (b : Board) :
    Board.Registers r (c.registeredAtAttach r b) b (c.attach r b).2.2 := by
  obtain ⟨kind, m⟩ := c
  cases kind with
  | clause k =>
    exact (b.registers_watch r r (-k.first) (some k.second)).trans (Board.registers_watch ..)
  | cardinality k =>
    show Board.Registers r [] b (k.attach r b)
    unfold Cardinality.attach
    induction k.literals generalizing b with
    | nil => exact .refl r b
    | cons l ls ih => exact (b.registers_watch r r (-l) none).trans (ih _)
  | parity k =>
    exact ((b.registers_watch r r _ none).trans (Board.registers_watch ..)).trans
      ((Board.registers_watch ..).trans (Board.registers_watch ..))
  | custom k => exact (CustomConstraint.attach k).registers_run r b

theorem registers_propagate (r : Reference) (p : Literal) (c : Constraint κ) (b : Board) :
    Board.Registers r (c.registeredAtPropagate r p b) b (c.propagate r p b).2.2 := by
  obtain ⟨kind, m⟩ := c
  cases kind with
  | clause k =>
    show Board.Registers r [] b (k.propagate r p b).2.2
    simp only [Clause.propagate]
    split
    · exact b.registers_watch r r p _
    · split
      · exact Board.registers_watch ..
      · exact (b.registers_watch r r p _).trans (Board.registers_enqueue ..)
  | cardinality k =>
    have hasked : Board.Registers r [(p.var, b.assignment.satisfiedLiteral? p.var)] b
        ((b.watch r p none).registerUndo r p.var) :=
      (b.registers_watch r r p none).trans (Board.registers_registerUndo r (b.watch r p none) p.var)
    show Board.Registers r [(p.var, b.assignment.satisfiedLiteral? p.var)] b (k.propagate r p b).2.2
    simp only [Cardinality.propagate]
    split
    · exact hasked
    · split
      · exact hasked.trans (Cardinality.registers_force r _ _)
      · exact hasked
  | parity k =>
    show Board.Registers r [] b (k.propagate r p b).2.2
    simp only [Parity.propagate]
    split
    · exact (b.registers_unwatch r r (-p)).trans
        ((Board.registers_watch ..).trans (Board.registers_watch ..))
    · exact (b.registers_watch r r p none).trans (Board.registers_enqueue ..)
  | custom k => exact (CustomConstraint.propagate k p).registers_run r b

end Constraint

variable [CustomConstraint κ]

/-! ## Constraints that are prudent -/

variable (κ) in
/-- Constraints of a kind ask to be told only of variables that have a value. -/
structure CustomConstraint.Prudent : Prop where
  attach : ∀ (k : κ) r b v, (v, none) ∉ (CustomConstraint.attach k).registered r b
  propagate : ∀ (k : κ) p r b, b.assignment.isSatisfied p = true →
    ∀ v, (v, none) ∉ (CustomConstraint.propagate k p).registered r b

namespace Constraint

variable (h : CustomConstraint.Prudent κ) (r : Reference) (c : Constraint κ) (b : Board) (v : Nat)
include h

theorem prudent_attach : (v, none) ∉ c.registeredAtAttach r b := by
  obtain ⟨kind, m⟩ := c
  cases kind with
  | custom k => exact h.attach k r b v
  | _ => exact List.not_mem_nil

theorem prudent_propagate {p : Literal} (hp : b.assignment.isSatisfied p = true) :
    (v, none) ∉ c.registeredAtPropagate r p b := by
  obtain ⟨kind, m⟩ := c
  cases kind with
  | cardinality k =>
    show (v, none) ∉ [(p.var, b.assignment.satisfiedLiteral? p.var)]
    rw [Assignment.isSatisfied_iff_satisfiedLiteral?.mp hp, List.mem_singleton]
    nofun
  | custom k => exact h.propagate k p r b hp v
  | _ => exact List.not_mem_nil

end Constraint

/-! ## Constraints that count -/

/-- A way to read a counter off the constraints of a kind, or off some of them. These count their
notifications, ask with each to be told when the literal loses its value, and count down when they
are told. -/
structure CustomConstraint.Counts (count : κ → Option Nat) : Prop where
  attach : ∀ (k : κ) r b, count ((CustomConstraint.attach k).run r b).1.2 = count k
  propagate : ∀ (k : κ) p r b,
    count ((CustomConstraint.propagate k p).run r b).1.2 = (count k).map (· + 1)
  undo : ∀ (k : κ) p, count (CustomConstraint.undo k p) = (count k).map (· - 1)
  registeredAtAttach : ∀ (k : κ), (count k).isSome = true → ∀ r b,
    (CustomConstraint.attach k).registered r b = []
  registeredAtPropagate : ∀ (k : κ), (count k).isSome = true → ∀ p r b,
    ((CustomConstraint.propagate k p).registered r b).map Prod.fst = [p.var]

/-- The counter of a constraint, if it has one. -/
def Kind.counter (count : κ → Option Nat) : Kind κ → Option Nat
  | .cardinality k => some k.falsified
  | .custom k => count k
  | _ => none

namespace CustomConstraint.Counts

variable {count : κ → Option Nat}

/-- Of constraints from outside none has to count. -/
theorem none : Counts (fun _ : κ => .none) :=
  ⟨fun _ _ _ => rfl, fun _ _ _ _ => rfl, fun _ _ => rfl, nofun, nofun⟩

variable (h : Counts count) (r : Reference) (p : Literal) (c : Constraint κ) (b : Board)
include h

theorem counter_attach : (c.attach r b).2.1.kind.counter count = c.kind.counter count := by
  obtain ⟨kind, m⟩ := c
  cases kind with
  | clause k => rfl
  | cardinality k => rfl
  | parity k => rfl
  | custom k => exact h.attach k r b

theorem counter_propagate :
    (c.propagate r p b).2.1.kind.counter count = (c.kind.counter count).map (· + 1) := by
  obtain ⟨kind, m⟩ := c
  cases kind with
  | clause k => rfl
  | cardinality k =>
    show some (k.propagate r p b).2.1.falsified = some (k.falsified + 1)
    simp only [Cardinality.propagate]
    split
    · rfl
    · split <;> rfl
  | parity k => rfl
  | custom k => exact h.propagate k p r b

theorem counter_undo {c' : Constraint κ} (hrun : c.undo p = .ok c') :
    c'.kind.counter count = (c.kind.counter count).map (· - 1) := by
  obtain ⟨kind, m⟩ := c
  cases kind with
  | clause k =>
    cases hrun
    rfl
  | cardinality k =>
    simp only [Constraint.undo, Cardinality.undo?] at hrun
    split at hrun
    · rename_i k' hk
      cases hrun
      split at hk
      · cases hk
      · cases hk
        rfl
    · cases hrun
  | parity k =>
    cases hrun
    rfl
  | custom k =>
    cases hrun
    exact h.undo k p

theorem registeredAtAttach_eq (hc : (c.kind.counter count).isSome = true) :
    c.registeredAtAttach r b = [] := by
  obtain ⟨kind, m⟩ := c
  cases kind with
  | clause k => rfl
  | cardinality k => rfl
  | parity k => rfl
  | custom k => exact h.registeredAtAttach k hc r b

theorem registeredAtPropagate_eq (hc : (c.kind.counter count).isSome = true) :
    (c.registeredAtPropagate r p b).map Prod.fst = [p.var] := by
  obtain ⟨kind, m⟩ := c
  cases kind with
  | clause k => cases hc
  | cardinality k => rfl
  | parity k => cases hc
  | custom k => exact h.registeredAtPropagate k hc p r b

end CustomConstraint.Counts

/-- Only a cardinality constraint that counts nothing cannot take anything back. -/
theorem Constraint.exists_undo {count : κ → Option Nat} {c : Constraint κ}
    (hc : c.kind.counter count ≠ some 0) (p : Literal) : ∃ c', c.undo p = .ok c' := by
  obtain ⟨kind, m⟩ := c
  cases kind with
  | clause k => exact ⟨_, rfl⟩
  | cardinality k =>
    have hne : k.falsified ≠ 0 := fun h => hc (congrArg some h)
    exact ⟨⟨.cardinality { k with falsified := k.falsified - 1 }, m⟩, by
      simp only [undo, Cardinality.undo?, if_neg hne]⟩
  | parity k => exact ⟨_, rfl⟩
  | custom k => exact ⟨_, rfl⟩

/-! ## The catalogue -/

namespace Script

variable {α β : Type}

/-- Nothing is asked for. -/
def Silent (script : Script α) : Prop := ∀ r b, script.registered r b = []

theorem silent_done (x : α) : (done x).Silent := fun _ _ => rfl

theorem silent_watchAll {next : Script α} (h : next.Silent) (ls : List Literal) :
    (watchAll ls next).Silent := by
  induction ls with
  | nil => exact h
  | cons l ls ih => exact fun r b => ih r (b.watch r l none)

theorem silent_unwatchAll {next : Script α} (h : next.Silent) (ls : List Literal) :
    (unwatchAll ls next).Silent := by
  induction ls with
  | nil => exact h
  | cons l ls ih => exact fun r b => ih r (b.unwatch r l)

theorem silent_enqueueAll {next : Bool → Script α} (h : ∀ ok, (next ok).Silent)
    (ls : List Literal) : (enqueueAll next ls).Silent := by
  induction ls with
  | nil => exact h true
  | cons l ls ih =>
    intro r b
    show ((if (b.enqueue (some r) l).1 then enqueueAll next ls else next false).registered r
      (b.enqueue (some r) l).2) = []
    split
    · exact ih r _
    · exact h false r _

theorem registered_map (f : α → β) (r : Reference) (script : Script α) (b : Board) :
    (script.map f).registered r b = script.registered r b := by
  induction script generalizing b with
  | done result => rfl
  | watch l next ih => exact ih _
  | unwatch l next ih => exact ih _
  | registerUndo v next ih => exact congrArg _ (ih _)
  | enqueue l next ih => exact ih _ _
  | look next ih => exact ih _ _

end Script

namespace AtMostOne

open Script

theorem silent_falsifyOthers (p : Literal) (c : AtMostOne) : (c.falsifyOthers p).Silent :=
  silent_enqueueAll (fun _ => silent_done _) _

theorem silent_attach (c : AtMostOne) : c.attach.Silent := by
  refine silent_watchAll (fun r b => ?_) c.literals
  simp only [registered]
  split
  · rfl
  · exact c.silent_falsifyOthers _ r b
  · rfl

theorem run_falsifyOthers (p : Literal) (c : AtMostOne) (r : Reference) (b : Board) :
    ((c.falsifyOthers p).run r b).1.2 = c := by
  rw [falsifyOthers, run_enqueueAll]
  rfl

theorem run_attach (c : AtMostOne) (r : Reference) (b : Board) : (c.attach.run r b).1.2 = c := by
  simp only [attach, run_watchAll, run]
  split
  · rfl
  · exact c.run_falsifyOthers _ r _
  · rfl

theorem run_propagate (c : AtMostOne) (p : Literal) (r : Reference) (b : Board) :
    ((c.propagate p).run r b).1.2 = { c with numTrue := c.numTrue + 1 } := by
  simp only [propagate, run]
  split
  · exact run_falsifyOthers p _ r _
  · rfl

theorem registered_propagate (c : AtMostOne) (p : Literal) (r : Reference) (b : Board) :
    (c.propagate p).registered r b = [(p.var, b.assignment.satisfiedLiteral? p.var)] := by
  simp only [propagate, registered]
  split
  · exact congrArg _ (silent_falsifyOthers p _ r _)
  · rfl

end AtMostOne

theorem LazyClause.silent_propagate (c : LazyClause) (p : Literal) : (c.propagate p).Silent := by
  intro r b
  simp only [propagate, Script.registered]
  split
  · rfl
  · split <;> rfl

namespace AllEqual

open Script

theorem silent_attach (c : AllEqual) : c.attach.Silent := by
  refine silent_watchAll (fun r b => ?_) _
  simp only [registered]
  split
  · rfl
  · exact silent_enqueueAll (fun _ => silent_done _) _ r b

theorem silent_propagate (c : AllEqual) (p : Literal) : (c.propagate p).Silent := by
  refine fun r b => silent_enqueueAll (fun ok => ?_) _ r b
  split
  · exact silent_unwatchAll (silent_done _) _
  · exact fun _ _ => rfl

end AllEqual

namespace Catalogue

/-- The counter of a constraint of the catalogue, if it has one. -/
def numTrue? : Catalogue → Option Nat
  | .atMostOne c => some c.numTrue
  | _ => none

theorem silent_attach (k : Catalogue) : (CustomConstraint.attach k).Silent := by
  intro r b
  cases k with
  | atMostOne c => exact (Script.registered_map ..).trans (c.silent_attach r b)
  | lazyClause c => rfl
  | allEqual c => exact (Script.registered_map ..).trans (c.silent_attach r b)

theorem registered_propagate (k : Catalogue) (p : Literal) (r : Reference) (b : Board) :
    (CustomConstraint.propagate k p).registered r b =
      if k.numTrue?.isSome then [(p.var, b.assignment.satisfiedLiteral? p.var)] else [] := by
  cases k with
  | atMostOne c => exact (Script.registered_map ..).trans (c.registered_propagate p r b)
  | lazyClause c => exact (Script.registered_map ..).trans (c.silent_propagate p r b)
  | allEqual c => exact (Script.registered_map ..).trans (c.silent_propagate p r b)

theorem prudent : CustomConstraint.Prudent Catalogue where
  attach := fun k r b v hv => by
    rw [silent_attach] at hv
    exact List.not_mem_nil hv
  propagate := fun k p r b hp v hv => by
    rw [registered_propagate, Assignment.isSatisfied_iff_satisfiedLiteral?.mp hp] at hv
    split at hv
    · cases List.mem_singleton.mp hv
    · exact List.not_mem_nil hv

theorem counts : CustomConstraint.Counts numTrue? where
  attach := fun k r b => by
    cases k with
    | atMostOne c =>
      simp only [CustomConstraint.attach, Script.run_map, numTrue?, c.run_attach r b]
    | lazyClause c => simp only [CustomConstraint.attach, Script.run_map, numTrue?]
    | allEqual c => simp only [CustomConstraint.attach, Script.run_map, numTrue?]
  propagate := fun k p r b => by
    cases k with
    | atMostOne c =>
      simp only [CustomConstraint.propagate, Script.run_map, numTrue?, c.run_propagate p r b]
      rfl
    | lazyClause c =>
      simp only [CustomConstraint.propagate, Script.run_map, numTrue?]
      rfl
    | allEqual c =>
      simp only [CustomConstraint.propagate, Script.run_map, numTrue?]
      rfl
  undo := fun k p => by cases k <;> rfl
  registeredAtAttach := fun k _ r b => k.silent_attach r b
  registeredAtPropagate := fun k hk p r b => by
    rw [registered_propagate, if_pos hk]
    rfl

end Catalogue

end ClauseLearning
