import ClauseLearning.Proofs.Minimality

/-!
# Who is told what is mandatory

Whoever wants to know is told each literal of a prime implicant as soon as it is clear that it
cannot be dropped, in whatever order the literals of the model are tried. What is told is the
implicant.

* `WatcherBased.computeWithListener`: the strategy with a comparison of candidates and a listener.
* `WatcherBased.computeWithListener_eq`: the listener hears the implicant, literal by literal.
* `every_strategy_prime`: the implicants of all strategies, and what is heard of them.
-/

namespace ClauseLearning

open Requirement

namespace WatcherBased

/-- A literal with its position in the model. -/
structure Candidate where
  literal : Literal
  position : Nat
  deriving DecidableEq, Repr

def candidates (model : List Literal) : List Candidate := model.zipIdx.map fun e => ⟨e.1, e.2⟩

/-- The literals of a model in the order that a comparison gives them. -/
def inOrder (compare : Candidate → Candidate → Ordering) (model : List Literal) : List Literal :=
  ((candidates model).mergeSort fun first second => compare first second != .gt).map (·.literal)

/-- What comes later in the model is tried first. -/
def laterFirst (first second : Candidate) : Ordering := compare second.position first.position

section

variable {σ : Type} (tell : σ → Literal → σ)

/-- The literals of mandatory variables are told in the order of the model. -/
def State.tellGiven (table : Array Bool) : List Literal → State → σ → State × σ
  | [], s, heard => (s, heard)
  | l :: ls, s, heard =>
    if isMandatory table l.var then tellGiven table ls (s.setStatus l .mandatory) (tell heard l)
    else tellGiven table ls s heard

/-- Tries the literals in order and tells those that turn out to be mandatory. -/
def State.tellAll (isTrue : LiteralTable Bool) (rs : Array Requirement) :
    List Literal → State → σ → σ
  | [], _, heard => heard
  | l :: ls, s, heard =>
    if s.status.getD l .candidate = .mandatory then tellAll isTrue rs ls s heard
    else
      match s.tryDrop isTrue rs l with
      | (true, s) => tellAll isTrue rs ls s (tell heard l)
      | (false, s) => tellAll isTrue rs ls s heard

/-- What a listener has heard in the end that is told every literal of a prime implicant. -/
def computeWithListener (compare : Candidate → Candidate → Ordering) (model : List Literal)
    (rs : List Requirement) (heard : σ) : σ :=
  let isTrue := truthTable model
  let (s, heard) :=
    State.tellGiven tell (mandatoryTable rs) model (State.ofRequirements isTrue rs) heard
  State.tellAll tell isTrue rs.toArray (inOrder compare model) s heard

theorem State.tellGiven_eq (table : Array Bool) (ls : List Literal) (s : State) (heard : σ) :
    State.tellGiven tell table ls s heard =
      ((ls.filter fun l => isMandatory table l.var).foldl (fun s l => s.setStatus l .mandatory) s,
        (ls.filter fun l => isMandatory table l.var).foldl tell heard) := by
  induction ls generalizing s heard with
  | nil => rfl
  | cons l ls ih =>
    unfold State.tellGiven
    rw [List.filter_cons]
    split
    · rw [ih, List.foldl_cons, List.foldl_cons]
    · exact ih s heard

theorem State.tellAll_eq (isTrue : LiteralTable Bool) (rs : Array Requirement) (ls : List Literal)
    (s : State) (heard : σ) :
    State.tellAll tell isTrue rs ls s heard = (tryAll isTrue rs ls s).foldl tell heard := by
  induction ls generalizing s heard with
  | nil => rfl
  | cons l ls ih =>
    unfold State.tellAll tryAll
    split
    · exact ih s heard
    · rcases s.tryDrop isTrue rs l with ⟨b, s'⟩
      cases b with
      | true => exact ih s' (tell heard l)
      | false => exact ih s' heard

/-- The listener hears the implicant. -/
theorem computeWithListener_eq (compare : Candidate → Candidate → Ordering) (model : List Literal)
    (rs : List Requirement) (heard : σ) :
    computeWithListener tell compare model rs heard =
      (implicantInOrder (inOrder compare model) model rs).foldl tell heard := by
  simp only [computeWithListener, State.tellGiven_eq, State.tellAll_eq, implicantInOrder,
    List.foldl_append]

end

theorem map_literal_candidates (model : List Literal) :
    (candidates model).map (·.literal) = model := by
  simp only [candidates, List.map_map, Function.comp_def, List.zipIdx_map_fst]

theorem inOrder_perm (compare : Candidate → Candidate → Ordering) (model : List Literal) :
    (inOrder compare model).Perm model := by
  have hperm := (List.mergeSort_perm (candidates model)
    fun first second => compare first second != .gt).map (·.literal)
  rwa [map_literal_candidates] at hperm

/-- The default order is the reverse of the model. -/
theorem inOrder_laterFirst (model : List Literal) : inOrder laterFirst model = model.reverse := by
  have hle : ∀ a b : Candidate, (laterFirst a b != .gt) = true ↔ b.position ≤ a.position := by
    intro a b
    rw [laterFirst, bne_iff_ne, Ne, Nat.compare_eq_gt, Nat.not_lt]
  have hpositions : (candidates model).map (·.position) = List.range' 0 model.length := by
    simp only [candidates, List.map_map, Function.comp_def, List.zipIdx_map_snd]
  have hsorted : (candidates model).Pairwise fun a b => a.position < b.position := by
    have hlt : (List.range' 0 model.length).Pairwise (· < ·) := List.pairwise_lt_range'
    rwa [← hpositions, List.pairwise_map] at hlt
  have hsame : ∀ a ∈ candidates model, ∀ b ∈ candidates model, a.position = b.position → a = b := by
    intro a ha b hb hab
    refine List.inj_on_of_nodup_map ?_ ha hb hab
    rw [hpositions]
    exact List.nodup_range'
  have hreverse : (candidates model).mergeSort (fun a b => laterFirst a b != .gt) =
      (candidates model).reverse := by
    have hmerged : ((candidates model).mergeSort fun a b => laterFirst a b != .gt).Pairwise
        fun a b => b.position ≤ a.position := by
      refine List.Pairwise.imp (fun {a b} => (hle a b).mp)
        (List.pairwise_mergeSort (fun a b c => ?_) (fun a b => ?_) _)
      · rw [hle, hle, hle]
        exact fun hba hcb => Nat.le_trans hcb hba
      · rw [Bool.or_eq_true, hle, hle]
        exact Nat.le_total _ _
    have hreversed : (candidates model).reverse.Pairwise fun a b => b.position ≤ a.position :=
      List.pairwise_reverse.mpr (hsorted.imp Nat.le_of_lt)
    refine List.Perm.eq_of_pairwise (fun a b ha hb hab hba => ?_) hmerged hreversed
      ((List.mergeSort_perm _ _).trans (List.reverse_perm _).symm)
    exact hsame a ((List.mergeSort_perm _ _).subset ha) b (List.mem_reverse.mp hb)
      (Nat.le_antisymm hba hab)
  rw [inOrder, hreverse, List.map_reverse, map_literal_candidates]

/-- Whoever writes down what is told has the result of the strategy. -/
theorem computeWithListener_append (model : List Literal) (rs : List Requirement) :
    computeWithListener (fun heard l => heard ++ [l]) laterFirst model rs [] =
      implicant model rs := by
  rw [computeWithListener_eq, inOrder_laterFirst, implicant]
  simp [List.foldl_append_eq_append, ← List.flatMap_def]

end WatcherBased

/-- Of a model that meets requirements over its variables, all strategies leave prime implicants, in
whatever order the literals are watched, and a listener is told the literals of the implicant, each
one once. -/
theorem every_strategy_prime {model : List Literal} {rs : List Requirement} (hm : MeetsAll model rs)
    (hvars : (model.map Literal.var).Nodup)
    (hknown : ∀ r ∈ rs, ∀ l ∈ r.listed, l.var ∈ model.map Literal.var) :
    (∃ ls, Quadratic.implicant model rs = .ok ls ∧ IsPrimeImplicant model rs ls) ∧
      IsPrimeImplicant model rs (CounterBased.implicant model rs) ∧
      (∀ order : List Literal, order.Perm model →
        IsPrimeImplicant model rs (WatcherBased.implicantInOrder order model rs)) ∧
      ∀ compare, (WatcherBased.inOrder compare model).Perm model ∧
        ∀ {σ : Type} (tell : σ → Literal → σ) (heard : σ),
          WatcherBased.computeWithListener tell compare model rs heard =
            (WatcherBased.implicantInOrder (WatcherBased.inOrder compare model) model rs).foldl
              tell heard :=
  ⟨Quadratic.implicant_prime hm hvars hknown, CounterBased.implicant_prime hm hvars,
    fun _ => WatcherBased.implicantInOrder_prime hm hvars,
    fun compare => ⟨WatcherBased.inOrder_perm compare model,
      fun tell heard => WatcherBased.computeWithListener_eq tell compare model rs heard⟩⟩

/-- Two different prime implicants of one model, and a listener that counts what it is told. -/
theorem every_strategy_prime_of_three :
    IsPrimeImplicant fourLiterals threeRequirements [.make 2 true, .make 4 true] ∧
      IsPrimeImplicant fourLiterals threeRequirements [.make 4 true, .make 1 true] ∧
      WatcherBased.computeWithListener (fun n _ => n + 1) WatcherBased.laterFirst fourLiterals
        threeRequirements 0 = 2 := by
  have hmeets : MeetsAll fourLiterals threeRequirements := by unfold MeetsAll; decide
  obtain ⟨-, hcounted, hwatched, hheard⟩ :=
    every_strategy_prime hmeets (by decide) (by decide)
  have hleft : CounterBased.implicant fourLiterals threeRequirements =
      [.make 2 true, .make 4 true] := by decide
  have hreversed : WatcherBased.implicantInOrder fourLiterals.reverse fourLiterals
      threeRequirements = [.make 4 true, .make 1 true] := by decide
  refine ⟨hleft ▸ hcounted, hreversed ▸ hwatched _ (List.reverse_perm _), ?_⟩
  rw [(hheard _).2, WatcherBased.inOrder_laterFirst, hreversed]
  rfl

end ClauseLearning
