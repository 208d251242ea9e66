import ClauseLearning.Implicant.Requirement

/-!
# Implicants by counting

The true literals of every requirement are counted once. A literal can be dropped if every
requirement that it occurs in has enough true literals without it.
-/

namespace ClauseLearning.CounterBased

/-- Per requirement how many literals are true, and per literal the requirements that it occurs in,
once per occurrence. -/
structure Counters where
  counts : Array Nat
  occurrences : LiteralTable (List Nat)

/-- Counts the literals of the requirement with number `i`. -/
def enter (isTrue : LiteralTable Bool) (i : Nat) (r : Requirement) (c : Counters) : Counters :=
  match r with
  | .mandatory _ => { c with counts := c.counts.push 0 }
  | .atLeast ls _ =>
    let present := ls.filter fun l => isTrue.getD l false
    ⟨c.counts.push present.length,
      present.foldl (fun table l => table.modify l (i :: ·)) c.occurrences⟩

def Counters.ofRequirements (isTrue : LiteralTable Bool) (rs : List Requirement) : Counters :=
  rs.zipIdx.foldl (fun c e => enter isTrue e.2 e.1 c) ⟨#[], LiteralTable.empty.grow isTrue.size []⟩

/-- The least count that a requirement allows. -/
def degree : Requirement → Nat
  | .atLeast _ degree => degree
  | .mandatory _ => 0

/-- Lowers the count of a requirement for every occurrence of a literal. -/
def lower (occursIn : List Nat) (counts : Array Nat) : Array Nat :=
  occursIn.foldl (fun counts i => counts.modify i (· - 1)) counts

/-- Goes through the model and keeps what cannot be dropped. -/
def keep (mandatory : Array Bool) (degrees : Array Nat) (occurrences : LiteralTable (List Nat)) :
    List Literal → Array Nat → List Literal
  | [], _ => []
  | l :: ls, counts =>
    if Requirement.isMandatory mandatory l.var then
      l :: keep mandatory degrees occurrences ls counts
    else
      let occursIn := occurrences.getD l []
      let lowered := lower occursIn counts
      if occursIn.any fun i => decide (lowered[i]?.getD 0 < degrees[i]?.getD 0) then
        l :: keep mandatory degrees occurrences ls counts
      else keep mandatory degrees occurrences ls lowered

/-- A prime implicant in the order of the model. -/
def implicant (model : List Literal) (rs : List Requirement) : List Literal :=
  let counters := Counters.ofRequirements (Requirement.truthTable model) rs
  keep (Requirement.mandatoryTable rs) (rs.map degree).toArray counters.occurrences model
    counters.counts

theorem keep_sublist (mandatory : Array Bool) (degrees : Array Nat)
    (occurrences : LiteralTable (List Nat)) (ls : List Literal) (counts : Array Nat) :
    (keep mandatory degrees occurrences ls counts).Sublist ls := by
  induction ls generalizing counts with
  | nil => simp [keep]
  | cons l ls ih =>
    simp only [keep]
    split
    · exact (ih _).cons_cons l
    · split
      · exact (ih _).cons_cons l
      · exact (ih _).cons l

end ClauseLearning.CounterBased
