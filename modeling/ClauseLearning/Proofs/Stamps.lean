import ClauseLearning.Proofs.Minimisation

/-!
# Stamps that are never cleared

All measurements share one table of stamps. No stamp in it is newer than the last measurement
(`LbdMeter.Bounded`), and neither marking a level nor the room made for it changes that. So the
stamp of the next measurement is new, it is not the 0 of a level that was never met, and every level
of the literals is counted.

* `LbdMeter.Bounded.measure_eq`: one measurement, with any marks in the table.
* `LbdMeter.measureAll_eq_card`: any number of them, each with an assignment of its own.
-/

namespace ClauseLearning

namespace LbdMeter

variable {meter : LbdMeter}

/-- No stamp is newer than the last measurement. -/
def Bounded (meter : LbdMeter) : Prop := ∀ k : Nat, meter.stamps[k]?.getD 0 ≤ meter.current

theorem bounded_empty : empty.Bounded := fun _ => Nat.le_refl 0

theorem Bounded.mark (h : meter.Bounded) (n : Nat) : (meter.mark n).2.Bounded := by
  obtain ⟨-, hcurrent, hstamps⟩ := meter.mark_spec n
  intro k
  rw [hstamps, hcurrent]
  split
  · exact Nat.le_refl _
  · exact h k

theorem Bounded.countLevels (h : meter.Bounded) (a : Assignment) (ls : List Literal) :
    (countLevels a ls meter).2.Bounded := by
  induction ls generalizing meter with
  | nil => exact h
  | cons l ls ih =>
    unfold LbdMeter.countLevels
    cases a.level? l.var with
    | none => exact ih h
    | some level => exact ih (h.mark level)

theorem Bounded.measure (h : meter.Bounded) (a : Assignment) (ls : List Literal) :
    (measure a ls meter).2.Bounded :=
  Bounded.countLevels (fun k => Nat.le_succ_of_le (h k)) a ls

/-- No level is marked when a measurement starts. -/
theorem Bounded.measure_eq (h : meter.Bounded) (a : Assignment) (ls : List Literal) :
    (LbdMeter.measure a ls meter).1 = (a.levelsOf ls).card := by
  unfold LbdMeter.measure
  rw [countLevels_eq, Finset.filter_true_of_mem fun n _ => Nat.ne_of_lt (Nat.lt_succ_of_le (h n))]

/-- One measurement after the other, with the same meter. -/
def measureAll : List (Assignment × List Literal) → LbdMeter → List Nat × LbdMeter
  | [], meter => ([], meter)
  | (a, ls) :: calls, meter =>
    let (n, meter) := measure a ls meter
    let (ns, meter) := measureAll calls meter
    (n :: ns, meter)

theorem Bounded.measureAll (h : meter.Bounded) (calls : List (Assignment × List Literal)) :
    (meter.measureAll calls).2.Bounded ∧
      (meter.measureAll calls).1 = calls.map fun c => (c.1.levelsOf c.2).card := by
  induction calls generalizing meter with
  | nil => exact ⟨h, rfl⟩
  | cons c calls ih =>
    obtain ⟨a, ls⟩ := c
    obtain ⟨hbounded, hrest⟩ := ih (h.measure a ls)
    refine ⟨hbounded, ?_⟩
    rw [List.map_cons, ← hrest, ← h.measure_eq a ls]
    rfl

/-- Every measurement of a meter says how many levels its literals have, whatever was measured
before, and wherever the table had to grow. -/
theorem measureAll_eq_card (calls : List (Assignment × List Literal)) :
    (empty.measureAll calls).1 = calls.map fun c => (c.1.levelsOf c.2).card :=
  (bounded_empty.measureAll calls).2

/-- The same level is counted again by the second measurement, and the third has a level that the
table does not know. -/
example :
    let a : Assignment :=
      ⟨#[none, some ⟨true, 1, none, 0⟩, some ⟨true, 3, none, 1⟩, some ⟨true, 7, none, 2⟩, none],
        #[.make 1 true, .make 2 true, .make 3 true], #[0, 1, 1, 2, 2, 2, 2]⟩
    (empty.measureAll [(a, [.make 1 true, .make 2 false, .make 4 true]), (a, [.make 2 true]),
      (a, [.make 3 true, .make 2 true, .make 3 false])]).1 = [2, 1, 2] := by
  decide +kernel

end LbdMeter

end ClauseLearning
