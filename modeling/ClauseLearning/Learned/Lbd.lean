import ClauseLearning.Assignment

/-!
# Literal block distance

The number of distinct decision levels among the assigned literals of a clause. Levels are marked
with a stamp that is new for every measurement, so no mark has to be cleared.
-/

namespace ClauseLearning

structure LbdMeter where
  /-- Per level, the last measurement that met it. -/
  stamps : Array Nat
  current : Nat
  deriving Repr

namespace LbdMeter

def empty : LbdMeter := ⟨#[], 0⟩

/-- Marks a level; true if it was not marked in this measurement. -/
def mark (level : Nat) : LbdMeter → Bool × LbdMeter
  | ⟨stamps, current⟩ =>
    let stamps := stamps ++ Array.replicate (level + 1 - stamps.size) 0
    if stamps[level]?.getD 0 = current then (false, ⟨stamps, current⟩)
    else (true, ⟨stamps.setIfInBounds level current, current⟩)

def countLevels (a : Assignment) : List Literal → LbdMeter → Nat × LbdMeter
  | [], meter => (0, meter)
  | l :: ls, meter =>
    match a.level? l.var with
    | none => countLevels a ls meter
    | some level =>
      let (isNew, meter) := meter.mark level
      let (n, meter) := countLevels a ls meter
      (if isNew then n + 1 else n, meter)

/-- Measures a list of literals. -/
def measure (a : Assignment) (ls : List Literal) (meter : LbdMeter) : Nat × LbdMeter :=
  countLevels a ls { meter with current := meter.current + 1 }

end LbdMeter

end ClauseLearning
