import ClauseLearning.Custom.Script

/-!
# At most one of some literals

The first literal that becomes true falsifies the others, and a second one is a conflict. The
constraint counts the true literals it was notified of, and asks for an undo for each.
-/

namespace ClauseLearning

structure AtMostOne where
  literals : List Literal
  /-- How many notifications were not taken back. -/
  numTrue : Nat
  deriving DecidableEq, Repr

namespace AtMostOne

def ofLiterals (ls : List Literal) : AtMostOne := ⟨ls, 0⟩

/-- Makes every literal but `p` false. -/
def falsifyOthers (p : Literal) (c : AtMostOne) : Script (Bool × AtMostOne) :=
  Script.enqueueAll (fun ok => .done (ok, c)) ((c.literals.filter (· ≠ p)).map (-·))

def attach (c : AtMostOne) : Script (Bool × AtMostOne) :=
  Script.watchAll c.literals <| .look fun a =>
    match c.literals.filter a.isSatisfied with
    | [] => .done (true, c)
    | [p] => c.falsifyOthers p
    | _ => .done (false, c)

def propagate (c : AtMostOne) (p : Literal) : Script (Bool × AtMostOne) :=
  let c := { c with numTrue := c.numTrue + 1 }
  .watch p <| .registerUndo p.var <|
    if c.numTrue = 1 then c.falsifyOthers p else .done (false, c)

/-- The oldest true literal forces the others; two true literals are a conflict. -/
def reason (c : AtMostOne) (a : Assignment) (p : Option Literal) : List Literal :=
  let satisfied := a.sortByPosition (c.literals.filter a.isSatisfied)
  match p with
  | some _ => (satisfied.take 1).map (-·)
  | none => (satisfied.take 2).map (-·)

instance : CustomConstraint AtMostOne where
  literals := AtMostOne.literals
  attach := attach
  propagate := propagate
  reason := reason
  undo c _ := { c with numTrue := c.numTrue - 1 }
  isSatisfied c a := decide (c.literals.countP (fun l => !a.isFalsified l) ≤ 1)

end AtMostOne

end ClauseLearning
