/-!
# Word sizes

How many numbers fit into a machine word. They are written out, so that arithmetic on them is
arithmetic on numerals.
-/

namespace ClauseLearning.Word

/-- How many words of 32 bits there are. -/
def bound32 : Nat := 0x100000000

/-- How many words of 64 bits there are. -/
def bound64 : Nat := 0x10000000000000000

end ClauseLearning.Word
