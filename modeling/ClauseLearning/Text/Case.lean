import ClauseLearning.Text.CaseMapping
import ClauseLearning.Text.Cased

/-!
# Upper and lower case of a text

A text is mapped character by character, with one exception: a capital sigma at the end of a word
becomes the final small sigma.
-/

namespace ClauseLearning.Text

def upperCase (cs : List Char) : List Char := cs.flatMap upper

/-- Whether the first character that is not ignored is cased. -/
def meetsCased (cs : List Char) : Bool :=
  ((cs.find? fun c => !caseIgnorable.contains c).map cased.contains).getD false

/-- The lower case form of a capital sigma between two texts, of which the former is reversed. -/
def lowerSigma (before after : List Char) : Char :=
  if meetsCased before && !meetsCased after then 'ς' else 'σ'

/-- The lower case of a text behind another one, which is reversed. -/
def lowerCaseAfter (before : List Char) : List Char → List Char
  | [] => []
  | c :: cs =>
    (if c = 'Σ' then [lowerSigma before cs] else lower c) ++ lowerCaseAfter (c :: before) cs

def lowerCase (cs : List Char) : List Char := lowerCaseAfter [] cs

theorem upperCase_append (cs ds : List Char) :
    upperCase (cs ++ ds) = upperCase cs ++ upperCase ds := by
  simp [upperCase]

/-- Without capital sigmas the lower case is taken character by character. -/
theorem lowerCaseAfter_eq_flatMap {before cs : List Char} (h : 'Σ' ∉ cs) :
    lowerCaseAfter before cs = cs.flatMap lower := by
  induction cs generalizing before with
  | nil => rfl
  | cons c cs ih =>
    have hc : c ≠ 'Σ' := fun hc => h (hc ▸ List.mem_cons_self)
    rw [lowerCaseAfter, if_neg hc, ih fun hs => h (List.mem_cons_of_mem _ hs)]
    rfl

end ClauseLearning.Text
