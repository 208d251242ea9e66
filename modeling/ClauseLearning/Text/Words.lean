import ClauseLearning.Text.Case
import ClauseLearning.Text.Cluster

/-!
# The words of a name

A name is cut at underscores, hyphens and spaces, which are dropped; between a lower case letter and
an upper case one; between letters and digits; and before the last capital of an acronym that a
lower case letter follows. In Pascal case the words stand together, each with one capital.

* `flatten_words`: the words hold everything but the separators.
* `ne_nil_of_mem_words`: no word is empty.
-/

namespace ClauseLearning.Text

namespace Cluster

def isUpper (k : Cluster) : Bool := upperCase k != lowerCase k && upperCase k == k

def isLower (k : Cluster) : Bool := upperCase k != lowerCase k && lowerCase k == k

def isDigit (k : Cluster) : Bool := k.all Char.isDigit

def isSeparator (k : Cluster) : Bool := k == ['_'] || k == ['-'] || k == [' ']

/-- Whether a word starts at `k`, given the clusters around it. -/
def startsWord (before k : Cluster) (after : Option Cluster) : Bool :=
  (before.isLower && k.isUpper) ||
    (before.isDigit && (k.isUpper || k.isLower)) ||
    ((before.isUpper || before.isLower) && k.isDigit) ||
    (before.isUpper && k.isUpper && after.any isLower)

end Cluster

/-- The words of the rest of a name, given the cluster before it and the word that was begun. -/
def wordsFrom (before : Option Cluster) (word : List Cluster) :
    List Cluster → List (List Cluster)
  | [] => [word]
  | k :: ks =>
    if k.isSeparator then word :: wordsFrom (some k) [] ks
    else if before.any fun b => b.startsWord k ks.head? then word :: wordsFrom (some k) [k] ks
    else wordsFrom (some k) (word ++ [k]) ks

def words (ks : List Cluster) : List (List Cluster) :=
  (wordsFrom none [] ks).filter fun word => !word.isEmpty

/-- A word with its first cluster in upper case and the others in lower case. -/
def capitalise : List Cluster → List Char
  | [] => []
  | k :: ks => upperCase k ++ lowerCase ks.flatten

/-- The words of a name, each capitalised. -/
def pascalCase (name : String) : String :=
  String.ofList ((words (clusters name.toList)).flatMap capitalise)

theorem flatten_wordsFrom (before : Option Cluster) (word ks : List Cluster) :
    (wordsFrom before word ks).flatten = word ++ ks.filter fun k => !k.isSeparator := by
  induction ks generalizing before word with
  | nil => simp [wordsFrom]
  | cons k ks ih =>
    unfold wordsFrom
    split
    · next h => simp [ih, h]
    · next h => split <;> simp [ih, h]

theorem ne_nil_of_mem_words {ks word : List Cluster} (h : word ∈ words ks) : word ≠ [] := by
  have := (List.mem_filter.1 h).2
  simpa using this

theorem flatten_words (ks : List Cluster) :
    (words ks).flatten = ks.filter fun k => !k.isSeparator := by
  have h (ws : List (List Cluster)) :
      (ws.filter fun word => !word.isEmpty).flatten = ws.flatten := by
    induction ws with
    | nil => rfl
    | cons w ws ih => cases w <;> simp_all
  rw [words, h, flatten_wordsFrom, List.nil_append]

end ClauseLearning.Text
