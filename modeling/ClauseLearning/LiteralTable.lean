import ClauseLearning.Literal

/-!
# Tables indexed by literals

A dense table with one entry per code. An entry is only reached through a literal, so a table of
literals is never read with a variable. `get?_push_self` and `get?_push_of_lt` say what `push`
does to the entries, and `size_grow` what `grow` does to the length.
-/

namespace ClauseLearning

structure LiteralTable (α : Type) where
  entries : Array α
  deriving Repr

namespace LiteralTable

variable {α : Type}

def empty : LiteralTable α := ⟨#[]⟩

def size (t : LiteralTable α) : Nat := t.entries.size

def isEmpty (t : LiteralTable α) : Bool := t.entries.isEmpty

/-- Appends an entry; the result names the literal under which it is found. -/
def push (t : LiteralTable α) (a : α) : Literal × LiteralTable α :=
  (Literal.ofCode t.size, ⟨t.entries.push a⟩)

def keys (t : LiteralTable α) : List Literal :=
  (List.range t.size).map Literal.ofCode

@[inline] def get? (t : LiteralTable α) (l : Literal) : Option α := t.entries[l.code]?

@[inline] def getD (t : LiteralTable α) (l : Literal) (default : α) : α := (t.get? l).getD default

/-- Literals outside of the table are left alone. -/
@[inline] def set (t : LiteralTable α) (l : Literal) (a : α) : LiteralTable α :=
  ⟨t.entries.setIfInBounds l.code a⟩

@[inline] def modify (t : LiteralTable α) (l : Literal) (f : α → α) : LiteralTable α :=
  ⟨t.entries.modify l.code f⟩

def map (t : LiteralTable α) (f : α → α) : LiteralTable α := ⟨t.entries.map f⟩

/-- Extends the table to `n` entries; a longer table is left alone. -/
def grow (t : LiteralTable α) (n : Nat) (a : α) : LiteralTable α :=
  ⟨t.entries ++ Array.replicate (n - t.entries.size) a⟩

def toList (t : LiteralTable α) : List α := t.entries.toList

/-! ## What the operations do to the entries -/

theorem size_push (t : LiteralTable α) (a : α) : (t.push a).2.size = t.size + 1 := by
  simp [push, size]

theorem get?_push_self (t : LiteralTable α) (a : α) :
    (t.push a).2.get? ⟨t.size⟩ = some a := by
  simp [push, get?, size]

theorem get?_push_of_lt (t : LiteralTable α) (a : α) {l : Literal} (h : l.code < t.size) :
    (t.push a).2.get? l = t.get? l := by
  simp only [size] at h
  simp [push, get?, Array.getElem?_push, Nat.ne_of_lt h]

theorem size_grow (t : LiteralTable α) (n : Nat) (a : α) :
    (t.grow n a).size = max t.size n := by
  simp [grow, size]
  omega

theorem size_modify (t : LiteralTable α) (l : Literal) (f : α → α) :
    (t.modify l f).size = t.size := by
  simp [modify, size]

theorem get?_modify (t : LiteralTable α) (l m : Literal) (f : α → α) :
    (t.modify l f).get? m = if l = m then (t.get? m).map f else t.get? m := by
  by_cases h : l = m
  · subst h; simp [modify, get?, Array.getElem?_modify]
  · have hc : l.code ≠ m.code := fun hc => h (by cases l; cases m; simp_all)
    simp [modify, get?, Array.getElem?_modify, h, hc]

end LiteralTable

end ClauseLearning
