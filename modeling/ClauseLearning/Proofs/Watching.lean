import ClauseLearning.Board
import Mathlib.Data.List.Perm.Subperm

/-!
# Entries of the watch lists

What every operation on the watch lists does to the entries of one constraint: how often it watches
a literal (`Watches.numWatchers`) and how often it is to be told that a variable lost its value
(`Watches.numUndos`). The variables that it is to be told of, each as often as it is, are
`Watches.notified`.

* `length_notified_addUndo`, `length_notified_takeUndos`: what registering and taking back do to
  the number of notifications.
-/

namespace ClauseLearning

theorem Literal.code_lt_of_var_lt {l : Literal} {n : Nat} (h : l.var < n) : l.code < 2 * n := by
  simp only [Literal.var] at h
  omega

theorem Literal.ext_code {l m : Literal} (h : l.code = m.code) : l = m := by
  cases l
  cases m
  simp_all

namespace Watches

/-- There are lists for the variables below `n`. -/
structure Sized (w : Watches) (n : Nat) : Prop where
  lists : w.lists.size = 2 * n
  undos : w.undos.size = n

def numWatchers (w : Watches) (r : Reference) (l : Literal) : Nat :=
  (w.watchersOf l).countP fun e => decide (e.constraint = r)

def numUndos (w : Watches) (v : Nat) (r : Reference) : Nat := (w.undosOf v).count r

/-- The variables whose value the constraint was notified of. -/
def notified (w : Watches) (r : Reference) : List Nat :=
  (List.range w.undos.size).flatMap fun v => List.replicate (w.numUndos v r) v

/-! ## Watchers -/

theorem watchersOf_of_modify {w w' : Watches} {l : Literal} {f : Array Watcher → Array Watcher}
    (hw : w'.lists = w.lists.modify l f) {n : Nat} (h : w.Sized n) (hl : l.var < n) (m : Literal) :
    w'.watchersOf m =
      if l = m then (f (w.lists.getD m #[])).toList else w.watchersOf m := by
  have hlt : l.code < w.lists.entries.size := by
    have hsize := h.lists
    rw [LiteralTable.size] at hsize
    rw [hsize]
    exact Literal.code_lt_of_var_lt hl
  rw [watchersOf, watchersOf, hw, LiteralTable.getD, LiteralTable.get?_modify, LiteralTable.getD]
  by_cases hlm : l = m
  · subst hlm
    simp [LiteralTable.get?, hlt]
  · simp [hlm]

section

variable {w : Watches} {n : Nat} (h : w.Sized n) {l : Literal} (hl : l.var < n)
include h hl

theorem watchersOf_add (e : Watcher) (m : Literal) :
    (w.add l e).watchersOf m = if l = m then w.watchersOf m ++ [e] else w.watchersOf m := by
  rw [watchersOf_of_modify (w := w) (f := (·.push e)) rfl h hl]
  simp [watchersOf]

theorem watchersOf_append (es : List Watcher) (m : Literal) :
    (w.append l es).watchersOf m = if l = m then w.watchersOf m ++ es else w.watchersOf m := by
  rw [watchersOf_of_modify (w := w) (f := (· ++ es.toArray)) rfl h hl]
  simp [watchersOf]

theorem watchersOf_remove (r : Reference) (m : Literal) :
    (w.remove l r).watchersOf m =
      if l = m then (w.watchersOf m).eraseP (fun e => decide (e.constraint = r))
      else w.watchersOf m := by
  rw [watchersOf_of_modify (w := w)
    (f := fun entries => entries.eraseP fun entry => entry.constraint == r) rfl h hl]
  by_cases hlm : l = m
  · rw [if_pos hlm, if_pos hlm, watchersOf]
    rcases w.lists.getD m #[] with ⟨es⟩
    rw [List.eraseP_toArray]
    rfl
  · simp [hlm]

theorem mem_watchersOf_add {e e' : Watcher} {m : Literal} (he : e ∈ (w.add l e').watchersOf m) :
    e ∈ w.watchersOf m ∨ e = e' := by
  rw [watchersOf_add h hl] at he
  split at he
  · rcases List.mem_append.mp he with he | he
    · exact Or.inl he
    · exact Or.inr (List.mem_singleton.mp he)
  · exact Or.inl he

theorem mem_watchersOf_remove {e : Watcher} {r : Reference} {m : Literal}
    (he : e ∈ (w.remove l r).watchersOf m) : e ∈ w.watchersOf m := by
  rw [watchersOf_remove h hl] at he
  split at he
  · exact List.mem_of_mem_eraseP he
  · exact he

theorem numWatchers_add (e : Watcher) (r : Reference) (m : Literal) :
    (w.add l e).numWatchers r m =
      w.numWatchers r m + if l = m ∧ e.constraint = r then 1 else 0 := by
  rw [numWatchers, numWatchers, watchersOf_add h hl]
  by_cases hlm : l = m
  · by_cases hr : e.constraint = r
    · simp [hlm, hr]
    · simp [hlm, hr]
  · simp [hlm]

theorem numWatchers_append (es : List Watcher) (r : Reference) (m : Literal) :
    (w.append l es).numWatchers r m =
      w.numWatchers r m + if l = m then es.countP (fun e => decide (e.constraint = r)) else 0 := by
  rw [numWatchers, numWatchers, watchersOf_append h hl]
  by_cases hlm : l = m
  · simp [hlm]
  · simp [hlm]

theorem numWatchers_remove (q r : Reference) (m : Literal) :
    (w.remove l q).numWatchers r m =
      w.numWatchers r m - if l = m ∧ q = r then 1 else 0 := by
  rw [numWatchers, numWatchers, watchersOf_remove h hl]
  by_cases hlm : l = m
  · subst hlm
    simp only [if_true, true_and]
    by_cases hq : q = r
    · subst hq
      simp only [if_true]
      generalize w.watchersOf l = es
      induction es with
      | nil => rfl
      | cons e es ih =>
        by_cases he : e.constraint = q
        · simp [he]
        · simp [he, ih]
    · simp only [hq, if_false, Nat.sub_zero]
      generalize w.watchersOf l = es
      induction es with
      | nil => rfl
      | cons e es ih =>
        by_cases he : e.constraint = q
        · simp [he, hq]
        · simp [he, List.countP_cons, ih]
  · simp [hlm]

theorem watchersOf_takeWatchers (m : Literal) :
    (w.takeWatchers l).2.watchersOf m = if l = m then [] else w.watchersOf m := by
  have hlt : l.code < w.lists.entries.size := by
    have hsize := h.lists
    rw [LiteralTable.size] at hsize
    rw [hsize]
    exact Literal.code_lt_of_var_lt hl
  by_cases hlm : l = m
  · subst hlm
    simp [takeWatchers, watchersOf, LiteralTable.getD, LiteralTable.get?, LiteralTable.set, hlt]
  · have hcode : l.code ≠ m.code := fun hc => hlm (Literal.ext_code hc)
    simp [takeWatchers, watchersOf, LiteralTable.getD, LiteralTable.get?, LiteralTable.set, hlm,
      hcode]

end

theorem watchersOf_purge (w : Watches) (isAlive : Reference → Bool) (l : Literal) :
    (w.purge isAlive).watchersOf l = (w.watchersOf l).filter fun e => isAlive e.constraint := by
  simp only [purge, watchersOf, LiteralTable.map, LiteralTable.getD, LiteralTable.get?,
    Array.getElem?_map]
  cases w.lists.entries[l.code]? with
  | none => rfl
  | some es => simp

theorem numWatchers_purge (w : Watches) (isAlive : Reference → Bool) (r : Reference) (l : Literal) :
    (w.purge isAlive).numWatchers r l = if isAlive r then w.numWatchers r l else 0 := by
  rw [numWatchers, numWatchers, watchersOf_purge, List.countP_filter]
  by_cases hr : isAlive r = true
  · rw [if_pos hr]
    apply List.countP_congr
    intro e _
    by_cases he : e.constraint = r
    · simp [he, hr]
    · simp [he]
  · rw [if_neg hr, List.countP_eq_zero]
    intro e _
    by_cases he : e.constraint = r
    · simp [he, hr]
    · simp [he]

theorem watchersOf_clear (w : Watches) (l : Literal) : w.clear.watchersOf l = [] := by
  simp only [clear, watchersOf, LiteralTable.map, LiteralTable.getD, LiteralTable.get?,
    Array.getElem?_map]
  cases w.lists.entries[l.code]? <;> rfl

theorem watchersOf_grow (w : Watches) (n : Nat) (l : Literal) :
    (w.grow n).watchersOf l = w.watchersOf l := by
  simp only [grow, watchersOf, LiteralTable.grow, LiteralTable.getD, LiteralTable.get?]
  by_cases hl : l.code < w.lists.entries.size
  · rw [Array.getElem?_append_left hl]
  · rw [Array.getElem?_append_right (Nat.le_of_not_lt hl),
      Array.getElem?_eq_none (Nat.le_of_not_lt hl), Array.getElem?_replicate]
    split <;> rfl

/-! ## Undo entries -/

theorem undosOf_addUndo {w : Watches} {v : Nat} (hv : v < w.undos.size) (r : Reference) (u : Nat) :
    (w.addUndo v r).undosOf u = if v = u then w.undosOf u ++ [r] else w.undosOf u := by
  by_cases hvu : v = u
  · subst hvu
    have hget : w.undos[v]? = some w.undos[v] := Array.getElem?_eq_getElem hv
    simp only [addUndo, undosOf, Array.getElem?_modify, hget, if_true]
    simp
  · simp only [addUndo, undosOf, Array.getElem?_modify, hvu, if_false]

theorem undosOf_takeUndos (w : Watches) (v u : Nat) :
    (w.takeUndos v).2.undosOf u = if v = u then [] else w.undosOf u := by
  by_cases hvu : v = u
  · subst hvu
    simp only [takeUndos, undosOf, Array.getElem?_setIfInBounds_self, if_true]
    split <;> rfl
  · simp [takeUndos, undosOf, hvu]

theorem undosOf_purge (w : Watches) (isAlive : Reference → Bool) (v : Nat) :
    (w.purge isAlive).undosOf v = (w.undosOf v).filter isAlive := by
  simp only [purge, undosOf, Array.getElem?_map]
  cases w.undos[v]? with
  | none => rfl
  | some rs => simp

theorem undosOf_clear (w : Watches) (v : Nat) : w.clear.undosOf v = [] := by
  simp only [clear, undosOf, Array.getElem?_map]
  cases w.undos[v]? <;> rfl

theorem undosOf_grow (w : Watches) (n v : Nat) : (w.grow n).undosOf v = w.undosOf v := by
  simp only [grow, undosOf]
  by_cases hv : v < w.undos.size
  · rw [Array.getElem?_append_left hv]
  · rw [Array.getElem?_append_right (Nat.le_of_not_lt hv),
      Array.getElem?_eq_none (Nat.le_of_not_lt hv), Array.getElem?_replicate]
    split <;> rfl

theorem undosOf_eq_nil {w : Watches} {v : Nat} (hv : w.undos.size ≤ v) : w.undosOf v = [] := by
  simp [undosOf, Array.getElem?_eq_none hv]

/-! ## Sizes -/

namespace Sized

variable {w : Watches} {n : Nat} (h : w.Sized n)
include h

theorem add (l : Literal) (e : Watcher) : (w.add l e).Sized n :=
  ⟨by rw [← h.lists]; exact LiteralTable.size_modify _ _ _, h.undos⟩

theorem append (l : Literal) (es : List Watcher) : (w.append l es).Sized n :=
  ⟨by rw [← h.lists]; exact LiteralTable.size_modify _ _ _, h.undos⟩

omit h in
theorem of_append {l : Literal} {es : List Watcher} (h : (w.append l es).Sized n) : w.Sized n :=
  ⟨by rw [← h.lists]; exact (LiteralTable.size_modify _ _ _).symm, h.undos⟩

theorem remove (l : Literal) (r : Reference) : (w.remove l r).Sized n :=
  ⟨by rw [← h.lists]; exact LiteralTable.size_modify _ _ _, h.undos⟩

theorem takeWatchers (l : Literal) : (w.takeWatchers l).2.Sized n :=
  ⟨by rw [← h.lists]; simp [Watches.takeWatchers, LiteralTable.set, LiteralTable.size], h.undos⟩

theorem addUndo (v : Nat) (r : Reference) : (w.addUndo v r).Sized n :=
  ⟨h.lists, by rw [← h.undos]; simp [Watches.addUndo]⟩

theorem takeUndos (v : Nat) : (w.takeUndos v).2.Sized n :=
  ⟨h.lists, by rw [← h.undos]; simp [Watches.takeUndos]⟩

theorem purge (isAlive : Reference → Bool) : (w.purge isAlive).Sized n :=
  ⟨by rw [← h.lists]; simp [Watches.purge, LiteralTable.map, LiteralTable.size],
    by rw [← h.undos]; simp [Watches.purge]⟩

theorem clear : w.clear.Sized n :=
  ⟨by rw [← h.lists]; simp [Watches.clear, LiteralTable.map, LiteralTable.size],
    by rw [← h.undos]; simp [Watches.clear]⟩

theorem grow (m : Nat) : (w.grow m).Sized (max n (m + 1)) := by
  refine ⟨?_, ?_⟩
  · have hsize := h.lists
    simp only [Watches.grow, LiteralTable.size_grow]
    omega
  · have hsize := h.undos
    simp only [Watches.grow, Array.size_append, Array.size_replicate]
    omega

end Sized

/-! ## Notifications -/

theorem numUndos_purge (w : Watches) (isAlive : Reference → Bool) (v : Nat) (r : Reference) :
    (w.purge isAlive).numUndos v r = if isAlive r then w.numUndos v r else 0 := by
  rw [numUndos, undosOf_purge]
  by_cases hr : isAlive r = true
  · rw [if_pos hr, List.count_filter hr]
    rfl
  · rw [if_neg hr, List.count_eq_zero]
    exact fun hmem => hr (List.mem_filter.mp hmem).2

theorem numUndos_takeUndos (w : Watches) (v u : Nat) (r : Reference) :
    (w.takeUndos v).2.numUndos u r = if v = u then 0 else w.numUndos u r := by
  rw [numUndos, undosOf_takeUndos]
  by_cases hvu : v = u
  · rw [if_pos hvu, if_pos hvu, List.count_nil]
  · rw [if_neg hvu, if_neg hvu]
    rfl

theorem numUndos_addUndo {w : Watches} {v : Nat} (hv : v < w.undos.size) (q r : Reference)
    (u : Nat) : (w.addUndo v q).numUndos u r = w.numUndos u r + if u = v ∧ r = q then 1 else 0 := by
  rw [numUndos, numUndos, undosOf_addUndo hv]
  by_cases hvu : v = u
  · subst hvu
    by_cases hq : q = r
    · simp [hq]
    · have hr : ¬ r = q := fun h => hq h.symm
      simp [hq, hr]
  · have huv : ¬ u = v := fun h => hvu h.symm
    simp [hvu, huv]

theorem count_notified (w : Watches) (r : Reference) (v : Nat) :
    (w.notified r).count v = w.numUndos v r := by
  have hrange : ∀ vs : List Nat, vs.Nodup →
      (vs.flatMap fun u => List.replicate (w.numUndos u r) u).count v =
        if v ∈ vs then w.numUndos v r else 0 := by
    intro vs hvs
    induction vs with
    | nil => rfl
    | cons u vs ih =>
      obtain ⟨hu, hvs⟩ := List.nodup_cons.mp hvs
      rw [List.flatMap_cons, List.count_append, ih hvs, List.count_replicate]
      by_cases huv : u = v
      · subst huv
        simp [hu]
      · have hvu : ¬ v = u := fun h => huv h.symm
        simp [huv, hvu]
  rw [notified, hrange _ List.nodup_range]
  by_cases hv : v < w.undos.size
  · simp [hv]
  · simp [hv, numUndos, undosOf_eq_nil (Nat.le_of_not_lt hv)]

theorem notified_perm_of_numUndos {w w' : Watches} {r : Reference}
    (h : ∀ v, w'.numUndos v r = w.numUndos v r) : (w'.notified r).Perm (w.notified r) :=
  List.perm_iff_count.mpr fun v => by rw [count_notified, count_notified, h]

theorem length_notified_addUndo {w : Watches} {v : Nat} (hv : v < w.undos.size) (q r : Reference) :
    ((w.addUndo v q).notified r).length = (w.notified r).length + if q = r then 1 else 0 := by
  by_cases hq : q = r
  · subst hq
    have hperm : ((w.addUndo v q).notified q).Perm (v :: w.notified q) := by
      rw [List.perm_iff_count]
      intro u
      rw [count_notified, List.count_cons, count_notified, numUndos, numUndos, undosOf_addUndo hv]
      by_cases hvu : v = u
      · simp [hvu]
      · simp [hvu]
    simpa using hperm.length_eq
  · have hperm : ((w.addUndo v q).notified r).Perm (w.notified r) := by
      apply notified_perm_of_numUndos
      intro u
      rw [numUndos, numUndos, undosOf_addUndo hv]
      by_cases hvu : v = u
      · simp [hvu, hq]
      · simp [hvu]
    simpa [hq] using hperm.length_eq

theorem length_notified_takeUndos (w : Watches) (v : Nat) (r : Reference) :
    ((w.takeUndos v).2.notified r).length + w.numUndos v r = (w.notified r).length := by
  have hperm : (w.notified r).Perm
      (List.replicate (w.numUndos v r) v ++ (w.takeUndos v).2.notified r) := by
    rw [List.perm_iff_count]
    intro u
    rw [List.count_append, count_notified, count_notified, List.count_replicate, numUndos_takeUndos]
    by_cases hvu : v = u
    · simp [hvu]
    · simp [hvu]
  have := hperm.length_eq
  simp only [List.length_append, List.length_replicate] at this
  omega

end Watches

end ClauseLearning
