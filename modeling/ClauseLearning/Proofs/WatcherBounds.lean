import ClauseLearning.Proofs.CounterBounds

/-!
# Watchers within bounds

What is watched is a position of a requirement that there is, and only literals of the model are
watched (`WatcherBased.State.Fits`). So no access is out of bounds, also for a model that does not
meet the requirements or does not know all variables that they name.

* `WatcherBased.Checked`: watching with checks.
* `Checked.primeImplicant_eq`: what the checks leave of any strategy.
-/

namespace ClauseLearning

open Requirement
open PriorityHeap.Checked (read write read_eq write_eq setIfInBounds_eq_modify)

/-! ## Watching -/

namespace WatcherBased

namespace Checked

/-- The first true literals of the requirement with number `i` are watched; the result says which
positions they have. -/
def choose (isTrue : LiteralTable Bool) (i : Nat) :
    List Literal → Nat → LiteralTable (Array Nat) →
    Except Fault (List Bool × LiteralTable (Array Nat))
  | [], _, watchers => .ok ([], watchers)
  | _ :: ls, 0, watchers => do
    let (chosen, watchers) ← choose isTrue i ls 0 watchers
    return (false :: chosen, watchers)
  | l :: ls, n + 1, watchers => do
    if l.code < isTrue.size then
      if ← isTrue.checkedGet l then
        let (chosen, watchers) ← choose isTrue i ls n (← watchers.checkedModify l (·.push i))
        return (true :: chosen, watchers)
    let (chosen, watchers) ← choose isTrue i ls (n + 1) watchers
    return (false :: chosen, watchers)

def enter (isTrue : LiteralTable Bool) (i : Nat) (r : Requirement) (s : State) :
    Except Fault State := do
  let (chosen, watchers) ← choose isTrue i r.listed (CounterBased.degree r) s.watchers
  return ⟨s.status, s.watched.push chosen.toArray, watchers⟩

def ofRequirements (isTrue : LiteralTable Bool) (rs : List Requirement) : Except Fault State :=
  rs.zipIdx.foldlM (fun s e => enter isTrue e.2 e.1 s)
    ⟨LiteralTable.empty.grow isTrue.size .candidate, #[], LiteralTable.empty.grow isTrue.size #[]⟩

def setStatus (l : Literal) (x : Status) (s : State) : Except Fault State := do
  return ⟨← s.status.checkedSet l x, s.watched, s.watchers⟩

def isWatched (s : State) (i position : Nat) : Except Fault Bool := do
  read (← read s.watched i) position

def replacement? (isTrue : LiteralTable Bool) (l : Literal) (i : Nat) (ls : List Literal)
    (s : State) : Except Fault (Option (Literal × Nat)) :=
  ls.zipIdx.findM? fun e => do
    if e.1 = l then return false
    if ← isWatched s i e.2 then return false
    if e.1.code < isTrue.size then
      if ← isTrue.checkedGet e.1 then
        return decide ((← s.status.checkedGet e.1) ≠ .dropped)
    return false

def move (l : Literal) (i : Nat) (ls : List Literal) (replacement : Literal × Nat) (s : State) :
    Except Fault State := do
  let old? ← ls.zipIdx.findM? fun e => do
    if e.1 = l then isWatched s i e.2 else return false
  let row ← read s.watched i
  let row ← match old? with
    | some old => write row old.2 false
    | none => .ok row
  let watched ← write s.watched i (← write row replacement.2 true)
  return ⟨s.status, watched, ← s.watchers.checkedModify replacement.1 (·.push i)⟩

def release (isTrue : LiteralTable Bool) (rs : Array Requirement) (l : Literal) :
    List Nat → State → Except Fault (List Nat × State)
  | [], s => .ok ([], s)
  | i :: is, s => do
    match ← read rs i with
    | .mandatory _ => release isTrue rs l is s
    | .atLeast ls _ =>
      match ← replacement? isTrue l i ls s with
      | some replacement => release isTrue rs l is (← move l i ls replacement s)
      | none =>
        let (remaining, s) ← release isTrue rs l is s
        return (i :: remaining, s)

def tryDrop (isTrue : LiteralTable Bool) (rs : Array Requirement) (l : Literal) (s : State) :
    Except Fault (Bool × State) := do
  let is ← s.watchers.checkedGet l
  let watchers ← s.watchers.checkedSet l #[]
  match ← release isTrue rs l is.toList ⟨s.status, s.watched, watchers⟩ with
  | ([], s) => return (false, ← setStatus l .dropped s)
  | (remaining, s) =>
    let s ← setStatus l .mandatory s
    return (true, ⟨s.status, s.watched,
      ← s.watchers.checkedModify l (· ++ remaining.toArray)⟩)

def tryAll (isTrue : LiteralTable Bool) (rs : Array Requirement) :
    List Literal → State → Except Fault (List Literal)
  | [], _ => .ok []
  | l :: ls, s => do
    if (← s.status.checkedGet l) = .mandatory then tryAll isTrue rs ls s
    else
      match ← tryDrop isTrue rs l s with
      | (true, s) => return l :: (← tryAll isTrue rs ls s)
      | (false, s) => tryAll isTrue rs ls s

def implicant (model : List Literal) (rs : List Requirement) : Except Fault (List Literal) := do
  let isTrue := truthTable model
  let s ← ofRequirements isTrue rs
  let given ← model.filterM fun l => read (ClauseLearning.Checked.marks model rs) l.var
  let s ← given.foldlM (fun s l => setStatus l .mandatory s) s
  return given ++ (← tryAll isTrue rs.toArray model.reverse s)

end Checked

namespace State

/-- All that watches is a requirement with a number below `n`. -/
def Numbered (watchers : LiteralTable (Array Nat)) (n : Nat) : Prop :=
  ∀ l, ∀ i ∈ (watchers.getD l #[]).toList, i < n

theorem Numbered.modify {watchers : LiteralTable (Array Nat)} {n : Nat} (h : Numbered watchers n)
    (l : Literal) {f : Array Nat → Array Nat}
    (hf : ∀ is : Array Nat, (∀ i ∈ is.toList, i < n) → ∀ i ∈ (f is).toList, i < n) :
    Numbered (watchers.modify l f) n := by
  intro m
  rw [LiteralTable.getD_modify]
  split
  · exact hf _ (h m)
  · exact h m

theorem Numbered.push {watchers : LiteralTable (Array Nat)} {n : Nat} (h : Numbered watchers n)
    (l : Literal) {i : Nat} (hi : i < n) : Numbered (watchers.modify l (·.push i)) n := by
  refine h.modify l fun is his j hj => ?_
  rw [Array.toList_push] at hj
  rcases List.mem_append.mp hj with hj | hj
  · exact his j hj
  · rwa [List.mem_singleton.mp hj]

theorem Numbered.foldl_push {watchers : LiteralTable (Array Nat)} {n : Nat}
    (h : Numbered watchers n) {i : Nat} (hi : i < n) (es : List (Literal × Bool)) :
    Numbered (es.foldl (fun table e => if e.2 then table.modify e.1 (·.push i) else table) watchers)
      n := by
  induction es generalizing watchers with
  | nil => exact h
  | cons e es ih =>
    rw [List.foldl_cons]
    split
    · exact ih (h.push e.1 hi)
    · exact ih h

/-- The tables are as long as they have to be, and what watches is numbered. -/
structure Fits (isTrue : LiteralTable Bool) (rs : List Requirement) (s : State) : Prop where
  status : s.status.size = isTrue.size
  watchers : s.watchers.size = isTrue.size
  watched : s.watched.size = rs.length
  rows : ∀ i, (s.watched[i]?.getD #[]).size = (listedAt rs i).length
  numbered : Numbered s.watchers rs.length

namespace Fits

variable {isTrue : LiteralTable Bool} {rs : List Requirement} {s : State}

/-- There is a mark for each literal that is listed. -/
theorem lt_size_row (h : s.Fits isTrue rs) {i : Nat} {e : Literal × Nat}
    (he : e ∈ (listedAt rs i).zipIdx) : e.2 < (s.watched[i]?.getD #[]).size := by
  rw [h.rows i]
  exact (List.getElem?_eq_some_iff.mp (List.mem_zipIdx_iff_getElem?.mp he)).1

/-- So a requirement that lists something has a row of marks. -/
theorem exists_row (h : s.Fits isTrue rs) {i : Nat} {e : Literal × Nat}
    (he : e ∈ (listedAt rs i).zipIdx) : ∃ row, s.watched[i]? = some row := by
  have hroom := h.lt_size_row he
  by_contra hnone
  rw [Option.eq_none_iff_forall_ne_some.mpr (not_exists.mp hnone)] at hroom
  exact Nat.not_lt_zero _ hroom

theorem setStatus (h : s.Fits isTrue rs) (l : Literal) (x : Status) :
    (s.setStatus l x).Fits isTrue rs :=
  ⟨(LiteralTable.size_set ..).trans h.status, h.watchers, h.watched, h.rows, h.numbered⟩

theorem enter (h : s.Fits isTrue rs) (r : Requirement) :
    (s.enter isTrue rs.length r).Fits isTrue (rs ++ [r]) := by
  have hlength : (rs ++ [r]).length = rs.length + 1 := List.length_append
  have hn : Numbered s.watchers (rs.length + 1) := fun l i hi =>
      Nat.lt_succ_of_lt (h.numbered l i hi)
  rw [enter_eq]
  refine ⟨h.status, (size_foldl_push ..).trans h.watchers, ?_, fun i => ?_,
    hlength ▸ hn.foldl_push (Nat.lt_succ_self _) _⟩
  · rw [Array.size_push, h.watched, hlength]
  · rw [Array.getElem?_push, h.watched, listedAt_concat]
    split
    · exact length_choose ..
    · exact h.rows i

theorem takeWatchers (h : s.Fits isTrue rs) (l : Literal) :
    (s.takeWatchers l).2.Fits isTrue rs := by
  refine ⟨h.status, (LiteralTable.size_set ..).trans h.watchers, h.watched, h.rows, fun m => ?_⟩
  show ∀ i ∈ ((s.watchers.set l #[]).getD m #[]).toList, i < rs.length
  rw [LiteralTable.getD_set]
  split
  · exact nofun
  · exact h.numbered m

theorem move (h : s.Fits isTrue rs) (l : Literal) {i : Nat} (hi : i < rs.length) (ls : List Literal)
    (replacement : Literal × Nat) : (s.move l i ls replacement).Fits isTrue rs := by
  refine ⟨h.status, (LiteralTable.size_modify ..).trans h.watchers,
    Array.size_modify.trans h.watched, fun j => ?_, h.numbered.push replacement.1 hi⟩
  rw [← h.rows j, State.move, Array.getElem?_modify]
  split
  · cases s.watched[j]? with
    | none => rfl
    | some row =>
      simp only [Option.map_some, Option.getD_some, Array.size_setIfInBounds]
      split
      · exact Array.size_setIfInBounds
      · rfl
  · rfl

theorem release {l : Literal} {is remaining : List Nat} {s' : State} (h : s.Fits isTrue rs)
    (his : ∀ i ∈ is, i < rs.length)
    (hrun : State.release isTrue rs.toArray l is s = (remaining, s')) :
    s'.Fits isTrue rs ∧ ∀ i ∈ remaining, i < rs.length := by
  induction is generalizing s remaining with
  | nil =>
    cases hrun
    exact ⟨h, nofun⟩
  | cons i is ih =>
    obtain ⟨hi, his⟩ := List.forall_mem_cons.mp his
    unfold State.release at hrun
    split at hrun
    · split at hrun
      · exact ih (h.move l hi _ _) his hrun
      · cases hrun
        obtain ⟨hfits, hall⟩ := ih h his rfl
        exact ⟨hfits, List.forall_mem_cons.mpr ⟨hi, hall⟩⟩
    · exact ih h his hrun

theorem tryDrop (h : s.Fits isTrue rs) (l : Literal) :
    (s.tryDrop isTrue rs.toArray l).2.Fits isTrue rs := by
  unfold State.tryDrop
  rcases hrun : State.release isTrue rs.toArray l (s.takeWatchers l).1 (s.takeWatchers l).2 with
    ⟨remaining, s'⟩
  obtain ⟨hfits, hall⟩ := (h.takeWatchers l).release (h.numbered l) hrun
  dsimp only
  rw [hrun]
  cases remaining with
  | nil => exact hfits.setStatus l .dropped
  | cons i is =>
    have hset := hfits.setStatus l .mandatory
    refine ⟨hset.status, (LiteralTable.size_modify ..).trans hset.watchers, hset.watched, hset.rows,
      hset.numbered.modify l fun ks hks k hk => ?_⟩
    rw [Array.toList_append] at hk
    exact (List.mem_append.mp hk).elim (hks k) (hall k)

end Fits

end State

namespace Checked

variable {isTrue : LiteralTable Bool} {rs : List Requirement} {s : State}

theorem choose_eq (isTrue : LiteralTable Bool) (i : Nat) (ls : List Literal) (n : Nat)
    {watchers : LiteralTable (Array Nat)} (h : watchers.size = isTrue.size) :
    choose isTrue i ls n watchers = .ok (State.choose isTrue ls n,
      (ls.zip (State.choose isTrue ls n)).foldl
        (fun table e => if e.2 then table.modify e.1 (·.push i) else table) watchers) := by
  induction ls generalizing n watchers with
  | nil => rfl
  | cons l ls ih =>
    cases n with
    | zero =>
      unfold choose
      rw [ih 0 h]
      rfl
    | succ n =>
      have hskipped : (do
          let (chosen, watchers) ← choose isTrue i ls (n + 1) watchers
          return (false :: chosen, watchers)) = .ok (false :: State.choose isTrue ls (n + 1),
            (ls.zip (State.choose isTrue ls (n + 1))).foldl
              (fun table e => if e.2 then table.modify e.1 (·.push i) else table) watchers) := by
        rw [ih (n + 1) h]
        rfl
      unfold choose State.choose
      by_cases hl : l.code < isTrue.size
      · rw [if_pos hl, LiteralTable.checkedGet_eq hl false, ok_bind,
          LiteralTable.checkedModify_eq (h.symm ▸ hl), ok_bind,
          ih n ((LiteralTable.size_modify ..).trans h), ok_bind]
        cases isTrue.getD l false with
        | true => rfl
        | false => exact hskipped
      · rw [if_neg hl, LiteralTable.getD_of_size_le (Nat.le_of_not_lt hl)]
        exact hskipped

theorem enter_eq (i : Nat) (r : Requirement) (h : s.watchers.size = isTrue.size) :
    enter isTrue i r s = .ok (s.enter isTrue i r) := by
  rw [enter, choose_eq isTrue i _ _ h, State.enter_eq]
  rfl

theorem ofRequirements_eq (isTrue : LiteralTable Bool) (rs : List Requirement) :
    ofRequirements isTrue rs = .ok (State.ofRequirements isTrue rs) ∧
      (State.ofRequirements isTrue rs).Fits isTrue rs := by
  induction rs using List.reverseRecOn with
  | nil =>
    refine ⟨rfl, ?_, ?_, rfl, fun i => rfl, fun l => ?_⟩
    · exact (LiteralTable.size_grow ..).trans (Nat.zero_max _)
    · exact (LiteralTable.size_grow ..).trans (Nat.zero_max _)
    · show ∀ i ∈ ((LiteralTable.empty.grow isTrue.size (#[] : Array Nat)).getD l #[]).toList, i < 0
      rw [LiteralTable.getD_grow]
      exact nofun
  | append_singleton rs r ih =>
    obtain ⟨hrun, hfits⟩ := ih
    rw [State.ofRequirements_concat]
    refine ⟨?_, hfits.enter r⟩
    unfold ofRequirements at hrun ⊢
    rw [List.zipIdx_append, List.foldlM_append, hrun, ok_bind, List.zipIdx_singleton,
      List.foldlM_cons, Nat.zero_add, enter_eq _ _ hfits.watchers]
    rfl

/-! ### Looking for something else -/

theorem setStatus_eq (h : s.Fits isTrue rs) {l : Literal} (hl : l.code < isTrue.size) (x : Status) :
    setStatus l x s = .ok (s.setStatus l x) := by
  rw [setStatus, LiteralTable.checkedSet_eq (h.status.symm ▸ hl)]
  rfl

variable {i : Nat}

theorem isWatched_eq (h : s.Fits isTrue rs) {e : Literal × Nat} (he : e ∈ (listedAt rs i).zipIdx) :
    isWatched s i e.2 = .ok (s.isWatched i e.2) := by
  obtain ⟨row, hrow⟩ := h.exists_row he
  have hj := h.lt_size_row he
  rw [hrow, Option.getD_some] at hj
  have hget : row[e.2]? = some row[e.2] := Array.getElem?_eq_getElem hj
  rw [isWatched, State.isWatched, read_eq hrow, hrow, Option.getD_some, hget]
  exact read_eq hget

theorem replacement?_eq (h : s.Fits isTrue rs) (l : Literal) :
    replacement? isTrue l i (listedAt rs i) s =
      .ok (s.replacement? isTrue l i (listedAt rs i)) := by
  refine findM?_eq fun e he => ?_
  by_cases hl : e.1 = l
  · simp only [hl, if_true, ne_eq, not_true, decide_false, Bool.false_and]
    rfl
  · rw [if_neg hl, isWatched_eq h he, decide_eq_true hl]
    cases s.isWatched i e.2 with
    | true => rfl
    | false =>
      by_cases hcode : e.1.code < isTrue.size
      · rw [if_pos hcode, LiteralTable.checkedGet_eq hcode false]
        cases isTrue.getD e.1 false with
        | true =>
          rw [LiteralTable.checkedGet_eq (h.status.symm ▸ hcode) .candidate]
          rfl
        | false => rfl
      · rw [if_neg hcode, LiteralTable.getD_of_size_le (Nat.le_of_not_lt hcode)]
        rfl

theorem move_eq (h : s.Fits isTrue rs) (l : Literal) {replacement : Literal × Nat}
    (hmem : replacement ∈ (listedAt rs i).zipIdx) (htrue : isTrue.getD replacement.1 false = true) :
    move l i (listedAt rs i) replacement s = .ok (s.move l i (listedAt rs i) replacement) := by
  have hfind : ((listedAt rs i).zipIdx.findM? fun e => do
      if e.1 = l then isWatched s i e.2 else return false) =
      .ok ((listedAt rs i).zipIdx.find? fun e => decide (e.1 = l) && s.isWatched i e.2) := by
    refine findM?_eq fun e he => ?_
    by_cases hl : e.1 = l
    · rw [if_pos hl, isWatched_eq h he, decide_eq_true hl, Bool.true_and]
    · rw [if_neg hl, decide_eq_false hl, Bool.false_and]
      rfl
  obtain ⟨row, hrow⟩ := h.exists_row hmem
  have hbound : ∀ {e : Literal × Nat}, e ∈ (listedAt rs i).zipIdx → e.2 < row.size := by
    intro e he
    have hj := h.lt_size_row he
    rwa [hrow, Option.getD_some] at hj
  have hi := (Array.getElem?_eq_some_iff.mp hrow).1
  have hcode := h.watchers.symm ▸ LiteralTable.lt_size_of_getD htrue
  unfold move State.move
  rw [hfind, ok_bind, read_eq hrow, ok_bind]
  cases hold : (listedAt rs i).zipIdx.find? fun e => decide (e.1 = l) && s.isWatched i e.2 with
  | none =>
    simp only [ok_bind, write_eq (hbound hmem), write_eq hi, LiteralTable.checkedModify_eq hcode,
      setIfInBounds_eq_modify hrow fun row => row.setIfInBounds replacement.2 true]
    rfl
  | some old =>
    have hold := hbound (List.mem_of_find?_eq_some hold)
    have hmem' : replacement.2 < (row.setIfInBounds old.2 false).size := by
      rw [Array.size_setIfInBounds]
      exact hbound hmem
    simp only [ok_bind, write_eq hold, write_eq hmem', write_eq hi,
      LiteralTable.checkedModify_eq hcode, setIfInBounds_eq_modify hrow fun row =>
        (row.setIfInBounds old.2 false).setIfInBounds replacement.2 true]
    rfl

theorem release_eq {l : Literal} {is : List Nat} (h : s.Fits isTrue rs)
    (his : ∀ i ∈ is, i < rs.length) :
    release isTrue rs.toArray l is s = .ok (State.release isTrue rs.toArray l is s) := by
  induction is generalizing s with
  | nil => rfl
  | cons i is ih =>
    obtain ⟨hi, his⟩ := List.forall_mem_cons.mp his
    have hget : rs.toArray[i]? = some rs[i] := List.getElem?_toArray ▸ List.getElem?_eq_getElem hi
    have hlisted : ∀ {ls degree}, rs[i] = .atLeast ls degree → listedAt rs i = ls := by
      intro ls degree hr
      rw [listedAt, List.getElem?_eq_getElem hi, hr]
      rfl
    unfold release State.release
    rw [read_eq hget, hget, ok_bind]
    cases hr : rs[i] with
    | mandatory vs => exact ih h his
    | atLeast ls degree =>
      obtain rfl := hlisted hr
      dsimp only
      rw [replacement?_eq h l, ok_bind]
      cases hfound : s.replacement? isTrue l i (listedAt rs i) with
      | some replacement =>
        have hmem := List.mem_of_find?_eq_some hfound
        have htrue := List.find?_some hfound
        simp only [Bool.and_eq_true] at htrue
        dsimp only
        rw [move_eq h l hmem htrue.1.2, ok_bind]
        exact ih (h.move l hi _ _) his
      | none =>
        dsimp only
        rw [ih h his]
        rfl

theorem tryDrop_eq (h : s.Fits isTrue rs) {l : Literal} (hl : l.code < isTrue.size) :
    tryDrop isTrue rs.toArray l s = .ok (s.tryDrop isTrue rs.toArray l) := by
  have hl' : l.code < s.watchers.size := h.watchers.symm ▸ hl
  have htaken := h.takeWatchers l
  have hnumbered : ∀ i ∈ (s.takeWatchers l).1, i < rs.length := h.numbered l
  unfold tryDrop State.tryDrop
  rw [LiteralTable.checkedGet_eq hl' #[], LiteralTable.checkedSet_eq hl']
  show (release isTrue rs.toArray l (s.takeWatchers l).1 (s.takeWatchers l).2 >>= _) = _
  rw [release_eq htaken hnumbered, ok_bind]
  dsimp only
  rcases hrun : State.release isTrue rs.toArray l (s.takeWatchers l).1 (s.takeWatchers l).2 with
    ⟨remaining, s'⟩
  obtain ⟨hfits, -⟩ := htaken.release hnumbered hrun
  cases remaining with
  | nil =>
    dsimp only
    rw [setStatus_eq hfits hl]
    rfl
  | cons i is =>
    have hset := hfits.setStatus l .mandatory
    dsimp only
    rw [setStatus_eq hfits hl, ok_bind, LiteralTable.checkedModify_eq (hset.watchers.symm ▸ hl)]
    rfl

theorem foldlM_setStatus_eq {ls : List Literal} (h : s.Fits isTrue rs) (x : Status)
    (hls : ∀ l ∈ ls, l.code < isTrue.size) :
    ls.foldlM (fun s l => setStatus l x s) s = .ok (ls.foldl (fun s l => s.setStatus l x) s) ∧
      (ls.foldl (fun s l => s.setStatus l x) s).Fits isTrue rs := by
  induction ls generalizing s with
  | nil => exact ⟨rfl, h⟩
  | cons l ls ih =>
    obtain ⟨hl, hls⟩ := List.forall_mem_cons.mp hls
    rw [List.foldlM_cons, setStatus_eq h hl]
    exact ih (h.setStatus l x) hls

theorem tryAll_eq {ls : List Literal} (h : s.Fits isTrue rs)
    (hls : ∀ l ∈ ls, l.code < isTrue.size) :
    tryAll isTrue rs.toArray ls s = .ok (s.tryAll isTrue rs.toArray ls) := by
  induction ls generalizing s with
  | nil => rfl
  | cons l ls ih =>
    obtain ⟨hl, hls⟩ := List.forall_mem_cons.mp hls
    have htried := h.tryDrop l
    unfold tryAll State.tryAll
    rw [LiteralTable.checkedGet_eq (h.status.symm ▸ hl) .candidate, ok_bind, tryDrop_eq h hl,
      ok_bind]
    split
    · exact ih h hls
    · rcases hrun : s.tryDrop isTrue rs.toArray l with ⟨needed, s'⟩
      rw [hrun] at htried
      cases needed with
      | true =>
        dsimp only
        rw [ih htried hls]
        rfl
      | false => exact ih htried hls

end Checked

theorem Checked.implicant_eq (model : List Literal) (rs : List Requirement) :
    Checked.implicant model rs = .ok (WatcherBased.implicant model rs) := by
  have hsize : ∀ l ∈ model, l.code < (truthTable model).size := fun l hl => size_truthTable hl
  obtain ⟨hrun, hfits⟩ := Checked.ofRequirements_eq (truthTable model) rs
  have hgiven : ∀ l ∈ model.filter fun l => isMandatory (mandatoryTable rs) l.var,
      l.code < (truthTable model).size := fun l hl => hsize l (List.mem_of_mem_filter hl)
  obtain ⟨hset, hfits⟩ := Checked.foldlM_setStatus_eq hfits .mandatory hgiven
  unfold Checked.implicant
  dsimp only
  rw [hrun, ok_bind, filterM_eq fun l hl => ClauseLearning.Checked.read_marks rs hl, ok_bind, hset,
    ok_bind, Checked.tryAll_eq hfits fun l hl => hsize l (List.mem_reverse.mp hl)]
  rfl

end WatcherBased

/-! ## Any strategy -/

namespace Checked

def primeImplicant (strategy : ImplicantStrategy) (model : List Literal) (rs : List Requirement) :
    Except Fault (List Literal) :=
  match strategy with
  | .quadratic => Quadratic.Checked.implicant model rs
  | .counterBased => CounterBased.Checked.implicant model rs
  | .watcherBased => WatcherBased.Checked.implicant model rs

/-- Of a model with distinct variables no access is out of bounds but one of a literal that is
looked up unseen, and no counter runs out, whatever is required. -/
theorem primeImplicant_eq (strategy : ImplicantStrategy) {model : List Literal}
    (hnodup : model.Nodup) (rs : List Requirement) :
    primeImplicant strategy model rs = ClauseLearning.primeImplicant strategy model rs := by
  cases strategy with
  | quadratic => exact Quadratic.Checked.implicant_eq model rs
  | counterBased => exact CounterBased.Checked.implicant_eq hnodup rs
  | watcherBased => exact WatcherBased.Checked.implicant_eq model rs

end Checked

end ClauseLearning
