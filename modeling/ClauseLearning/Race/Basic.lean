import ClauseLearning.Formula.Basic
import ClauseLearning.Race.Podium

/-!
# Racing

Several sessions with different options try the same formula, and the first answer counts. Here they
run one after the other, which is one of the orders in which their steps may happen: whoever comes
after the first answer is turned away.

What happens is noted for a reader: notices, details of the searches, and the statistics of the
winner.
-/

namespace ClauseLearning

/-- The answer of a race. -/
inductive Verdict
  /-- Has a model as signed numbers by variable, and a prime implicant if one was asked for. -/
  | satisfiable (model : List Int) (implicant : Option (List Int))
  | unsatisfiable
  | unknown
  deriving DecidableEq, Repr

/-- What is noted on the way. -/
inductive Note
  | info (text : String)
  | debug (text : String)
  | statistics (s : Statistics)
  deriving Repr

namespace Race

/-- The options of `n` contestants, which differ in their seeds, phases and random decisions. The
first one has the given options. -/
def diversify (base : Options) (n : Nat) : List Options :=
  (List.range n).map fun i =>
    if i = 0 then base
    else { base with
      seed := base.seed + UInt64.ofNat i
      phase :=
        match i % 3 with
        | 0 => base.phase
        | 1 => .negative
        | _ => .random
      randomFrequency := if base.randomFrequency > 0.01 then base.randomFrequency else 0.01 }

/-- A span of time: milliseconds below a second, else seconds. -/
def spanText (milliseconds : Nat) : String :=
  if milliseconds = 0 then "0ns"
  else if milliseconds < 1000 then toString milliseconds ++ "ms"
  else Decimal.Digits.text ⟨milliseconds, -3⟩ ++ "s"

/-- What is noted before a search with a timeout is stopped. -/
def expiryNotes : Timeout → List Note
  | .milliseconds n => [.debug s!"Wall-clock timeout of {spanText n} expired"]
  | _ => []

/-- The notes about what a session with a timeout reported. -/
def notesOf (timeout : Timeout) (events : List Event) : List Note :=
  events.flatMap fun event =>
    (if event = .searchStopped then expiryNotes timeout else []) ++
      (event.text?.map .debug).toList

/-- What a session without constraints of its own kinds knows. -/
abbrev PlainSession := Session Empty

/-- Adds a formula and asks for a model. -/
def solve (i : Nat) (f : Formula) (s : PlainSession) :
    Option Answer × List Note × PlainSession :=
  match (f.addTo (κ := Empty)).run s with
  | (.error _, s) => (none, [], s)
  | (.ok (.error refusal), s) =>
    (some (.unsatisfiable []),
      [.debug s!"Solver {i} found a conflict while adding the formula: {refusal.message}"], s)
  | (.ok (.ok ()), s) =>
    match (Session.query (κ := Empty) [] false).run s with
    | (.ok (.ok answer), s) =>
      let (events, s) := s.takeEvents
      (some answer, notesOf s.book.options.timeout events, s)
    | (_, s) =>
      let (events, s) := s.takeEvents
      (none, notesOf s.book.options.timeout events ++
        [.debug s!"Solver {i} stopped without an answer"], s)

/-- Signed numbers of literals. -/
def numbers (ls : List Literal) : List Int := ls.map Literal.toDimacs

/-- The verdict of the winner, with a prime implicant if one is asked for. -/
def verdict (withImplicant : Bool) (answer : Answer) (s : PlainSession) : Verdict × PlainSession :=
  match answer with
  | .unsatisfiable _ => (.unsatisfiable, s)
  | .satisfiable model =>
    if withImplicant then
      match (Session.computeImplicant (κ := Empty)).run s with
      | (.ok implicant, s) => (.satisfiable (numbers model) (some (numbers implicant)), s)
      | (.error _, s) => (.satisfiable (numbers model) none, s)
    else (.satisfiable (numbers model) none, s)

/-- Lets a contestant try, if the race is not finished yet. -/
def attempt (f : Formula) (withImplicant : Bool) (i : Nat) (o : Options)
    (p : Podium Verdict) : Podium Verdict × List Note :=
  match p.register i with
  | none => (p, [])
  | some p =>
    match solve i f (.make o) with
    | (none, notes, _) => (p, notes)
    | (some answer, notes, s) =>
      let (verdict, s) := verdict withImplicant answer s
      let (events, s) := s.takeEvents
      (p.claim i verdict,
        notes ++ .info s!"Solver {i} answered first" :: notesOf o.timeout events ++
          [.statistics s.statistics])

/-- Lets the contestants try one after the other; the first of them has the given number. -/
def attemptAll (f : Formula) (withImplicant : Bool) :
    Nat → List Options → Podium Verdict → Podium Verdict × List Note
  | _, [], p => (p, [])
  | i, o :: os, p =>
    let (p, notes) := attempt f withImplicant i o p
    let (p, rest) := attemptAll f withImplicant (i + 1) os p
    (p, notes ++ rest)

/-- The result of a race: the verdict, and who found it. -/
structure Result where
  verdict : Verdict
  winner : Option Nat
  notes : List Note

/-- Races for a formula. An interruption comes before everything else. -/
def run (f : Formula) (os : List Options) (withImplicant interrupted : Bool) : Result :=
  let start : Podium Verdict := if interrupted then Podium.empty.interrupt else .empty
  let (p, notes) := attemptAll f withImplicant 0 os start
  match p.winner with
  | some (i, verdict) => ⟨verdict, some i, notes⟩
  | none => ⟨.unknown, none, notes⟩

end Race

end ClauseLearning
