import ClauseLearning.Decimal.Shortest
import ClauseLearning.Word

/-!
# Numbers as text

Doubles are written with the fewest digits that read back, always positionally, and without a
point when they are whole. They are read from an optional sign and either a decimal number with an
optional exponent or the name of a special value, in any case of letters.
-/

namespace ClauseLearning.Decimal

/-! ## Writing -/

def zeros (n : Nat) : String := String.ofList (List.replicate n '0')

/-- Writes a decimal positionally. -/
def Digits.text (d : Digits) : String :=
  let ds := Nat.toDigits 10 d.digits
  if 0 ≤ d.exponent then String.ofList ds ++ zeros d.exponent.toNat
  else
    let places := (-d.exponent).toNat
    let padded := List.replicate (places + 1 - ds.length) '0' ++ ds
    let whole := padded.take (padded.length - places)
    let fraction := (padded.drop (padded.length - places)).reverse.dropWhile (· == '0')
    if fraction.isEmpty then String.ofList whole
    else String.ofList (whole ++ '.' :: fraction.reverse)

/-- How many fractions a binary exponent has: a double stores 52 bits of its fraction. -/
def numFractions : Nat := 0x10000000000000

/-- The parts of a finite positive double. -/
def binaryOfBits (bits : Nat) : Binary :=
  let fraction : Nat := bits % numFractions
  let e : Nat := bits / numFractions
  if e = 0 then ⟨fraction, -1074, false⟩
  else ⟨numFractions + fraction, (e : Int) - 1075, fraction == 0 && decide (1 < e)⟩

/-- Writes a double. -/
def text (x : Float) : String :=
  if x.isNaN then "NaN"
  else
    let bits := x.toBits.toNat
    let sign := if Word.bound64 / 2 ≤ bits then "-" else ""
    let magnitude := bits % (Word.bound64 / 2)
    if x.isInf then sign ++ "inf"
    else if magnitude = 0 then sign ++ "0"
    else sign ++ (shortest (binaryOfBits magnitude)).text

/-! ## Reading -/

/-- The value of a text of digits. -/
def readDigits (cs : List Char) : Nat :=
  cs.foldl (fun n c => 10 * n + (c.toNat - '0'.toNat)) 0

/-- Reads an unsigned number: digits, or nothing if there is none or another character. -/
def readNat? (cs : List Char) : Option Nat :=
  if cs.isEmpty || !cs.all Char.isDigit then none else some (readDigits cs)

/-- Reads a number with an optional sign. -/
def readInt? : List Char → Option Int
  | '-' :: cs => (readNat? cs).map fun n => -(n : Int)
  | '+' :: cs => (readNat? cs).map fun n => (n : Int)
  | cs => (readNat? cs).map fun n => (n : Int)

/-- Reads an unsigned number below a bound, with an optional plus. -/
def readBelow? (bound : Nat) (cs : List Char) : Option Nat :=
  let digits := match cs with
    | '+' :: cs => cs
    | cs => cs
  (readNat? digits).filter fun n => decide (n < bound)

/-- The double nearest to `n · 10 ^ e`. Exponents beyond any double are cut off first. -/
def nearest (n : Nat) (e : Int) : Float :=
  if n = 0 then 0
  else if 400 < e then Float.ofScientific 1 false 400
  else if e < -(400 + numDigits n : Int) then 0
  else Float.ofScientific n (decide (e < 0)) e.natAbs

/-- Reads the exponent behind the digits. -/
def readExponent? : List Char → Option Int
  | [] => some 0
  | c :: cs => if c == 'e' || c == 'E' then readInt? cs else none

/-- Reads an unsigned decimal number with at least one digit. -/
def readUnsigned? (cs : List Char) : Option Float :=
  let whole := cs.takeWhile Char.isDigit
  let (fraction, rest) := match cs.dropWhile Char.isDigit with
    | '.' :: cs => (cs.takeWhile Char.isDigit, cs.dropWhile Char.isDigit)
    | cs => ([], cs)
  if whole.isEmpty && fraction.isEmpty then none
  else (readExponent? rest).map fun e =>
    nearest (readDigits (whole ++ fraction)) (e - fraction.length)

/-- Reads the name of a special value. -/
def readSpecial? (cs : List Char) : Option Float :=
  match String.ofList (cs.map Char.toLower) with
  | "inf" => some (1.0 / 0.0)
  | "infinity" => some (1.0 / 0.0)
  | "nan" => some (0.0 / 0.0)
  | _ => none

/-- Reads a double. -/
def read? (s : String) : Option Float :=
  let magnitude? (cs : List Char) := (readSpecial? cs).or (readUnsigned? cs)
  match s.toList with
  | '-' :: cs => (magnitude? cs).map fun x => -x
  | '+' :: cs => magnitude? cs
  | cs => magnitude? cs

/-- The sixteen hexadecimal digits of a word. -/
def hexWord (n : Nat) : String :=
  let ds := Nat.toDigits 16 n
  String.ofList (List.replicate (16 - ds.length) '0' ++ ds)

/-- The bits of a double in hexadecimal; every NaN is written alike. -/
def bitsText (x : Float) : String :=
  if x.isNaN then "7ff8000000000000" else hexWord x.toBits.toNat

end ClauseLearning.Decimal
