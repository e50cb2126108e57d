import TriStore.Json.Reader
import TriStore.Text

/-!
# Numerals

A numeral has a whole part without superfluous zeros, and may have a sign, a fraction and an
exponent. The numbers kept are natural and below 2^64, written plainly. Any other numeral is of the
wrong kind, unless its magnitude is beyond that of all double-precision numbers: then it is no
numeral at all.
-/

namespace TriStore.Json

structure Numeral where
  negative : Bool
  whole : List Char
  fraction : Option (List Char)
  /-- The sign, negative or not, and the digits of the exponent. -/
  exponent : Option (Bool × List Char)

/-- Reads one digit at least. `short` is the fault of a text that ends before it. -/
def readDigits (short : Fault) : Reader (List Char)
  | [] => .error short
  | c :: rest =>
    if c.isDigit then .ok (c :: rest.takeWhile Char.isDigit, rest.dropWhile Char.isDigit)
    else .error .malformed

/-- Reads a whole part; one that starts with zero ends there. -/
def readWhole (short : Fault) : Reader (List Char)
  | '0' :: c :: rest => if c.isDigit then .error .malformed else .ok (['0'], c :: rest)
  | s => readDigits short s

def readFraction (short : Fault) : Reader (Option (List Char))
  | '.' :: rest => do
    let (digits, rest) ← readDigits short rest
    return (some digits, rest)
  | s => .ok (none, s)

def readSign : List Char → Bool × List Char
  | '-' :: rest => (true, rest)
  | '+' :: rest => (false, rest)
  | s => (false, s)

def readExponent (short : Fault) : Reader (Option (Bool × List Char))
  | [] => .ok (none, [])
  | c :: rest =>
    if c = 'e' ∨ c = 'E' then do
      let (negative, rest) := readSign rest
      let (digits, rest) ← readDigits short rest
      return (some (negative, digits), rest)
    else .ok (none, c :: rest)

def readNumeral (short : Fault) : Reader Numeral := fun s => do
  let (negative, s) := match s with
    | '-' :: rest => (true, rest)
    | s => (false, s)
  let (whole, s) ← readWhole short s
  let (fraction, s) ← readFraction short s
  let (exponent, s) ← readExponent short s
  return (⟨negative, whole, fraction, exponent⟩, s)

def startsNumeral (c : Char) : Bool := c == '-' || c.isDigit

/-- Appends digits to a number as long as it stays below 2^64. Gives the number, and how many digits
are left over. -/
def appendDigits : Nat → List Char → Nat × Nat
  | n, [] => (n, 0)
  | n, c :: cs =>
    let next := 10 * n + (c.toNat - '0'.toNat)
    if next < 1 <<< 64 then appendDigits next cs else (n, cs.length + 1)

/-- The nearest number with 53 significant bits; of two, the even one. -/
def round53 (n : Nat) : Nat :=
  let shift := n.log2 + 1 - 53
  let unit := 1 <<< shift
  let quotient := n / unit
  let remainder := n % unit
  let up := unit < 2 * remainder || (2 * remainder == unit && quotient % 2 == 1 && shift != 0)
  (if up then quotient + 1 else quotient) * unit

namespace Numeral

/-- The number that the digits kept form, and the power of ten it is multiplied by. -/
def scaled (x : Numeral) : Nat × Int :=
  let digits := x.fraction.getD []
  let (whole, wholeLeft) := appendDigits 0 x.whole
  let (significand, fractionLeft) := appendDigits whole digits
  let exponent : Int := match x.exponent with
    | some (true, digits) => -(Text.ofDecimal digits : Int)
    | some (false, digits) => Text.ofDecimal digits
    | none => 0
  (significand, (wholeLeft : Int) - ((digits.length - fractionLeft : Nat) : Int) + exponent)

/-- The magnitude is beyond that of all double-precision numbers: the two factors, rounded, have a
product that rounds to 2^1024 or more. -/
def isHuge (x : Numeral) : Bool :=
  let (significand, exponent) := x.scaled
  significand != 0 && (308 < exponent ||
    (0 ≤ exponent &&
      (1 <<< 1024) - (1 <<< 970) ≤ round53 significand * round53 (Nat.pow 10 exponent.toNat)))

def natural? (x : Numeral) : Option Nat :=
  if x.negative || x.fraction.isSome || x.exponent.isSome then none
  else if Text.ofDecimal x.whole < 1 <<< 64 then some (Text.ofDecimal x.whole)
  else none

end Numeral

/-- Reads a numeral as a natural number, or as `none` if it stands for another one. -/
def readNumber : Reader (Option Nat) := fun s => do
  let (x, rest) ← readNumeral .cut s
  if x.isHuge then .error .malformed else return (x.natural?, rest)

end TriStore.Json
