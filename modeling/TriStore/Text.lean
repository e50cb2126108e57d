/-!
# Texts

Blank characters are those with the Unicode property White_Space; what the words of a line are does not
depend on how much of it stands between and around them. Names and verbs may be written in any case,
which only the letters of ASCII have. A number is written without leading zeros. It is read with a plus
sign in front or not, and with any number of leading zeros, up to a largest value.
-/

namespace TriStore.Text

/-- The characters with the property White_Space, as ranges of code points. -/
def blankRanges : List (Nat × Nat) :=
  [(0x09, 0x0d), (0x20, 0x20), (0x85, 0x85), (0xa0, 0xa0), (0x1680, 0x1680), (0x2000, 0x200a),
    (0x2028, 0x2029), (0x202f, 0x202f), (0x205f, 0x205f), (0x3000, 0x3000)]

def isBlank (c : Char) : Bool :=
  blankRanges.any fun (first, last) => first ≤ c.toNat && c.toNat ≤ last

/-- The parts between the separators, empty ones included. -/
def splitOn (separator : Char → Bool) : List Char → List (List Char)
  | [] => [[]]
  | c :: cs =>
    if separator c then [] :: splitOn separator cs
    else
      match splitOn separator cs with
      | [] => [[c]]
      | part :: parts => (c :: part) :: parts

/-- The longest stretches without a blank. -/
def words (s : String) : List String :=
  ((splitOn isBlank s.toList).filter (!·.isEmpty)).map String.ofList

def lines (s : String) : List String := (splitOn (· == '\n') s.toList).map String.ofList

def trim (s : String) : String :=
  String.ofList (((s.toList.dropWhile isBlank).reverse.dropWhile isBlank).reverse)

def lower (s : String) : String := String.ofList (s.toList.map Char.toLower)

def upper (s : String) : String := String.ofList (s.toList.map Char.toUpper)

def decimal (n : Nat) : List Char := Nat.toDigits 10 n

def ofDecimal (digits : List Char) : Nat := Nat.ofDigitChars 10 digits 0

/-- The number that a text stands for, if it is at most `limit`. -/
def number? (limit : Nat) (s : String) : Option Nat :=
  let digits := match s.toList with
    | '+' :: cs => cs
    | cs => cs
  if digits.isEmpty || !digits.all Char.isDigit then none
  else if ofDecimal digits ≤ limit then some (ofDecimal digits)
  else none

end TriStore.Text
