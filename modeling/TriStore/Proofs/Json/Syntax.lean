import TriStore.Json.Skip

/-!
# The syntax of JSON

What is a JSON text, said of the text alone. A string may spell its characters in several ways, a
numeral has no superfluous zeros in front, and values may be nested to any depth, with blank space
around each.
-/

namespace TriStore.Json

def Space (s : List Char) : Prop := ∀ c ∈ s, isSpace c = true

inductive Hex : Nat → List Char → Prop where
  | digits {a b c d : Char} {i j k l : Nat} : hexDigit? a = some i → hexDigit? b = some j →
      hexDigit? c = some k → hexDigit? d = some l →
      Hex (i * 4096 + j * 256 + k * 16 + l) [a, b, c, d]

inductive Numbered : Char → List Char → Prop where
  | single {n : Nat} {digits : List Char} : Hex n digits → isLowSurrogate n = false →
      isHighSurrogate n = false → Numbered (Char.ofNat n) digits
  | pair {high low : Nat} {digits digits' : List Char} : Hex high digits → Hex low digits' →
      isHighSurrogate high = true → isLowSurrogate low = true →
      Numbered (ofSurrogates high low) (digits ++ '\\' :: 'u' :: digits')

/-- What stands between two quotes, and the characters it spells. -/
inductive Spelling : List Char → List Char → Prop where
  | nil : Spelling [] []
  | plain {c : Char} {cs s : List Char} : c ≠ '"' → c ≠ '\\' → 0x20 ≤ c.toNat → Spelling cs s →
      Spelling (c :: cs) (c :: s)
  | letter {l c : Char} {cs s : List Char} : escapes.lookup l = some c → Spelling cs s →
      Spelling (c :: cs) ('\\' :: l :: s)
  | numbered {c : Char} {cs digits s : List Char} : Numbered c digits → Spelling cs s →
      Spelling (c :: cs) ('\\' :: 'u' :: (digits ++ s))

/-- What stands between two quotes, whether its numbers are those of characters or not. -/
inductive Unread : List Char → Prop where
  | nil : Unread []
  | plain {c : Char} {s : List Char} : c ≠ '"' → c ≠ '\\' → 0x20 ≤ c.toNat → Unread s →
      Unread (c :: s)
  | letter {l c : Char} {s : List Char} : escapes.lookup l = some c → Unread s →
      Unread ('\\' :: l :: s)
  | numbered {n : Nat} {digits s : List Char} : Hex n digits → Unread s →
      Unread ('\\' :: 'u' :: (digits ++ s))

def Quoted (s : String) (text : List Char) : Prop :=
  ∃ body, Spelling s.toList body ∧ text = '"' :: (body ++ ['"'])

def Digits (ds : List Char) : Prop := ds ≠ [] ∧ ∀ d ∈ ds, d.isDigit = true

/-- A whole part starts with zero only if it is zero. -/
def Whole (ds : List Char) : Prop := Digits ds ∧ (ds.head? = some '0' → ds = ['0'])

inductive FractionText : Option (List Char) → List Char → Prop where
  | none : FractionText none []
  | some {ds : List Char} : Digits ds → FractionText (some ds) ('.' :: ds)

inductive SignText : Bool → List Char → Prop where
  | none : SignText false []
  | plus : SignText false ['+']
  | minus : SignText true ['-']

inductive ExponentText : Option (Bool × List Char) → List Char → Prop where
  | none : ExponentText none []
  | some {e : Char} {negative : Bool} {sign ds : List Char} : e = 'e' ∨ e = 'E' →
      SignText negative sign → Digits ds → ExponentText (some (negative, ds)) (e :: (sign ++ ds))

inductive NumeralText : Numeral → List Char → Prop where
  | parts {negative : Bool} {whole fraction exponent : List Char} {f : Option (List Char)}
      {e : Option (Bool × List Char)} : Whole whole → FractionText f fraction →
      ExponentText e exponent → NumeralText ⟨negative, whole, f, e⟩
        ((if negative then ['-'] else []) ++ (whole ++ (fraction ++ exponent)))

def Bracket.opening : Bracket → Char
  | square => '['
  | curly => '{'

/-- A well-formed value, or the values inside a bracket, with their names inside a curly one. -/
inductive Formed : Option Bracket → List Char → Prop where
  | null : Formed none ['n', 'u', 'l', 'l']
  | true : Formed none ['t', 'r', 'u', 'e']
  | false : Formed none ['f', 'a', 'l', 's', 'e']
  | string {s : List Char} : Unread s → Formed none ('"' :: (s ++ ['"']))
  | numeral {x : Numeral} {s : List Char} : NumeralText x s → Formed none s
  | empty {b : Bracket} {s : List Char} : Space s → Formed none (b.opening :: (s ++ [b.closing]))
  | bracket {b : Bracket} {s : List Char} : Formed (some b) s →
      Formed none (b.opening :: (s ++ [b.closing]))
  | item {before s after : List Char} : Space before → Formed none s → Space after →
      Formed (some .square) (before ++ (s ++ after))
  | member {before name between front s after : List Char} : Space before → Unread name →
      Space between → Space front → Formed none s → Space after →
      Formed (some .curly) (before ++ '"' :: (name ++ '"' ::
        (between ++ ':' :: (front ++ (s ++ after)))))
  | comma {b : Bracket} {s more : List Char} : Formed (some b) s → Formed (some b) more →
      Formed (some b) (s ++ ',' :: more)

end TriStore.Json
