import TriStore.Json.Reader

/-!
# Quoted strings

Quote, backslash and the control characters below U+0020 are escaped when a string is written, all
others stand as they are. Every escape of JSON is read: those of one letter, and `\u` with four
hexadecimal digits. A character beyond U+FFFF may come as two such escapes, a high and a low
surrogate; a surrogate on its own is no character.
-/

namespace TriStore.Json

def escapes : List (Char × Char) :=
  [('"', '"'), ('\\', '\\'), ('/', '/'), ('b', '\x08'), ('f', '\x0c'), ('n', '\n'), ('r', '\r'),
    ('t', '\t')]

def escapeChar (c : Char) : List Char :=
  if c = '"' then ['\\', '"']
  else if c = '\\' then ['\\', '\\']
  else if c = '\x08' then ['\\', 'b']
  else if c = '\x0c' then ['\\', 'f']
  else if c = '\n' then ['\\', 'n']
  else if c = '\r' then ['\\', 'r']
  else if c = '\t' then ['\\', 't']
  else if c.toNat < 0x20 then
    ['\\', 'u', '0', '0', Nat.digitChar (c.toNat / 16), Nat.digitChar (c.toNat % 16)]
  else [c]

def writeQuoted (s : String) : List Char := '"' :: (s.toList.flatMap escapeChar ++ ['"'])

def hexDigit? (c : Char) : Option Nat :=
  if '0' ≤ c ∧ c ≤ '9' then some (c.toNat - '0'.toNat)
  else if 'a' ≤ c ∧ c ≤ 'f' then some (c.toNat - 'a'.toNat + 10)
  else if 'A' ≤ c ∧ c ≤ 'F' then some (c.toNat - 'A'.toNat + 10)
  else none

def utf8Length : List Char → Nat
  | [] => 0
  | c :: cs => c.utf8Size + utf8Length cs

/-- Reads four hexadecimal digits. The text counts as cut if it has less than four bytes left. -/
def readHex : Reader Nat
  | a :: b :: c :: d :: rest =>
    match hexDigit? a, hexDigit? b, hexDigit? c, hexDigit? d with
    | some a, some b, some c, some d => .ok (a * 4096 + b * 256 + c * 16 + d, rest)
    | _, _, _, _ => .error .malformed
  | s => .error (if utf8Length s < 4 then .cut else .malformed)

def isHighSurrogate (n : Nat) : Bool := 0xd800 ≤ n && n ≤ 0xdbff

def isLowSurrogate (n : Nat) : Bool := 0xdc00 ≤ n && n ≤ 0xdfff

def ofSurrogates (high low : Nat) : Char :=
  Char.ofNat (0x10000 + (high - 0xd800) * 0x400 + (low - 0xdc00))

def readNumbered : Reader Char := fun s => do
  let (n, rest) ← readHex s
  if isLowSurrogate n then .error .malformed
  else if isHighSurrogate n then
    let rest ← expect ['\\', 'u'] rest
    let (m, rest) ← readHex rest
    if isLowSurrogate m then return (ofSurrogates n m, rest) else .error .malformed
  else return (Char.ofNat n, rest)

/-- Reads an escape after its backslash; `numbered` reads what follows `\u`. -/
def readEscape (numbered : Reader Char) : Reader Char
  | [] => .error .cut
  | c :: rest =>
    if c = 'u' then numbered rest
    else
      match escapes.lookup c with
      | some d => .ok (d, rest)
      | none => .error .malformed

/-- Reads a string after its opening quote. It is not longer than `bound`. -/
def readBody (numbered : Reader Char) : (bound : List Char) → Reader (List Char)
  | _, [] => .error .cut
  | [], _ :: _ => .error .cut
  | _ :: bound, c :: rest =>
    if c = '"' then .ok ([], rest)
    else if c = '\\' then do
      let (d, rest) ← readEscape numbered rest
      let (cs, rest) ← readBody numbered bound rest
      return (d :: cs, rest)
    else if c.toNat < 0x20 then .error .malformed
    else do
      let (cs, rest) ← readBody numbered bound rest
      return (c :: cs, rest)

def readQuoted : Reader String := fun s => do
  let (cs, rest) ← readBody readNumbered s s
  return (String.ofList cs, rest)

/-- Passes over a string after its opening quote. Any four digits do after `\u`. -/
def skipQuoted (s : List Char) : Except Fault (List Char) := do
  let (_, rest) ← readBody (fun s => (readHex s).map fun (_, rest) => (' ', rest)) s s
  return rest

end TriStore.Json
