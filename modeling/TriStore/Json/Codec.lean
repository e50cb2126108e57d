import TriStore.Json.Skip

/-!
# Codecs

A codec writes the values of a type as JSON and reads them back. Here are those for strings, natural
numbers below 2^64, optional values and fixed sets of names.
-/

namespace TriStore.Json

structure Codec (α : Type) where
  write : α → List Char
  read : Reader α

/-- The fault of a value that starts with the text and is not of the kind expected. Words, numerals
and strings are read to their end first. -/
def wrongKind : List Char → Fault
  | [] => .cut
  | 'n' :: rest => afterwards (expect ['u', 'l', 'l'] rest)
  | 't' :: rest => afterwards (expect ['r', 'u', 'e'] rest)
  | 'f' :: rest => afterwards (expect ['a', 'l', 's', 'e'] rest)
  | '"' :: rest => afterwards (readQuoted rest)
  | '[' :: _ => .mismatch
  | '{' :: _ => .mismatch
  | c :: rest => if startsNumeral c then afterwards (readNumber (c :: rest)) else .malformed
where
  /-- The fault of a reading, or of the kind if the reading has none. -/
  afterwards {β : Type} : Except Fault β → Fault
    | .error fault => fault
    | .ok _ => .mismatch

namespace Codec
variable {α : Type}

def encode (c : Codec α) (x : α) : String := String.ofList (c.write x)

def decode (c : Codec α) (s : String) : Except Fault α := c.read.all s.toList

def readText : Reader String := fun s =>
  match skipSpace s with
  | '"' :: rest => readQuoted rest
  | s => .error (wrongKind s)

def text : Codec String := ⟨writeQuoted, readText⟩

def readNatural : Reader Nat := fun s =>
  match skipSpace s with
  | [] => .error .cut
  | c :: rest =>
    if startsNumeral c then do
      match ← readNumber (c :: rest) with
      | (some n, rest) => return (n, rest)
      | (none, _) => .error .mismatch
    else .error (wrongKind (c :: rest))

def natural : Codec Nat := ⟨Text.decimal, readNatural⟩

def optional (c : Codec α) : Codec (Option α) where
  write
    | some x => c.write x
    | none => ['n', 'u', 'l', 'l']
  read s :=
    match skipSpace s with
    | 'n' :: rest => do return (none, ← expect ['u', 'l', 'l'] rest)
    | s => do
      let (x, rest) ← c.read s
      return (some x, rest)

def named (all : List α) (name : α → String) (s : String) : Except Fault α :=
  match all.find? (name · == s) with
  | some x => .ok x
  | none => .error .mismatch

def readNull (s : List Char) : Except Fault (List Char) :=
  match skipSpace s with
  | 'n' :: rest => expect ['u', 'l', 'l'] rest
  | s => .error (wrongKind s)

/-- One of a list of values, by its name: a string, or an object with the name and null. A member of an
object has a string for its name, so an object with a number or a word there is no JSON at all and
malformed, where a number or a word in the place of a text would be of the wrong kind. -/
def names (all : List α) (name : α → String) : Codec α where
  write x := writeQuoted (name x)
  read s :=
    match skipSpace s with
    | [] => .error .cut
    | '"' :: rest => do
      let (s, rest) ← readQuoted rest
      return (← named all name s, rest)
    | '{' :: rest => do
      let (s, rest) ← readQuoted (← expectMark '"' rest)
      let x ← named all name s
      let rest ← expectMark ':' rest
      let rest ← readNull rest
      return (x, ← expectMark '}' rest)
    | _ :: _ => .error .malformed

end Codec

end TriStore.Json
