/-!
# Reading JSON

A reader takes a value off the front of a text and gives it with the rest of the text. Texts are
read from left to right, and the first fault ends the reading. A loop over a text is bounded by the
text itself, since each round takes a character at least.
-/

namespace TriStore.Json

inductive Fault where
  /-- The text ends inside a value. -/
  | cut
  /-- No JSON goes on like this. -/
  | malformed
  /-- The value is JSON, but of another shape than expected. -/
  | mismatch
  deriving DecidableEq

def Fault.message : Fault → String
  | cut => "the JSON text ends inside a value"
  | malformed => "the text is not JSON"
  | mismatch => "the JSON value has another shape than expected"

abbrev Reader (α : Type) := List Char → Except Fault (α × List Char)

def isSpace (c : Char) : Bool := c == ' ' || c == '\t' || c == '\n' || c == '\r'

def skipSpace (s : List Char) : List Char := s.dropWhile isSpace

def expect : List Char → List Char → Except Fault (List Char)
  | [], s => .ok s
  | _ :: _, [] => .error .cut
  | c :: word, d :: s => if c = d then expect word s else .error .malformed

/-- Reads a mark, with space in front of it. -/
def expectMark (mark : Char) (s : List Char) : Except Fault (List Char) :=
  expect [mark] (skipSpace s)

def Reader.all {α : Type} (read : Reader α) (s : List Char) : Except Fault α := do
  let (x, rest) ← read s
  if (skipSpace rest).isEmpty then return x else .error .malformed

end TriStore.Json
