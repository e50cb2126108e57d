import TriStore.Json.Numeral
import TriStore.Json.Quoted

/-!
# Passing over values

A value that nobody asks for is passed over. It must be well-formed, but it may be nested to any
depth, and neither the size of its numbers nor the surrogates in its strings are looked at.
-/

namespace TriStore.Json

inductive Bracket where
  | square
  | curly
  deriving DecidableEq

def Bracket.closing : Bracket → Char
  | square => ']'
  | curly => '}'

def skipAtom : List Char → Except Fault (List Char)
  | [] => .error .cut
  | 'n' :: rest => expect ['u', 'l', 'l'] rest
  | 't' :: rest => expect ['r', 'u', 'e'] rest
  | 'f' :: rest => expect ['a', 'l', 's', 'e'] rest
  | '"' :: rest => skipQuoted rest
  | c :: rest =>
    if startsNumeral c then (readNumeral .malformed (c :: rest)).map (·.2) else .error .malformed

/-- Where a walk over a value stands. -/
structure Walk where
  /-- The brackets that are open, the innermost first. -/
  inside : List Bracket
  /-- The innermost bracket was just opened. -/
  opened : Bool
  rest : List Char

namespace Walk

/-- Passes over the start of a value: a bracket, or all of it. -/
def enter (inside : List Bracket) (s : List Char) : Except Fault Walk :=
  match skipSpace s with
  | '[' :: rest => .ok ⟨.square :: inside, true, rest⟩
  | '{' :: rest => .ok ⟨.curly :: inside, true, rest⟩
  | s => do return ⟨inside, false, ← skipAtom s⟩

/-- Passes over the start of the next value inside a bracket, and over the name in front of it. -/
def enterNext (bracket : Bracket) (inside : List Bracket) (s : List Char) : Except Fault Walk :=
  match bracket with
  | .square => enter (bracket :: inside) s
  | .curly => do enter (bracket :: inside) (← expectMark ':' (← skipQuoted (← expectMark '"' s)))

/-- Walks on to the end of the innermost bracket or past the start of the next value in it. -/
def step (opened : Bool) (bracket : Bracket) (inside : List Bracket) (s : List Char) :
    Except Fault Walk :=
  match skipSpace s with
  | [] => .error .cut
  | c :: rest =>
    if c = bracket.closing then .ok ⟨inside, false, rest⟩
    else if opened then enterNext bracket inside (c :: rest)
    else if c = ',' then enterNext bracket inside rest
    else .error .malformed

def finish : (bound : List Char) → Walk → Except Fault (List Char)
  | _, ⟨[], _, s⟩ => .ok s
  | [], ⟨_ :: _, _, _⟩ => .error .cut
  | _ :: bound, ⟨bracket :: inside, opened, s⟩ => do finish bound (← step opened bracket inside s)

end Walk

def skipValue (s : List Char) : Except Fault (List Char) := do
  let w ← Walk.enter [] s
  Walk.finish w.rest w

end TriStore.Json
