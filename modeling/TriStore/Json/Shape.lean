import TriStore.Json.Codec

/-!
# Shapes

A shape is the JSON form of a structure: its fields in order, each with a name, and what the
structure is before a field is read. A structure is written as an object. It is read from an object
with the fields in any order and other fields among them, or from an array of the values in order.
Fields that are not required may be left out, at the end of an array too.
-/

namespace TriStore.Json

structure Field (σ : Type) where
  name : String
  required : Bool
  /-- The text of the value, or `none` where the field is left out. -/
  write : σ → Option (List Char)
  /-- Reads the value and puts it into the structure. -/
  read : Reader (σ → σ)

namespace Field
variable {σ α : Type}

def reading (c : Codec α) (set : α → σ → σ) : Reader (σ → σ) := fun s => do
  let (x, rest) ← c.read s
  return (set x, rest)

def mandatory (name : String) (c : Codec α) (get : σ → α) (set : α → σ → σ) : Field σ :=
  ⟨name, true, fun x => some (c.write (get x)), reading c set⟩

/-- A field that keeps its default where it is not given. -/
def defaulted (name : String) (c : Codec α) (get : σ → α) (set : α → σ → σ) : Field σ :=
  ⟨name, false, fun x => some (c.write (get x)), reading c set⟩

/-- A field that is left out where there is no value. -/
def omitted (name : String) (c : Codec α) (get : σ → Option α) (set : Option α → σ → σ) : Field σ :=
  ⟨name, false, fun x => (get x).map c.write, reading c.optional set⟩

end Field

structure Shape (σ : Type) where
  /-- The structure before any field is read. -/
  blank : σ
  fields : List (Field σ)

namespace Shape
variable {σ : Type}

def writeField (name : String) (value : List Char) : List Char := writeQuoted name ++ ':' :: value

def write (shape : Shape σ) (x : σ) : List Char :=
  let fields := shape.fields.filterMap fun f => (f.write x).map (writeField f.name)
  '{' :: (List.intercalate [','] fields ++ ['}'])

def complete (shape : Shape σ) (names : List String) : Bool :=
  shape.fields.all fun f => !f.required || names.contains f.name

/-- Reads a field after the opening quote of its name: a known one into the structure, if it is not
among the names already `seen`; any other is passed over. -/
def readField (shape : Shape σ) (seen : List String) (x : σ) : Reader (List String × σ) :=
  fun s => do
  let (name, rest) ← readQuoted s
  match shape.fields.find? (·.name == name) with
  | some f =>
    if seen.contains name then .error .mismatch
    else
      let (put, rest) ← f.read (← expectMark ':' rest)
      return ((name :: seen, put x), rest)
  | none => return ((seen, x), ← skipValue (← expectMark ':' rest))

/-- Reads the rest of an object, which is not longer than `bound`. A comma stands in front of each
field but the first. -/
def readFields (shape : Shape σ) : (bound : List Char) → Bool → List String → σ → Reader σ
  | [], _, _, _, _ => .error .cut
  | _ :: bound, first, seen, x, s =>
    match skipSpace s with
    | [] => .error .cut
    | '}' :: rest => if shape.complete seen then .ok (x, rest) else .error .mismatch
    | s => do
      let s ← if first then pure s else expect [','] s
      let ((seen, x), rest) ← shape.readField seen x (← expectMark '"' s)
      readFields shape bound false seen x rest

def readItems : List (Field σ) → Bool → σ → Reader σ
  | [], _, x, s => do return (x, ← expectMark ']' s)
  | f :: fields, first, x, s =>
    match skipSpace s with
    | [] => .error .cut
    | ']' :: rest => if (f :: fields).any (·.required) then .error .mismatch else .ok (x, rest)
    | s => do
      let s ← if first then pure s else do
        match skipSpace (← expect [','] s) with
        | [] => .error .cut
        | ']' :: _ => .error .malformed
        | s => pure s
      let (put, rest) ← f.read s
      readItems fields false (put x) rest

def read (shape : Shape σ) : Reader σ := fun s =>
  match skipSpace s with
  | '{' :: rest => shape.readFields rest true [] shape.blank rest
  | '[' :: rest => readItems shape.fields true shape.blank rest
  | s => .error (wrongKind s)

def codec (shape : Shape σ) : Codec σ := ⟨shape.write, shape.read⟩

end Shape

end TriStore.Json
