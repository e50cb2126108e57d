import TriStore.Text

/-!
# Complaints about JSON

A complaint says what is wrong with a text and, where that is known, at which place. Written out it
is one text with the place at its end, and from there the place can be read back.
-/

namespace TriStore.Json

/-- Lines are counted from one, columns from zero. -/
structure Place where
  line : Nat
  column : Nat
  deriving DecidableEq

structure Complaint where
  text : String
  place : Option Place
  deriving DecidableEq

def Place.limit : Nat := 0xffffffffffffffff

def Place.lineWord : String := " at line "

def Place.columnWord : String := " column "

def Place.written (p : Place) : String :=
  lineWord ++ String.ofList (Text.decimal p.line) ++
    columnWord ++ String.ofList (Text.decimal p.column)

/-- What stands before the last occurrence of a phrase, and what stands behind it. -/
def splitLast? (phrase : List Char) : List Char → Option (List Char × List Char)
  | [] => if phrase.isEmpty then some ([], []) else none
  | c :: s =>
    match splitLast? phrase s with
    | some (before, behind) => some (c :: before, behind)
    | none => if phrase.isPrefixOf (c :: s) then some ([], (c :: s).drop phrase.length) else none

/-- Reads a place whose first word is read already, and which goes on to the end of the text. -/
def readPlace? (s : List Char) : Option Place := do
  let line := s.takeWhile Char.isDigit
  let rest := s.dropWhile Char.isDigit
  if Place.columnWord.toList.isPrefixOf rest then
    let column := rest.drop Place.columnWord.length
    if column.all Char.isDigit then
      return ⟨← Text.number? Place.limit (String.ofList line),
        ← Text.number? Place.limit (String.ofList column)⟩
    else none
  else none

/-- Takes a place off the end of a text, if one stands there. A place in line zero is taken off too,
but there is no such line, so the place is not known then. -/
def Complaint.ofText (s : String) : Complaint :=
  match splitLast? Place.lineWord.toList s.toList with
  | none => ⟨s, none⟩
  | some (text, numbers) =>
    match readPlace? numbers with
    | none => ⟨s, none⟩
    | some place => ⟨String.ofList text, if place.line = 0 then none else some place⟩

def Complaint.message (c : Complaint) : String :=
  match c.place with
  | none => c.text
  | some place => c.text ++ place.written

end TriStore.Json
