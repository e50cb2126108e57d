import TriStore.Command

/-!
# Requests

A request is what a caller sends: a command word and, where given, a key, a value and the name of a
table. `Request.parse` turns it into a command for a table, or names what is wrong with it. Of
several faults the first counts, in the order command, target, key, value.
-/

namespace TriStore

structure Request where
  cmd : String
  key : Option String
  value : Option String
  target : Option String
  deriving DecidableEq

namespace Request

inductive Malformed where
  | unknownCommand
  | unknownTarget (name : String)
  /-- The letter in front of the verb names one table and the request another. -/
  | conflictingTarget (cmd : String) (lettered named : Target)
  | keyRequired
  | valueRequired
  deriving DecidableEq

def Malformed.message : Malformed → String
  | unknownCommand => "Unknown command"
  | unknownTarget name => "Unknown target: " ++ name
  | conflictingTarget cmd lettered named =>
    "Conflicting target: " ++ cmd ++ " addresses " ++ lettered.name ++ " but target is "
      ++ named.name
  | keyRequired => "Key required"
  | valueRequired => "Value required"

def Malformed.error (malformed : Malformed) : Error := .command malformed.message

def ofKey (cmd key : String) : Request := ⟨cmd, some key, none, none⟩

def withValue (r : Request) (value : String) : Request := { r with value := some value }

def withTarget (r : Request) (target : Target) : Request := { r with target := some target.name }

/-- Reads a line: a command word, a key, and the words of a value, which are joined by single
spaces. -/
def ofLine (line : String) : Request :=
  let words := Text.words line
  let value := " ".intercalate (words.drop 2)
  { cmd := words[0]?.getD ""
    key := words[1]?
    value := if value.isEmpty then none else some value
    target := none }

def explicitTarget (r : Request) : Except Malformed (Option Target) :=
  match r.target with
  | none => .ok none
  | some name =>
    match Target.ofName? name with
    | some target => .ok (some target)
    | none => .error (.unknownTarget name)

/-- The table of a request: the one that the letter in front of the verb and the name agree on, the
array where there is neither. -/
def resolveTarget (r : Request) (lettered : Option Target) : Except Malformed Target := do
  match lettered, ← r.explicitTarget with
  | some target, some named =>
    if target = named then .ok target else .error (.conflictingTarget r.cmd target named)
  | some target, none => .ok target
  | none, some target => .ok target
  | none, none => .ok .array

/-- A text that is there and not empty. -/
def required (missing : Malformed) (text : Option String) : Except Malformed String :=
  match text with
  | some s => if s.isEmpty then .error missing else .ok s
  | none => .error missing

def parse (r : Request) : Except Malformed (Target × Command) := do
  match Verb.split? r.cmd with
  | none => .error .unknownCommand
  | some (lettered, verb) =>
    let target ← r.resolveTarget lettered
    let key ← required .keyRequired r.key
    match verb with
    | .set => return (target, .set key (← required .valueRequired r.value))
    | .get => return (target, .get key)
    | .del => return (target, .del key)
    | .update => return (target, .update key (← required .valueRequired r.value))
    | .exist => return (target, .exist key)

end Request

end TriStore
