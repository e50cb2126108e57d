import TriStore.Target
import TriStore.Text

/-!
# Commands

A command is what a well-formed request asks of a table. The verb of a request may carry a letter in
front that names the table: `R` for the tree, `H` for the hash table.
-/

namespace TriStore

inductive Verb where
  | set
  | get
  | del
  | update
  | exist
  deriving DecidableEq

namespace Verb

/-- The verbs by name; two names stand for an update. -/
def names : List (String × Verb) :=
  [("SET", set), ("GET", get), ("DEL", del), ("UPDATE", update), ("MOD", update), ("EXIST", exist)]

def ofName? (s : String) : Option Verb := names.lookup s

/-- The verb of a command word, in any case and with blanks around it, and the table that a letter
in front of it names. -/
def split? (word : String) : Option (Option Target × Verb) :=
  let name := Text.upper (Text.trim word)
  match ofName? name with
  | some verb => some (none, verb)
  | none =>
    match name.toList with
    | 'R' :: cs => (ofName? (String.ofList cs)).map fun verb => (some .tree, verb)
    | 'H' :: cs => (ofName? (String.ofList cs)).map fun verb => (some .hash, verb)
    | _ => none

end Verb

inductive Command where
  | set (key value : String)
  | get (key : String)
  | del (key : String)
  | update (key value : String)
  | exist (key : String)
  deriving DecidableEq

namespace Command

def key : Command → String
  | set key _ | get key | del key | update key _ | exist key => key

def value? : Command → Option String
  | set _ value | update _ value => some value
  | get _ | del _ | exist _ => none

def verb : Command → Verb
  | set _ _ => .set
  | get _ => .get
  | del _ => .del
  | update _ _ => .update
  | exist _ => .exist

def isMutation : Command → Bool
  | set _ _ | del _ | update _ _ => true
  | get _ | exist _ => false

end Command

end TriStore
