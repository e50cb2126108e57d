import TriStore.Error
import TriStore.Text

/-!
# Targets

A target is one of the three structures of a store. Its name may be written in any case, and nothing
may stand around it.
-/

namespace TriStore

inductive Target where
  | array
  | hash
  | tree
  deriving DecidableEq

namespace Target

/-- The targets in the order of reports. -/
def all : List Target := [array, hash, tree]

def name : Target → String
  | array => "array"
  | hash => "hash"
  | tree => "rbtree"

def label : Target → String
  | array => "Array"
  | hash => "Hash"
  | tree => "RBTree"

def ofName? (s : String) : Option Target := all.find? (·.name == Text.lower s)

/-- Reads a name; an unknown one is reported in lower case. -/
def parse (s : String) : Except Error Target :=
  match ofName? s with
  | some target => .ok target
  | none => .error (.parsing ("unknown target: " ++ Text.lower s))

end Target

end TriStore
