import TriStore.ChainTable
import TriStore.Config
import TriStore.Request
import TriStore.Response
import TriStore.SlotTable
import TriStore.TreeTable

/-!
# Stores

A store has three tables, an array, a hash table and a tree, each with records of its own. A request
names the table it is for and touches no other.
-/

namespace TriStore

open RedBlack

structure Store where
  array : SlotTable
  hash : ChainTable
  tree : TreeTable

namespace Store

def ofConfig (c : Config) : Except Config.Invalid Store := do
  c.validate
  return ⟨.empty c.arrayCapacity, .empty c.hashCapacity c.buckets, .empty c.treeCapacity⟩

def get? (s : Store) (target : Target) (key : String) : Option String :=
  match target with
  | .array => s.array.get? key
  | .hash => s.hash.get? key
  | .tree => s.tree.get? key

def contains (s : Store) (target : Target) (key : String) : Bool := (s.get? target key).isSome

def insert (s : Store) (target : Target) (key value : String) : Except Refusal Store :=
  match target with
  | .array => (s.array.insert key value).map fun array => { s with array }
  | .hash => (s.hash.insert key value).map fun hash => { s with hash }
  | .tree => (s.tree.insert key value).map fun tree => { s with tree }

def replace (s : Store) (target : Target) (key value : String) : Except Refusal (String × Store) :=
  match target with
  | .array => (s.array.replace key value).map fun (old, array) => (old, { s with array })
  | .hash => (s.hash.replace key value).map fun (old, hash) => (old, { s with hash })
  | .tree => (s.tree.replace key value).map fun (old, tree) => (old, { s with tree })

def erase (s : Store) (target : Target) (key : String) : Except Refusal (String × Store) :=
  match target with
  | .array => (s.array.erase key).map fun (old, array) => (old, { s with array })
  | .hash => (s.hash.erase key).map fun (old, hash) => (old, { s with hash })
  | .tree => (s.tree.erase key).map fun (old, tree) => (old, { s with tree })

def clear (s : Store) (target : Target) : Store :=
  match target with
  | .array => { s with array := s.array.clear }
  | .hash => { s with hash := s.hash.clear }
  | .tree => { s with tree := s.tree.clear }

def usage (s : Store) (target : Target) : Usage :=
  match target with
  | .array => .ofTable s.array
  | .hash => .ofTable s.hash
  | .tree => .ofTable s.tree

def stats (s : Store) : Stats := ⟨s.usage .array, s.usage .hash, s.usage .tree⟩

def toList (s : Store) (target : Target) : List Record :=
  match target with
  | .array => s.array.toList
  | .hash => s.hash.toList
  | .tree => s.tree.toList

def following (key : String) (records : List Record) : List Record :=
  (records.dropWhile (·.key != key)).drop 1

/-- At most `limit` records of a table. They start at the beginning or after a key: in the tree
after its place in the order, in the other tables after its record, if there is one. -/
def scan (s : Store) (target : Target) (after : Option String) (limit : Nat) : List Record :=
  match target, after with
  | .tree, none => (s.tree.toListFrom .unbounded).take limit
  | .tree, some key => (s.tree.toListFrom (.excluded key)).take limit
  | target, none => (s.toList target).take limit
  | target, some key => (following key (s.toList target)).take limit

def validate (s : Store) : Except Defect Nat := s.tree.validate

def apply (s : Store) (target : Target) (command : Command) : Response × Store :=
  let refused cause := (Response.ofError (.refused cause) target, s)
  match command with
  | .set key value =>
    match s.insert target key value with
    | .ok s' => (.plain .ok "Set successfully", s')
    | .error cause => refused cause
  | .get key =>
    match s.get? target key with
    | some value => (.found value, s)
    | none => refused .keyNotFound
  | .del key =>
    match s.erase target key with
    | .ok (_, s') => (.plain .ok "Deleted successfully", s')
    | .error cause => refused cause
  | .update key value =>
    match s.replace target key value with
    | .ok (_, s') => (.plain .ok "Modified successfully", s')
    | .error cause => refused cause
  | .exist key =>
    if s.contains target key then (.plain .exist "Key exists", s) else refused .keyNotFound

/-- Answers a request. A well-formed one is answered with the stats after it. -/
def execute (s : Store) (r : Request) : Response × Store :=
  match r.parse with
  | .error malformed => (.plain .error malformed.message, s)
  | .ok (target, command) =>
    let (response, s') := s.apply target command
    (response.withStats s'.stats, s')

end Store

end TriStore
