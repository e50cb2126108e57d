import TriStore.Error

/-!
# Configurations

The sizes of a store: a capacity for each table and the number of chains of the hash table, which is
its capacity unless set. Each size is positive and at most 2^24; of several that are not, the first
one counts.
-/

namespace TriStore

structure Config where
  arrayCapacity : Nat
  hashCapacity : Nat
  treeCapacity : Nat
  hashBuckets : Option Nat
  deriving DecidableEq

namespace Config

def defaultCapacity : Nat := 1024

def maxCapacity : Nat := 1 <<< 24

def uniform (capacity : Nat) : Config := ⟨capacity, capacity, capacity, none⟩

def standard : Config := uniform defaultCapacity

/-- The number of chains of the hash table. -/
def buckets (c : Config) : Nat := c.hashBuckets.getD c.hashCapacity

/-- The sizes by name, in the order in which they are checked. -/
def sizes (c : Config) : List (String × Nat) :=
  [("array_capacity", c.arrayCapacity), ("hash_capacity", c.hashCapacity),
    ("rbtree_capacity", c.treeCapacity), ("hash_buckets", c.buckets)]

inductive Invalid where
  | zero (size : String)
  | tooLarge (size : String) (value : Nat)
  deriving DecidableEq

def Invalid.message : Invalid → String
  | zero size => size ++ " must be positive"
  | tooLarge size value =>
    size ++ " must be at most " ++ toString maxCapacity ++ ", got " ++ toString value

def Invalid.error (invalid : Invalid) : Error := .config invalid.message

def checkSize (size : String × Nat) : Option Invalid :=
  if size.2 = 0 then some (.zero size.1)
  else if maxCapacity < size.2 then some (.tooLarge size.1 size.2)
  else none

def validate (c : Config) : Except Invalid Unit :=
  match c.sizes.findSome? checkSize with
  | some invalid => .error invalid
  | none => .ok ()

end Config

end TriStore
