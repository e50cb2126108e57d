import TriStore.Target

/-!
# Stats

How full the tables of a store are.
-/

namespace TriStore

structure Usage where
  count : Nat
  remaining : Nat
  max : Nat
  deriving DecidableEq

def Usage.ofTable {τ : Type} [Table τ] (t : τ) : Usage :=
  ⟨Table.size t, Table.remaining t, Table.capacity t⟩

structure Stats where
  array : Usage
  hash : Usage
  tree : Usage
  deriving DecidableEq

namespace Stats

def get (s : Stats) : Target → Usage
  | .array => s.array
  | .hash => s.hash
  | .tree => s.tree

def report (s : Stats) : List String :=
  Target.all.map fun target =>
    let usage := s.get target
    target.name ++ " count=" ++ toString usage.count ++ " remaining=" ++ toString usage.remaining
      ++ " max=" ++ toString usage.max

end Stats

end TriStore
