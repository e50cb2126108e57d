/-!
# Records and tables

A record is a key with its value. `Table` is what the three structures of a store have in common: a
fixed capacity, at most one record a key, and refusals where a call cannot be served. A refused call
leaves the table as it was. `Call` and `Answer` make a use of a table into data, so that whole runs can
be spoken of.
-/

namespace TriStore

structure Record where
  key : String
  value : String
  deriving DecidableEq

inductive Refusal where
  | keyExists
  | keyNotFound
  | storeFull
  deriving DecidableEq

class Table (τ : Type) where
  capacity : τ → Nat
  size : τ → Nat
  get? : τ → String → Option String
  /-- Adds a record under a new key; a key that is present is reported before a full table. -/
  insert : τ → String → String → Except Refusal τ
  /-- Gives a present key another value, and the value it had. -/
  replace : τ → String → String → Except Refusal (String × τ)
  erase : τ → String → Except Refusal (String × τ)
  toList : τ → List Record
  clear : τ → τ

inductive Call where
  | insert (key value : String)
  | replace (key value : String)
  | erase (key : String)
  | get (key : String)
  | contains (key : String)
  | clear

inductive Answer where
  | done
  /-- The value that was replaced or taken out. -/
  | was (value : String)
  | found (value : Option String)
  | present (held : Bool)
  | refused (cause : Refusal)
  deriving DecidableEq

namespace Table
variable {τ : Type} [Table τ]

def contains (t : τ) (key : String) : Bool := (get? t key).isSome

def isEmpty (t : τ) : Bool := size t == 0

def isFull (t : τ) : Bool := capacity t ≤ size t

def remaining (t : τ) : Nat := capacity t - size t

def perform (t : τ) : Call → Answer × τ
  | .insert key value =>
    match insert t key value with
    | .ok t' => (.done, t')
    | .error cause => (.refused cause, t)
  | .replace key value =>
    match replace t key value with
    | .ok (old, t') => (.was old, t')
    | .error cause => (.refused cause, t)
  | .erase key =>
    match erase t key with
    | .ok (old, t') => (.was old, t')
    | .error cause => (.refused cause, t)
  | .get key => (.found (get? t key), t)
  | .contains key => (.present (contains t key), t)
  | .clear => (.done, clear t)

end Table

end TriStore
