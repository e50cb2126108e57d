import TriStore.Table

/-!
# Chains

A `ChainTable` spreads its records over chains by the hash of the key. The number of chains is fixed
and has nothing to do with the capacity: chains grow as far as the capacity lets them.

The hash is the 64-bit FNV-1a one: each byte of the key's UTF-8 form is mixed in by exclusive or, and
the result is multiplied by the prime, modulo 2^64. It depends on the key alone, so a key belongs to the
same chain in every run.
-/

namespace TriStore

namespace KeyHash

def offsetBasis : UInt64 := 0xcbf29ce484222325

def prime : UInt64 := 0x100000001b3

def mix (hash : UInt64) (byte : UInt8) : UInt64 := (hash ^^^ byte.toUInt64) * prime

def ofBytes (bytes : List UInt8) : UInt64 := bytes.foldl mix offsetBasis

def ofKey (key : String) : UInt64 := ofBytes key.toUTF8.data.toList

end KeyHash

/-- The records whose keys belong together, in the order in which they arrived. -/
abbrev Chain := List Record

namespace Chain

def find? (chain : Chain) (key : String) : Option Record := List.find? (·.key == key) chain

def setValue (chain : Chain) (key value : String) : Chain :=
  match chain with
  | [] => []
  | record :: rest =>
    if record.key = key then { record with value } :: rest else record :: setValue rest key value

/-- Takes out the record at an index; the last record of the chain moves into the gap. -/
def swapOut (chain : Chain) (i : Nat) : Chain :=
  match chain.getLast? with
  | some last => (chain.set i last).dropLast
  | none => []

end Chain

structure ChainTable where
  chains : Array Chain
  capacity : Nat
  count : Nat

namespace ChainTable

/-- An empty table; it has one chain at least. -/
def empty (capacity chains : Nat) : ChainTable := ⟨Array.replicate (max chains 1) [], capacity, 0⟩

def ofCapacity (capacity : Nat) : ChainTable := empty capacity capacity

def chainCount (t : ChainTable) : Nat := t.chains.size

def longestChain (t : ChainTable) : Nat := t.chains.foldl (fun n chain => max n chain.length) 0

def index (t : ChainTable) (key : String) : Nat := (KeyHash.ofKey key).toNat % t.chains.size

def chainOf (t : ChainTable) (key : String) : Chain := t.chains.getD (t.index key) []

def find? (t : ChainTable) (key : String) : Option Record := (t.chainOf key).find? key

def get? (t : ChainTable) (key : String) : Option String := (t.find? key).map (·.value)

def insert (t : ChainTable) (key value : String) : Except Refusal ChainTable :=
  if (t.find? key).isSome then .error .keyExists
  else if t.capacity ≤ t.count then .error .storeFull
  else
    .ok { t with
      chains := t.chains.modify (t.index key) (· ++ [⟨key, value⟩])
      count := t.count + 1 }

def replace (t : ChainTable) (key value : String) : Except Refusal (String × ChainTable) :=
  match t.find? key with
  | some record =>
    .ok (record.value, { t with chains := t.chains.modify (t.index key) (·.setValue key value) })
  | none => .error .keyNotFound

def erase (t : ChainTable) (key : String) : Except Refusal (String × ChainTable) :=
  let chain := t.chainOf key
  match chain.find? key with
  | some record =>
    .ok (record.value, { t with
      chains := t.chains.modify (t.index key) (·.swapOut (chain.findIdx (·.key == key)))
      count := t.count - 1 })
  | none => .error .keyNotFound

def toList (t : ChainTable) : List Record := t.chains.toList.flatten

def clear (t : ChainTable) : ChainTable := empty t.capacity t.chains.size

instance : Table ChainTable where
  capacity := capacity
  size := count
  get? := get?
  insert := insert
  replace := replace
  erase := erase
  toList := toList
  clear := clear

end ChainTable

end TriStore
