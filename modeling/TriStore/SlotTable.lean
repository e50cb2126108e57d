import TriStore.Table

/-!
# Slots

A `SlotTable` is a row of slots, one for each record it can hold. A record goes into the first free
slot and stays there; taking it out leaves a gap that a later record fills.
-/

namespace TriStore

structure SlotTable where
  /-- A free slot holds `none`. -/
  slots : Array (Option Record)
  count : Nat

namespace SlotTable

def empty (capacity : Nat) : SlotTable := ⟨Array.replicate capacity none, 0⟩

def capacity (t : SlotTable) : Nat := t.slots.size

def holds (key : String) (slot : Option Record) : Bool := slot.any (·.key == key)

def find? (t : SlotTable) (key : String) : Option (Nat × Record) := do
  let i ← t.slots.findIdx? (holds key)
  let record ← t.slots[i]?.join
  pure (i, record)

def get? (t : SlotTable) (key : String) : Option String := (t.find? key).map (·.2.value)

def insert (t : SlotTable) (key value : String) : Except Refusal SlotTable :=
  if t.slots.any (holds key) then .error .keyExists
  else
    match t.slots.findIdx? Option.isNone with
    | some i => .ok ⟨t.slots.setIfInBounds i (some ⟨key, value⟩), t.count + 1⟩
    | none => .error .storeFull

def replace (t : SlotTable) (key value : String) : Except Refusal (String × SlotTable) :=
  match t.find? key with
  | some (i, record) =>
    .ok (record.value, { t with slots := t.slots.setIfInBounds i (some { record with value }) })
  | none => .error .keyNotFound

def erase (t : SlotTable) (key : String) : Except Refusal (String × SlotTable) :=
  match t.find? key with
  | some (i, record) => .ok (record.value, ⟨t.slots.setIfInBounds i none, t.count - 1⟩)
  | none => .error .keyNotFound

def toList (t : SlotTable) : List Record := t.slots.toList.filterMap id

def clear (t : SlotTable) : SlotTable := empty t.capacity

instance : Table SlotTable where
  capacity := capacity
  size := count
  get? := get?
  insert := insert
  replace := replace
  erase := erase
  toList := toList
  clear := clear

end SlotTable

end TriStore
