import TriStore.RedBlack.Deletion
import TriStore.RedBlack.Insertion
import TriStore.RedBlack.Walk
import TriStore.Table

/-!
# Tree tables

A `TreeTable` keeps its records in a red-black tree. Each node occupies a slot of an arena that
grows when no slot is free; slot 0 is the sentinel. The slot of an entry that is taken out is used
again, the latest first.
-/

namespace TriStore

open RedBlack

structure TreeTable where
  tree : Tree
  capacity : Nat
  count : Nat
  /-- The number of slots of the arena, the sentinel's included. -/
  slots : Nat
  /-- The slots that wait for use, the next one first. -/
  free : List Nat

namespace TreeTable

def empty (capacity : Nat) : TreeTable := ⟨.leaf, capacity, 0, 1, []⟩

def get? (t : TreeTable) (key : String) : Option String :=
  (t.tree.find? key).map (·.record.value)

/-- The slot for a new entry, with the arena and the free slots that are left. -/
def takeSlot (t : TreeTable) : Nat × Nat × List Nat :=
  match t.free with
  | slot :: free => (slot, t.slots, free)
  | [] => (t.slots, t.slots + 1, [])

def insert (t : TreeTable) (key value : String) : Except Refusal TreeTable :=
  match t.tree.seek key with
  | ⟨.node _ _ _ _, _⟩ => .error .keyExists
  | ⟨.leaf, path⟩ =>
    if t.capacity ≤ t.count then .error .storeFull
    else
      let (slot, slots, free) := t.takeSlot
      .ok { t with
        tree := Insertion.insertAt ⟨slot, key, value⟩ path
        count := t.count + 1
        slots
        free }

def replace (t : TreeTable) (key value : String) : Except Refusal (String × TreeTable) :=
  match t.tree.seek key with
  | ⟨.leaf, _⟩ => .error .keyNotFound
  | ⟨.node c e l r, path⟩ =>
    let entry := { e with record := { e.record with value } }
    .ok (e.record.value, { t with tree := (Cursor.mk (.node c entry l r) path).tree })

def erase (t : TreeTable) (key : String) : Except Refusal (String × TreeTable) :=
  match t.tree.seek key with
  | ⟨.leaf, _⟩ => .error .keyNotFound
  | ⟨.node c e l r, path⟩ =>
    .ok (e.record.value, { t with
      tree := Deletion.eraseAt c l r path
      count := t.count - 1
      free := e.slot :: t.free })

def toList (t : TreeTable) : List Record := t.tree.toList

def toListFrom (t : TreeTable) (bound : Bound) : List Record := t.tree.toListFrom bound

def clear (t : TreeTable) : TreeTable := empty t.capacity

def layout (t : TreeTable) : Layout := .ofTree t.tree t.slots t.count

/-- The records from a bound on, read off the arena link by link. -/
def range (t : TreeTable) (bound : Bound) : Option (List Record) := t.layout.range bound

def validate (t : TreeTable) : Except Defect Nat := t.layout.validate

instance : Table TreeTable where
  capacity := capacity
  size := count
  get? := get?
  insert := insert
  replace := replace
  erase := erase
  toList := toList
  clear := clear

end TreeTable

end TriStore
