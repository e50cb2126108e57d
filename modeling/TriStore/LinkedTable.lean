import TriStore.RedBlack.Relink
import TriStore.Table

/-!
# Linked tables

A linked table is a red-black tree that exists as a table of cells only. Each call follows links from
the root on and changes cells one after another, so it may be refused for a `Misuse`, which is no
answer of the table. Repairs are granted one round for each cell.
-/

namespace TriStore

open RedBlack

structure LinkedTable where
  layout : Layout
  capacity : Nat
  /-- The slots that wait for use, the next one first. -/
  free : List Nat

namespace LinkedTable

def empty (capacity : Nat) : LinkedTable := ⟨⟨#[Cell.sentinel], 0, 0⟩, capacity, []⟩

/-- The slot of a key, 0 where it is not there. -/
def find (t : LinkedTable) (key : String) : Except Misuse Nat :=
  match t.layout.find key t.layout.cells.size t.layout.root with
  | some slot => .ok slot
  | none => .error .endless

def get? (t : LinkedTable) (key : String) : Except Misuse (Option String) := do
  let slot ← t.find key
  return if slot = 0 then none else some (t.layout.cell slot).record.value

def takeSlot (t : LinkedTable) : Nat × List Nat :=
  match t.free with
  | slot :: free => (slot, free)
  | [] => (t.layout.cells.size, [])

def insert (t : LinkedTable) (key value : String) : Except Misuse (Answer × LinkedTable) := do
  let found ← t.find key
  if found ≠ 0 then return (.refused .keyExists, t)
  else if t.capacity ≤ t.layout.count then return (.refused .storeFull, t)
  else
    let (slot, free) := t.takeSlot
    let layout ← t.layout.insert t.layout.cells.size slot ⟨key, value⟩
    return (.done, { t with layout, free })

def replace (t : LinkedTable) (key value : String) : Except Misuse (Answer × LinkedTable) := do
  let slot ← t.find key
  if slot = 0 then return (.refused .keyNotFound, t)
  else
    let old := (t.layout.cell slot).record.value
    return (.was old, { t with layout := t.layout.change slot (·.setValue value) })

def erase (t : LinkedTable) (key : String) : Except Misuse (Answer × LinkedTable) := do
  let slot ← t.find key
  if slot = 0 then return (.refused .keyNotFound, t)
  else
    let old := (t.layout.cell slot).record.value
    let layout ← t.layout.remove t.layout.cells.size key
    return (.was old, { t with layout, free := slot :: t.free })

/-- Cuts the cells off behind the sentinel. -/
def clear (t : LinkedTable) : LinkedTable :=
  { t with
    layout := ⟨(t.layout.cells.take 1).setIfInBounds 0 Cell.sentinel, 0, 0⟩
    free := [] }

def perform (t : LinkedTable) : Call → Except Misuse (Answer × LinkedTable)
  | .insert key value => t.insert key value
  | .replace key value => t.replace key value
  | .erase key => t.erase key
  | .get key => do return (.found (← t.get? key), t)
  | .contains key => do return (.present (← t.get? key).isSome, t)
  | .clear => return (.done, t.clear)

def run (t : LinkedTable) : List Call → Except Misuse (List Answer × LinkedTable)
  | [] => return ([], t)
  | call :: calls => do
    let (answer, t) ← t.perform call
    let (answers, t) ← t.run calls
    return (answer :: answers, t)

end LinkedTable

end TriStore
