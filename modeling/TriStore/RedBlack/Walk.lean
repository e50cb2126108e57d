import TriStore.RedBlack.Layout

/-!
# Walks

A table of cells is read by following its links: down from the root in search of a key or a bound,
and from each node to the next one in order. That is the leftmost node below it on the right or,
where there is none, the first node above it of which it lies on the left. A table may hold anything,
so each walk is given the number of nodes it may look at, and has no result where these are too few.
-/

namespace TriStore.RedBlack.Layout

/-- The slot of a key at or below a slot, 0 where it is not there. -/
def find (layout : Layout) (key : String) (steps slot : Nat) : Option Nat :=
  if slot = 0 then some 0
  else
    let cell := layout.cell slot
    match steps with
    | 0 => none
    | steps + 1 =>
      if key < cell.record.key then layout.find key steps cell.left
      else if cell.record.key < key then layout.find key steps cell.right
      else some slot

/-- The slot of the first node at or below a slot that a bound admits, or the candidate from further
up. -/
def lowerBound (layout : Layout) (bound : Bound) (steps candidate slot : Nat) : Option Nat :=
  if slot = 0 then some candidate
  else
    let cell := layout.cell slot
    match steps with
    | 0 => none
    | steps + 1 =>
      if bound.admits cell.record.key then layout.lowerBound bound steps slot cell.left
      else layout.lowerBound bound steps candidate cell.right

def minimum (layout : Layout) (steps slot : Nat) : Option Nat :=
  if slot = 0 then some 0
  else
    let cell := layout.cell slot
    match steps with
    | 0 => none
    | steps + 1 => if cell.left = 0 then some slot else layout.minimum steps cell.left

/-- Climbs as long as the node below is the right child of the one above. -/
def ascend (layout : Layout) (steps slot above : Nat) : Option Nat :=
  if above ≠ 0 ∧ slot = (layout.cell above).right then
    match steps with
    | 0 => none
    | steps + 1 => layout.ascend steps above (layout.cell above).parent
  else some above

/-- The slot of the next node in order, 0 after the last. -/
def successor (layout : Layout) (slot : Nat) : Option Nat :=
  let cell := layout.cell slot
  if cell.right ≠ 0 then layout.minimum layout.cells.size cell.right
  else layout.ascend layout.cells.size slot cell.parent

def start (layout : Layout) : Bound → Option Nat
  | .unbounded => layout.minimum layout.cells.size layout.root
  | bound => layout.lowerBound bound layout.cells.size 0 layout.root

def recordsFrom (layout : Layout) (steps slot : Nat) : Option (List Record) :=
  if slot = 0 then some []
  else
    match steps with
    | 0 => none
    | steps + 1 => do
      let next ← layout.successor slot
      let rest ← layout.recordsFrom steps next
      some ((layout.cell slot).record :: rest)

def range (layout : Layout) (bound : Bound) : Option (List Record) := do
  layout.recordsFrom layout.cells.size (← layout.start bound)

end TriStore.RedBlack.Layout
