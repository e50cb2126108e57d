import TriStore.RedBlack.Tree

/-!
# Layouts

A layout is a tree written out as a table of cells that refer to one another by slot number. Slot 0
is the sentinel: it stands for every leaf and for the parent of the root. A table may hold anything,
so `Layout.validate` checks all that makes it a red-black tree and names the first defect.
-/

namespace TriStore.RedBlack

structure Cell where
  record : Record
  color : Color
  parent : Nat
  left : Nat
  right : Nat

/-- The black cell without record and links; free slots look the same. -/
def Cell.sentinel : Cell := ⟨⟨"", ""⟩, .black, 0, 0, 0⟩

structure Layout where
  cells : Array Cell
  root : Nat
  /-- The number of nodes that the tree is said to have. -/
  count : Nat

inductive Defect where
  | redSentinel
  | redRoot
  | brokenParent (key : String)
  | outOfOrder (key : String)
  | redChild (key : String)
  | blackHeight (key : String) (left right : Nat)
  | miscount (nodes count : Nat)
  deriving DecidableEq

def Defect.message : Defect → String
  | redSentinel => "sentinel is not black"
  | redRoot => "root is red"
  | brokenParent key => "broken parent link at " ++ key
  | outOfOrder key => "key " ++ key ++ " is out of order"
  | redChild key => "red node " ++ key ++ " has a red child"
  | blackHeight key left right =>
    "black height differs below " ++ key ++ " (" ++ toString left ++ " vs " ++ toString right ++ ")"
  | miscount nodes count =>
    "tree holds " ++ toString nodes ++ " nodes but count is " ++ toString count

def Tree.rootSlot : Tree → Nat
  | .leaf => 0
  | .node _ e _ _ => e.slot

def Tree.writeCells (parent : Nat) : Tree → Array Cell → Array Cell
  | .leaf, cells => cells
  | .node c e l r, cells =>
    let cells := cells.setIfInBounds e.slot ⟨e.record, c, parent, l.rootSlot, r.rootSlot⟩
    r.writeCells e.slot (l.writeCells e.slot cells)

namespace Layout

def ofTree (t : Tree) (slots count : Nat) : Layout :=
  ⟨t.writeCells 0 (Array.replicate slots Cell.sentinel), t.rootSlot, count⟩

def cell (layout : Layout) (slot : Nat) : Cell := layout.cells.getD slot Cell.sentinel

/-- Checks the cells from a slot down: each refers back to its parent and has its key strictly
between the bounds. Gives the number of nodes and the black height, leaves counted. A path of more
than `depth` nodes meets some slot twice, and then a key outside its bounds. -/
def check (layout : Layout) (depth slot parent : Nat) (lower upper : Option String) :
    Except Defect (Nat × Nat) :=
  if slot = 0 then .ok (0, 1)
  else
    let cell := layout.cell slot
    let key := cell.record.key
    match depth with
    | 0 => .error (.outOfOrder key)
    | depth + 1 =>
      if cell.parent ≠ parent then .error (.brokenParent key)
      else if !(lower.all (· < key) && upper.all (key < ·)) then .error (.outOfOrder key)
      else if cell.color = .red ∧
          ((layout.cell cell.left).color = .red ∨ (layout.cell cell.right).color = .red) then
        .error (.redChild key)
      else do
        let (leftNodes, leftHeight) ← layout.check depth cell.left slot lower (some key)
        let (rightNodes, rightHeight) ← layout.check depth cell.right slot (some key) upper
        if leftHeight ≠ rightHeight then .error (.blackHeight key leftHeight rightHeight)
        else
          let own := if cell.color = .black then 1 else 0
          .ok (leftNodes + rightNodes + 1, leftHeight + own)

def validate (layout : Layout) : Except Defect Nat :=
  if (layout.cell 0).color ≠ .black then .error .redSentinel
  else if (layout.cell layout.root).color ≠ .black then .error .redRoot
  else do
    let (nodes, height) ← layout.check layout.cells.size layout.root 0 none none
    if nodes ≠ layout.count then .error (.miscount nodes layout.count) else .ok height

end Layout

end TriStore.RedBlack
