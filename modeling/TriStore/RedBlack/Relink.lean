import TriStore.RedBlack.Walk

/-!
# Relinking

Insertion and deletion as they are done in a table of cells, where links and colours are changed one
after another. Slot 0 is the sentinel and no node, so whatever would treat it as one is refused: to
paint it red, to give it a child or a parent, to turn where it would rise, to go on with a repair that
finds it in the place of a grandparent or of a sibling. A round beyond the number that is granted is
refused too. Only the leaf that a deletion leaves behind may borrow the sentinel's link to a parent,
until the deletion is over.
-/

namespace TriStore.RedBlack

inductive Misuse where
  | redSentinel
  | childOfSentinel
  | parentOfSentinel
  | noRisingChild
  | noGrandparent
  | noSibling
  | tooManyRounds
  /-- A walk down the tree does not end. -/
  | endless
  deriving DecidableEq

namespace Cell

def child (side : Side) (c : Cell) : Nat :=
  match side with
  | .left => c.left
  | .right => c.right

def setChild (side : Side) (slot : Nat) (c : Cell) : Cell :=
  match side with
  | .left => { c with left := slot }
  | .right => { c with right := slot }

def setParent (slot : Nat) (c : Cell) : Cell := { c with parent := slot }

def setColor (color : Color) (c : Cell) : Cell := { c with color }

def setValue (value : String) (c : Cell) : Cell := { c with record := { c.record with value } }

end Cell

namespace Layout

def change (slot : Nat) (f : Cell → Cell) (layout : Layout) : Layout :=
  { layout with cells := layout.cells.setIfInBounds slot (f (layout.cell slot)) }

def paint (slot : Nat) (c : Color) (layout : Layout) : Except Misuse Layout :=
  if slot = 0 ∧ c = .red then .error .redSentinel
  else .ok (layout.change slot (·.setColor c))

def setChild (side : Side) (slot child : Nat) (layout : Layout) : Except Misuse Layout :=
  if slot = 0 then .error .childOfSentinel else .ok (layout.change slot (·.setChild side child))

/-- Sets the link of a node or a leaf to its parent; a leaf borrows that of the sentinel. -/
def lendParent (slot parent : Nat) (layout : Layout) : Layout :=
  layout.change slot (·.setParent parent)

def setParent (slot parent : Nat) (layout : Layout) : Except Misuse Layout :=
  if slot = 0 then .error .parentOfSentinel else .ok (layout.lendParent slot parent)

/-- Sets the link of a node to its parent; there is none to set at a leaf. -/
def adopt (slot parent : Nat) (layout : Layout) : Layout :=
  if slot = 0 then layout else layout.lendParent slot parent

/-- Makes a slot the child of another, or the root where that other slot is 0. -/
def attach (side : Side) (above slot : Nat) (layout : Layout) : Except Misuse Layout :=
  if above = 0 then .ok { layout with root := slot } else layout.setChild side above slot

/-- Puts a slot in the place of a child, which is looked for on the given side first. -/
def relink (side : Side) (above old new : Nat) (layout : Layout) : Except Misuse Layout :=
  if old = (layout.cell above).child side then layout.attach side above new
  else layout.attach side.flip above new

def rotate (side : Side) (x : Nat) (layout : Layout) : Except Misuse Layout :=
  let y := (layout.cell x).child side.flip
  let inner := (layout.cell y).child side
  let above := (layout.cell x).parent
  if y = 0 then .error .noRisingChild
  else do
    let layout ← layout.setChild side.flip x inner
    let layout ← (layout.adopt inner x).setParent y above
    let layout ← layout.relink side above x y
    let layout ← layout.setChild side y x
    layout.setParent x y

def sideOf (slot parent : Nat) (layout : Layout) : Side :=
  if slot = (layout.cell parent).left then .left else .right

/-- The place of a key at or below a slot: the slot there, 0 for a leaf, and the slot above it with
the side on which it lies. -/
def locate (key : String) (layout : Layout) (steps above : Nat) (side : Side) (slot : Nat) :
    Option (Nat × Nat × Side) :=
  if slot = 0 then some (slot, above, side)
  else
    let cell := layout.cell slot
    match steps with
    | 0 => none
    | steps + 1 =>
      if key < cell.record.key then layout.locate key steps slot .left cell.left
      else if cell.record.key < key then layout.locate key steps slot .right cell.right
      else some (slot, above, side)

/-- Brings a red node, its red parent and the grandparent into one line: a node on the inner side rises
above its parent, which takes its part. -/
def straighten (side : Side) (z : Nat) (layout : Layout) : Except Misuse (Nat × Layout) :=
  let p := (layout.cell z).parent
  if z = (layout.cell p).child side.flip then do
    let layout ← layout.rotate side p
    return (p, layout)
  else .ok (z, layout)

def raiseParent (side : Side) (z : Nat) (layout : Layout) : Except Misuse Layout := do
  let p := (layout.cell z).parent
  let g := (layout.cell p).parent
  let layout ← layout.paint p .black
  let layout ← layout.paint g .red
  layout.rotate side.flip g

/-- A round of repair after an insertion, at a red node with a red parent. Gives the node at which
the next one starts. -/
def insertionRound (z : Nat) (layout : Layout) : Except Misuse (Nat × Layout) :=
  let p := (layout.cell z).parent
  let g := (layout.cell p).parent
  let side := layout.sideOf p g
  let uncle := (layout.cell g).child side.flip
  if g = 0 then .error .noGrandparent
  else if (layout.cell uncle).color = .red then do
    let layout ← layout.paint p .black
    let layout ← layout.paint uncle .black
    let layout ← layout.paint g .red
    return (g, layout)
  else do
    let (z, layout) ← layout.straighten side z
    let layout ← layout.raiseParent side z
    return (z, layout)

def repairInsertion (rounds z : Nat) (layout : Layout) : Except Misuse Layout :=
  if (layout.cell (layout.cell z).parent).color = .red then
    match rounds with
    | 0 => .error .tooManyRounds
    | rounds + 1 => do
      let (z, layout) ← layout.insertionRound z
      layout.repairInsertion rounds z
  else layout.paint layout.root .black

def write (slot : Nat) (cell : Cell) (layout : Layout) : Layout :=
  { layout with
    cells := if slot < layout.cells.size then layout.cells.setIfInBounds slot cell
      else layout.cells.push cell }

/-- Inserts a record, in the given slot. A key that is there already changes nothing. -/
def insert (rounds slot : Nat) (record : Record) (layout : Layout) : Except Misuse Layout :=
  match layout.locate record.key layout.cells.size 0 .left layout.root with
  | none => .error .endless
  | some (found, above, side) =>
    if found = 0 then do
      let layout := layout.write slot ⟨record, .red, above, 0, 0⟩
      let layout ← layout.attach side above slot
      let layout ← layout.repairInsertion rounds slot
      return { layout with count := layout.count + 1 }
    else .ok layout

def transplant (u v : Nat) (layout : Layout) : Except Misuse Layout := do
  let above := (layout.cell u).parent
  let layout ← layout.relink .left above u v
  return layout.lendParent v above

/-- The next node `y` after a node `z` gives its place to its right subtree and takes that of `z` above
the right subtree of `z`. -/
def detachNext (z y : Nat) (layout : Layout) : Except Misuse Layout :=
  let x := (layout.cell y).right
  if (layout.cell y).parent = z then .ok (layout.lendParent x y)
  else do
    let layout ← layout.transplant y x
    let right := (layout.cell z).right
    let layout ← layout.setChild .right y right
    layout.setParent right y

/-- Takes a node with two children off: the next node in order takes its place and its colour. -/
def unlinkInner (z y : Nat) (layout : Layout) : Except Misuse Layout := do
  let layout ← layout.detachNext z y
  let layout ← layout.transplant z y
  let left := (layout.cell z).left
  let layout ← layout.setChild .left y left
  let layout ← layout.setParent left y
  layout.paint y (layout.cell z).color

/-- Takes a node off. Gives the slot at the place that lost a node, and the colour of that node. -/
def unlink (z : Nat) (layout : Layout) : Except Misuse (Nat × Color × Layout) :=
  let cell := layout.cell z
  if cell.left = 0 then do
    let layout ← layout.transplant z cell.right
    return (cell.right, cell.color, layout)
  else if cell.right = 0 then do
    let layout ← layout.transplant z cell.left
    return (cell.left, cell.color, layout)
  else
    match layout.minimum layout.cells.size cell.right with
    | none => .error .endless
    | some y => do
      let next := layout.cell y
      let layout ← layout.unlinkInner z y
      return (next.right, next.color, layout)

def siblingOf (side : Side) (x : Nat) (layout : Layout) : Nat :=
  (layout.cell (layout.cell x).parent).child side.flip

def blackenSibling (side : Side) (x : Nat) (layout : Layout) : Except Misuse Layout :=
  let p := (layout.cell x).parent
  let w := layout.siblingOf side x
  if (layout.cell w).color = .red then do
    let layout ← layout.paint w .black
    let layout ← layout.paint p .red
    layout.rotate side p
  else .ok layout

/-- A red child of the sibling on the near side rises above it, where the one on the far side is
black. -/
def reddenFar (side : Side) (x : Nat) (layout : Layout) : Except Misuse Layout :=
  let w := layout.siblingOf side x
  if (layout.cell ((layout.cell w).child side.flip)).color = .black then do
    let layout ← layout.paint ((layout.cell w).child side) .black
    let layout ← layout.paint w .red
    layout.rotate side.flip w
  else .ok layout

def raiseSibling (side : Side) (x : Nat) (layout : Layout) : Except Misuse Layout := do
  let p := (layout.cell x).parent
  let w := layout.siblingOf side x
  if w = 0 then .error .noSibling
  else do
    let layout ← layout.paint w (layout.cell p).color
    let layout ← layout.paint p .black
    let layout ← layout.paint ((layout.cell w).child side.flip) .black
    layout.rotate side p

def fill (side : Side) (x : Nat) (layout : Layout) : Except Misuse (Nat × Layout) :=
  let w := layout.siblingOf side x
  if w = 0 then .error .noSibling
  else if (layout.cell (layout.cell w).left).color = .black ∧
      (layout.cell (layout.cell w).right).color = .black then do
    let layout ← layout.paint w .red
    return ((layout.cell x).parent, layout)
  else do
    let layout ← layout.reddenFar side x
    let layout ← layout.raiseSibling side x
    return (layout.root, layout)

/-- A round of repair after a deletion, at a place that lacks a black node. Gives the place at which
the next one starts. -/
def deletionRound (x : Nat) (layout : Layout) : Except Misuse (Nat × Layout) :=
  let side := layout.sideOf x (layout.cell x).parent
  if layout.siblingOf side x = 0 then .error .noSibling
  else do
    let layout ← layout.blackenSibling side x
    layout.fill side x

/-- Rounds of repair as long as a black node is lacking below the root; then the place where they end
is painted black. -/
def repairDeletion (rounds x : Nat) (layout : Layout) : Except Misuse Layout :=
  if x ≠ layout.root ∧ (layout.cell x).color = .black then
    match rounds with
    | 0 => .error .tooManyRounds
    | rounds + 1 => do
      let (x, layout) ← layout.deletionRound x
      layout.repairDeletion rounds x
  else layout.paint x .black

/-- Repairs the tree at a place that lost a node of a colour. A red one is not missed. -/
def settle (rounds x : Nat) (removed : Color) (layout : Layout) : Except Misuse Layout :=
  match removed with
  | .black => layout.repairDeletion rounds x
  | .red => .ok layout

/-- Takes a node off and repairs the tree. The sentinel gets its own link back. -/
def deleteNode (rounds z : Nat) (layout : Layout) : Except Misuse Layout := do
  let (x, removed, layout) ← layout.unlink z
  let layout ← layout.settle rounds x removed
  return layout.lendParent 0 0

/-- Removes the record of a key and clears its slot. A key that is not there changes nothing. -/
def remove (rounds : Nat) (key : String) (layout : Layout) : Except Misuse Layout :=
  match layout.find key layout.cells.size layout.root with
  | none => .error .endless
  | some z =>
    if z = 0 then .ok layout
    else do
      let layout ← layout.deleteNode rounds z
      let layout := layout.change z fun cell => Cell.sentinel.setColor cell.color
      return { layout with count := layout.count - 1 }

end Layout

end TriStore.RedBlack
