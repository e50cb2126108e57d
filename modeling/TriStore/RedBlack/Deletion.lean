import TriStore.RedBlack.Cursor

/-!
# Deletion

A node with a leaf below it gives its place to its other subtree. A node with two subtrees gives its
place and its colour to the next entry in order, and that entry's node gives its own place to its
right subtree. Where the node that left its place was black, the paths through that place lack a
black node, and rounds of repair follow: a round either moves the lack one level up, by painting the
sibling red, or removes it by rotations.
-/

namespace TriStore.RedBlack.Deletion

/-- The leftmost node at or below a node: its colour, entry and right subtree, and the frames
between it and the place where the search began. -/
def leftmost (c : Color) (e : Entry) (r : Tree) (path : List Frame) :
    Tree → Color × Entry × Tree × List Frame
  | .leaf => (c, e, r, path)
  | .node c' e' l' r' => leftmost c' e' r' (⟨.left, c, e, r⟩ :: path) l'

/-- Takes the entry of a node out. Gives the place that lost a node, and the colour of that node. -/
def detach (c : Color) (l r : Tree) (path : List Frame) : Cursor × Color :=
  match l, r with
  | .leaf, r => (⟨r, path⟩, c)
  | l, .leaf => (⟨l, path⟩, c)
  | l, .node c₀ e₀ l₀ r₀ =>
    let (c', next, r', between) := leftmost c₀ e₀ r₀ [] l₀
    (⟨r', between ++ ⟨.right, c, next, l⟩ :: path⟩, c')

/-- The focus is black and not the root, so a lack of black there is not yet repaired. -/
def lacksBlack (c : Cursor) : Bool := !c.path.isEmpty && c.focus.color == .black

/-- A red sibling is painted black and rises above the parent, painted red; the focus keeps its
subtree and gets a black sibling. -/
def blackenSibling? : Cursor → Option Cursor
  | ⟨focus, parent :: path⟩ =>
    if parent.sibling.color = .red then
      let turned := { parent with color := .red, sibling := parent.sibling.paint .black }.plug focus
      ((Cursor.rotate? parent.side ⟨turned, path⟩).bind (Cursor.down? parent.side)).bind
        (Cursor.down? parent.side)
    else some ⟨focus, parent :: path⟩
  | ⟨_, []⟩ => none

/-- The sibling with a red child on the far side: a red child on the near side rises in its place.
-/
def reddenFar? (near : Side) (sibling : Tree) : Option Tree :=
  if (sibling.child near.flip).color = .black then
    ((sibling.paintChild near .black).paint .red).rotate? near.flip
  else some sibling

/-- The sibling rises above the parent and takes its colour; the parent and the sibling's far child
are painted black. That ends the repair, and the focus moves to the root. -/
def raiseSibling? : Cursor → Option Cursor
  | ⟨focus, parent :: path⟩ =>
    let sibling := (parent.sibling.paint parent.color).paintChild parent.side.flip .black
    (Cursor.rotate? parent.side ⟨{ parent with color := .black, sibling }.plug focus, path⟩).map
      Cursor.top
  | ⟨_, []⟩ => none

def fill? : Cursor → Option Cursor
  | ⟨focus, parent :: path⟩ =>
    match parent.sibling with
    | .leaf => none
    | .node c e l r =>
      if l.color = .black ∧ r.color = .black then
        some ⟨{ parent with sibling := .node .red e l r }.plug focus, path⟩
      else
        (reddenFar? parent.side (.node c e l r)).bind fun sibling =>
          raiseSibling? ⟨focus, { parent with sibling } :: path⟩
  | ⟨_, []⟩ => none

/-- One round of repair at a place that lacks a black node. There is none at a place without a
sibling node. -/
def round? (c : Cursor) : Option Cursor := (blackenSibling? c).bind fill?

def repair : Nat → Cursor → Cursor
  | 0, c => c
  | n + 1, c =>
    if lacksBlack c then
      match round? c with
      | some c' => repair n c'
      | none => c
    else c

/-- Makes up for a black node that is lacking at the focus. There is a round for each level at most,
and the place where they end is painted black. -/
def refill (c : Cursor) : Tree :=
  let c' := repair c.path.length c
  (Cursor.mk (c'.focus.paint .black) c'.path).tree

def eraseAt (c : Color) (l r : Tree) (path : List Frame) : Tree :=
  match detach c l r path with
  | (place, .black) => refill place
  | (place, .red) => place.tree

end TriStore.RedBlack.Deletion
