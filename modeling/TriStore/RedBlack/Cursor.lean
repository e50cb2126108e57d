import TriStore.RedBlack.Tree

/-!
# Cursors

A cursor is a place in a tree: the subtree in focus, and the path from it up to the root. Each frame
of the path is a node above the focus without the subtree in which the focus lies. `Cursor.tree`
puts the whole tree together again.
-/

namespace TriStore.RedBlack

/-- A node on the path: the focus lies on `side`, and `sibling` is the subtree on the other side. -/
structure Frame where
  side : Side
  color : Color
  entry : Entry
  sibling : Tree

/-- The node of a frame, with a subtree in the place of the focus. -/
def Frame.plug (f : Frame) (t : Tree) : Tree :=
  match f.side with
  | .left => .node f.color f.entry t f.sibling
  | .right => .node f.color f.entry f.sibling t

structure Cursor where
  focus : Tree
  /-- The frames from the parent of the focus up to the root. -/
  path : List Frame

namespace Cursor

/-- The whole tree around a subtree. -/
def rebuild : Tree → List Frame → Tree
  | t, [] => t
  | t, f :: path => rebuild (f.plug t) path

def tree (c : Cursor) : Tree := rebuild c.focus c.path

def top (c : Cursor) : Cursor := ⟨c.tree, []⟩

def down? (side : Side) : Cursor → Option Cursor
  | ⟨.leaf, _⟩ => none
  | ⟨.node c e l r, path⟩ => match side with
    | .left => some ⟨l, ⟨.left, c, e, r⟩ :: path⟩
    | .right => some ⟨r, ⟨.right, c, e, l⟩ :: path⟩

/-- Turns the subtree in focus; the child that rises comes into focus. -/
def rotate? (side : Side) (c : Cursor) : Option Cursor :=
  (c.focus.rotate? side).map fun t => ⟨t, c.path⟩

/-- The place of a key below a path: its node, or the leaf where it belongs. -/
def descend (key : String) : Tree → List Frame → Cursor
  | .leaf, path => ⟨.leaf, path⟩
  | .node c e l r, path =>
    if key < e.key then descend key l (⟨.left, c, e, r⟩ :: path)
    else if e.key < key then descend key r (⟨.right, c, e, l⟩ :: path)
    else ⟨.node c e l r, path⟩

end Cursor

def Tree.seek (t : Tree) (key : String) : Cursor := Cursor.descend key t []

end TriStore.RedBlack
