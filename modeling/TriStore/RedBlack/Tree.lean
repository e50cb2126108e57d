import TriStore.Table

/-!
# Red-black trees

Search trees by key, in code point order. A node has a colour, an entry and two subtrees; an entry
is a record together with the number of the slot it occupies. A rotation makes a child rise into
its parent's place without changing the order of the entries.
-/

namespace TriStore.RedBlack

inductive Color where
  | red
  | black
  deriving DecidableEq

inductive Side where
  | left
  | right
  deriving DecidableEq

def Side.flip : Side → Side
  | .left => .right
  | .right => .left

structure Entry where
  slot : Nat
  record : Record
  deriving DecidableEq

abbrev Entry.key (entry : Entry) : String := entry.record.key

inductive Tree where
  | leaf
  | node (color : Color) (entry : Entry) (left right : Tree)
  deriving DecidableEq

inductive Bound where
  | unbounded
  | included (key : String)
  | excluded (key : String)

def Bound.admits : Bound → String → Bool
  | .unbounded, _ => true
  | .included start, key => !(key < start)
  | .excluded start, key => start < key

namespace Tree

/-- The colour of the root; a leaf counts as black. -/
def color : Tree → Color
  | leaf => .black
  | node c _ _ _ => c

def rootColor? : Tree → Option Color
  | leaf => none
  | node c _ _ _ => some c

def paint (c : Color) : Tree → Tree
  | leaf => leaf
  | node _ e l r => node c e l r

def child (side : Side) : Tree → Tree
  | leaf => leaf
  | node _ _ l r => match side with
    | .left => l
    | .right => r

def paintChild (side : Side) (c : Color) : Tree → Tree
  | leaf => leaf
  | node d e l r => match side with
    | .left => node d e (l.paint c) r
    | .right => node d e l (r.paint c)

/-- Turns the tree towards a side: the child on the other side rises into the root's place. There is
nothing to turn where that child is a leaf. -/
def rotate? : Side → Tree → Option Tree
  | .left, node c x a (node d y b e) => some (node d y (node c x a b) e)
  | .right, node c x (node d y a b) e => some (node d y a (node c x b e))
  | _, _ => none

def entries : Tree → List Entry
  | leaf => []
  | node _ e l r => l.entries ++ e :: r.entries

def toList (t : Tree) : List Record := t.entries.map (·.record)

def toListFrom (bound : Bound) : Tree → List Record
  | leaf => []
  | node _ e l r =>
    if bound.admits e.key then l.toListFrom bound ++ e.record :: r.toList else r.toListFrom bound

def find? (key : String) : Tree → Option Entry
  | leaf => none
  | node _ e l r =>
    if key < e.key then l.find? key else if e.key < key then r.find? key else some e

end Tree

end TriStore.RedBlack
