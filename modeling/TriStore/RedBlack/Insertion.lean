import TriStore.RedBlack.Cursor

/-!
# Insertion

A new entry becomes a red node in the place of a leaf. If its parent is red too, rounds of repair
follow: a round either moves the pair of red nodes two levels up, by recolouring, or removes it by
one or two rotations. The root is painted black at the end.
-/

namespace TriStore.RedBlack.Insertion

/-- The parent of the focus is red, so the red node in focus makes a pair with it. -/
def redParent (c : Cursor) : Bool :=
  match c.path with
  | [] => false
  | parent :: _ => parent.color == .red

/-- Brings focus, parent and grandparent into one line: an inner focus rises above its parent, which
takes the focus. -/
def straighten? : Cursor → Option Cursor
  | ⟨focus, parent :: grand :: path⟩ =>
    if parent.side = grand.side then some ⟨focus, parent :: grand :: path⟩
    else (Cursor.rotate? grand.side ⟨parent.plug focus, grand :: path⟩).bind
      (Cursor.down? grand.side)
  | _ => none

/-- The parent, painted black, rises above the grandparent, painted red. -/
def raiseParent? : Cursor → Option Cursor
  | ⟨focus, parent :: grand :: path⟩ =>
    let below := { parent with color := .black }.plug focus
    (Cursor.rotate? grand.side.flip ⟨{ grand with color := .red }.plug below, path⟩).bind
      (Cursor.down? grand.side)
  | _ => none

/-- One round of repair at a red node with a red parent. There is none where the parent is the
root. -/
def round? : Cursor → Option Cursor
  | ⟨focus, parent :: grand :: path⟩ =>
    if grand.sibling.color = .red then
      let below := { parent with color := .black }.plug focus
      some ⟨{ grand with color := .red, sibling := grand.sibling.paint .black }.plug below, path⟩
    else (straighten? ⟨focus, parent :: grand :: path⟩).bind raiseParent?
  | _ => none

def repair : Nat → Cursor → Cursor
  | 0, c => c
  | n + 1, c =>
    if redParent c then
      match round? c with
      | some c' => repair n c'
      | none => c
    else c

/-- The tree with an entry in the place of the leaf at the end of a path. There is a round for each
level at most. -/
def insertAt (entry : Entry) (path : List Frame) : Tree :=
  (repair path.length ⟨.node .red entry .leaf .leaf, path⟩).tree.paint .black

end TriStore.RedBlack.Insertion
