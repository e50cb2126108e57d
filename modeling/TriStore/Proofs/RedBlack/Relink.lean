import TriStore.RedBlack.Relink
import TriStore.Proofs.RedBlack.Walk

/-!
# Changing the links of a tree

A table that holds a tree consists of parts: the cells of single nodes, whole subtrees, and a path up
to the root. A change to one part leaves the others as they are, since no slot belongs to two of
them. So a change of links is followed by taking the nodes around it apart, changing their cells one
by one, and putting the parts together again.
-/

namespace TriStore.RedBlack

def Yields {α : Type} (r : Except Misuse α) (post : α → Prop) : Prop := ∃ a, r = .ok a ∧ post a

namespace Yields
variable {α β : Type} {r : Except Misuse α} {post : α → Prop}

theorem ok {a : α} (h : post a) : Yields (.ok a) post := ⟨a, rfl, h⟩

theorem bind {next : α → Except Misuse β} {last : β → Prop} (h : Yields r post)
    (hnext : ∀ a, post a → Yields (next a) last) : Yields (r >>= next) last := by
  obtain ⟨a, rfl, ha⟩ := h
  exact hnext a ha

theorem mono {last : α → Prop} (h : Yields r post) (hlast : ∀ a, post a → last a) :
    Yields r last := by
  obtain ⟨a, hr, ha⟩ := h
  exact ⟨a, hr, hlast a ha⟩

end Yields

@[simp] theorem Side.flip_flip (side : Side) : side.flip.flip = side := by
  cases side <;> rfl

theorem Side.flip_ne (side : Side) : side.flip ≠ side := by
  cases side <;> exact nofun

theorem Side.eq_flip {side other : Side} (h : side ≠ other) : side = other.flip := by
  cases side <;> cases other <;> first | rfl | exact absurd rfl h

namespace Frame
variable {parent child : Nat}

/-- The cell of the node of a frame, with its links to the node above it and to the child on the path.
-/
def cell (f : Frame) (parent child : Nat) : Cell :=
  match f.side with
  | .left => ⟨f.entry.record, f.color, parent, child, f.sibling.rootSlot⟩
  | .right => ⟨f.entry.record, f.color, parent, f.sibling.rootSlot, child⟩

def turn (f : Frame) (t : Tree) : Frame := ⟨f.side.flip, f.color, f.entry, t⟩

theorem plug_turn (f : Frame) (t : Tree) : (f.turn t).plug f.sibling = f.plug t := by
  obtain ⟨side, c, e, s⟩ := f
  cases side <;> rfl

@[simp] theorem rootSlot_plug (f : Frame) (t : Tree) : (f.plug t).rootSlot = f.entry.slot := by
  obtain ⟨side, c, e, s⟩ := f
  cases side <;> rfl

theorem plug_ne_leaf (f : Frame) (t : Tree) : f.plug t ≠ .leaf := by
  obtain ⟨side, c, e, s⟩ := f
  cases side <;> exact nofun

@[simp] theorem parent_cell (f : Frame) : (f.cell parent child).parent = parent := by
  obtain ⟨side, c, e, s⟩ := f
  cases side <;> rfl

@[simp] theorem color_cell (f : Frame) : (f.cell parent child).color = f.color := by
  obtain ⟨side, c, e, s⟩ := f
  cases side <;> rfl

@[simp] theorem child_cell (f : Frame) : (f.cell parent child).child f.side = child := by
  obtain ⟨side, c, e, s⟩ := f
  cases side <;> rfl

@[simp] theorem child_flip_cell (f : Frame) :
    (f.cell parent child).child f.side.flip = f.sibling.rootSlot := by
  obtain ⟨side, c, e, s⟩ := f
  cases side <;> rfl

theorem setParent_cell (f : Frame) (other : Nat) :
    (f.cell parent child).setParent other = f.cell other child := by
  obtain ⟨side, c, e, s⟩ := f
  cases side <;> rfl

theorem setColor_cell (f : Frame) (c : Color) :
    (f.cell parent child).setColor c = { f with color := c }.cell parent child := by
  obtain ⟨side, d, e, s⟩ := f
  cases side <;> rfl

theorem setChild_cell (f : Frame) (other : Nat) :
    (f.cell parent child).setChild f.side other = f.cell parent other := by
  obtain ⟨side, c, e, s⟩ := f
  cases side <;> rfl

theorem setChild_flip_cell (f : Frame) (t : Tree) :
    (f.cell parent child).setChild f.side.flip t.rootSlot =
      { f with sibling := t }.cell parent child := by
  obtain ⟨side, c, e, s⟩ := f
  cases side <;> rfl

theorem slots_plug_perm (f : Frame) (t : Tree) :
    (f.plug t).slots.Perm (f.entry.slot :: (t.slots ++ f.sibling.slots)) := by
  obtain ⟨side, c, e, s⟩ := f
  cases side with
  | left =>
    change (Tree.node c e t s).slots.Perm _
    rw [Tree.slots_node]
    exact List.perm_middle
  | right =>
    change (Tree.node c e s t).slots.Perm _
    rw [Tree.slots_node]
    exact List.perm_middle.trans (List.perm_append_comm.cons _)

end Frame

theorem Tree.exists_plug {t : Tree} (h : t ≠ .leaf) (side : Side) :
    ∃ f a, f.side = side ∧ t = Frame.plug f a := by
  cases t with
  | leaf => exact absurd rfl h
  | node c e l r =>
    cases side with
    | left => exact ⟨⟨.left, c, e, r⟩, l, rfl, rfl⟩
    | right => exact ⟨⟨.right, c, e, l⟩, r, rfl, rfl⟩

/-- Both nodes of a turn, seen from the side towards which it goes. -/
theorem Tree.rotate?_eq_some {side : Side} {t t' : Tree} (h : t.rotate? side = some t') :
    ∃ c d x y a b e, t = Frame.plug ⟨side, c, x, Frame.plug ⟨side, d, y, e⟩ b⟩ a ∧
      t' = Frame.plug ⟨side, d, y, e⟩ (Frame.plug ⟨side, c, x, b⟩ a) := by
  cases t with
  | leaf => cases side <;> cases h
  | node c x l r =>
    cases side with
    | left =>
      cases r with
      | leaf => cases h
      | node d y b e =>
        cases h
        exact ⟨c, d, x, y, l, b, e, rfl, rfl⟩
    | right =>
      cases l with
      | leaf => cases h
      | node d y e b =>
        cases h
        exact ⟨c, d, x, y, r, b, e, rfl, rfl⟩

theorem Cursor.down?_plug (f : Frame) (t : Tree) (path : List Frame) :
    Cursor.down? f.side ⟨f.plug t, path⟩ = some ⟨t, f :: path⟩ := by
  obtain ⟨side, c, e, s⟩ := f
  cases side <;> rfl

def pathSlots : List Frame → List Nat
  | [] => []
  | f :: path => f.entry.slot :: (f.sibling.slots ++ pathSlots path)

theorem pathSlots_append (p q : List Frame) : pathSlots (p ++ q) = pathSlots p ++ pathSlots q := by
  induction p with
  | nil => rfl
  | cons f p ih => simp only [List.cons_append, pathSlots, ih, List.append_assoc]

theorem slots_rebuild_perm (t : Tree) (path : List Frame) :
    (Cursor.rebuild t path).slots.Perm (pathSlots path ++ t.slots) := by
  induction path generalizing t with
  | nil => exact .refl _
  | cons f path ih =>
    refine (ih (f.plug t)).trans ?_
    refine ((f.slots_plug_perm t).append_left _).trans (List.perm_middle.trans ?_)
    rw [pathSlots, List.cons_append, List.append_assoc]
    refine List.Perm.cons _ ?_
    rw [← List.append_assoc, ← List.append_assoc]
    refine List.perm_append_comm.trans ?_
    rw [← List.append_assoc]

def sideAbove (path : List Frame) : Side := (path.head?.map (·.side)).getD .left

/-- A part of a table: the cell of a node, or the cells of a tree below a parent. -/
inductive Part where
  | node (slot : Nat) (cell : Cell)
  | tree (parent : Nat) (t : Tree)

def Part.slots : Part → List Nat
  | node slot _ => [slot]
  | tree _ t => t.slots

namespace Layout
variable {layout layout' : Layout} {f : Frame} {t : Tree} {path : List Frame} {parent slot child : Nat}

def HasNode (layout : Layout) (slot : Nat) (cell : Cell) : Prop :=
  slot ≠ 0 ∧ slot < layout.cells.size ∧ layout.cell slot = cell

def HasPart (layout : Layout) : Part → Prop
  | .node slot cell => layout.HasNode slot cell
  | .tree parent t => layout.Holds parent t

/-- The cells of the nodes on a path that leads up to the root from a child, and of the trees beside
it. -/
def HasPath (layout : Layout) (child : Nat) : List Frame → Prop
  | [] => layout.root = child
  | f :: path => layout.HasNode f.entry.slot (f.cell (slotAbove path) child) ∧
      layout.Holds f.entry.slot f.sibling ∧ layout.HasPath f.entry.slot path

/-- What does not change when a tree is relinked: the number of slots, the count, and the sentinel, but
for the parent that may have borrowed it. -/
structure Bounds where
  size : Nat
  count : Nat
  lent : Nat

/-- A table with the path from a child up to the root and with other parts, each in slots of its own. -/
structure Consists (layout : Layout) (bounds : Bounds) (child : Nat) (path : List Frame)
    (parts : List Part) : Prop where
  size_pos : 0 < bounds.size
  size_eq : layout.cells.size = bounds.size
  count_eq : layout.count = bounds.count
  sentinel : layout.cell 0 = Cell.sentinel.setParent bounds.lent
  above : layout.HasPath child path
  has : ∀ part ∈ parts, layout.HasPart part
  nodup : (pathSlots path ++ parts.flatMap Part.slots).Nodup

theorem holds_plug : layout.Holds parent (f.plug t) ↔
    layout.HasNode f.entry.slot (f.cell parent t.rootSlot) ∧ layout.Holds f.entry.slot t ∧
      layout.Holds f.entry.slot f.sibling := by
  obtain ⟨side, c, e, s⟩ := f
  cases side with
  | left =>
    constructor
    · rintro ⟨hzero, hlt, hcell, ht, hs⟩
      exact ⟨⟨hzero, hlt, hcell⟩, ht, hs⟩
    · rintro ⟨⟨hzero, hlt, hcell⟩, ht, hs⟩
      exact ⟨hzero, hlt, hcell, ht, hs⟩
  | right =>
    constructor
    · rintro ⟨hzero, hlt, hcell, hs, ht⟩
      exact ⟨⟨hzero, hlt, hcell⟩, ht, hs⟩
    · rintro ⟨⟨hzero, hlt, hcell⟩, ht, hs⟩
      exact ⟨hzero, hlt, hcell, hs, ht⟩

section Change
variable {g : Cell → Cell}

@[simp] theorem size_change : (layout.change slot g).cells.size = layout.cells.size :=
  Array.size_setIfInBounds

theorem cell_change_of_ne {other : Nat} (h : other ≠ slot) :
    (layout.change slot g).cell other = layout.cell other := by
  rw [cell, cell, change, Array.getD_eq_getD_getElem?, Array.getD_eq_getD_getElem?,
    Array.getElem?_setIfInBounds_ne h.symm]

theorem cell_change_self (h : slot < layout.cells.size) :
    (layout.change slot g).cell slot = g (layout.cell slot) := by
  apply cell_eq_of_getElem?
  rw [change, Array.getElem?_setIfInBounds_self_of_lt h]

end Change

/-- What a tree says of a table depends on the cells of its own slots only. -/
theorem Holds.congr (h : layout.Holds parent t) (hsize : layout.cells.size ≤ layout'.cells.size)
    (hcells : ∀ slot ∈ t.slots, layout'.cell slot = layout.cell slot) : layout'.Holds parent t := by
  induction t generalizing parent with
  | leaf => trivial
  | node c e l r ihl ihr =>
    obtain ⟨hzero, hlt, hcell, hl, hr⟩ := h
    simp only [Tree.slots_node, List.mem_append, List.mem_cons] at hcells
    refine ⟨hzero, Nat.lt_of_lt_of_le hlt hsize, ?_, ihl hl fun slot hs => ?_, ihr hr fun slot hs => ?_⟩
    · rw [hcells e.slot (Or.inr (Or.inl rfl)), hcell]
    · exact hcells slot (Or.inl hs)
    · exact hcells slot (Or.inr (Or.inr hs))

theorem HasNode.congr {cell : Cell} (h : layout.HasNode slot cell)
    (hsize : layout.cells.size ≤ layout'.cells.size) (hcell : layout'.cell slot = layout.cell slot) :
    layout'.HasNode slot cell :=
  ⟨h.1, Nat.lt_of_lt_of_le h.2.1 hsize, hcell.trans h.2.2⟩

theorem HasPart.congr {part : Part} (h : layout.HasPart part)
    (hsize : layout.cells.size ≤ layout'.cells.size)
    (hcells : ∀ slot ∈ part.slots, layout'.cell slot = layout.cell slot) : layout'.HasPart part := by
  cases part with
  | node slot cell => exact HasNode.congr h hsize (hcells slot List.mem_cons_self)
  | tree parent t => exact Holds.congr h hsize hcells

theorem HasPath.congr (h : layout.HasPath child path) (hroot : layout'.root = layout.root)
    (hsize : layout.cells.size ≤ layout'.cells.size)
    (hcells : ∀ slot ∈ pathSlots path, layout'.cell slot = layout.cell slot) :
    layout'.HasPath child path := by
  induction path generalizing child with
  | nil => exact hroot.trans h
  | cons f path ih =>
    obtain ⟨hnode, hsibling, hpath⟩ := h
    simp only [pathSlots, List.mem_cons, List.mem_append] at hcells
    refine ⟨hnode.congr hsize (hcells _ (Or.inl rfl)), hsibling.congr hsize fun slot hs => ?_,
      ih hpath fun slot hs => ?_⟩
    · exact hcells slot (Or.inr (Or.inl hs))
    · exact hcells slot (Or.inr (Or.inr hs))

theorem Holds.ne_zero (h : layout.Holds parent t) : ∀ slot ∈ t.slots, slot ≠ 0 := by
  intro slot hslot
  obtain ⟨e, he, rfl⟩ := List.mem_map.mp hslot
  exact (cell_of_mem h he).1

theorem HasPart.ne_zero {part : Part} (h : layout.HasPart part) : ∀ slot ∈ part.slots, slot ≠ 0 := by
  cases part with
  | node slot cell => exact List.forall_mem_singleton.mpr (And.left h)
  | tree parent t => exact Holds.ne_zero h

theorem HasPath.ne_zero (h : layout.HasPath child path) : ∀ slot ∈ pathSlots path, slot ≠ 0 := by
  induction path generalizing child with
  | nil => exact fun _ hslot => absurd hslot List.not_mem_nil
  | cons f path ih =>
    obtain ⟨hnode, hsibling, hpath⟩ := h
    exact List.forall_mem_cons.mpr ⟨hnode.1, List.forall_mem_append.mpr ⟨hsibling.ne_zero, ih hpath⟩⟩

theorem HasPath.root_mem (h : layout.HasPath child (f :: path)) :
    layout.root ∈ pathSlots (f :: path) := by
  induction path generalizing child f with
  | nil =>
    obtain ⟨-, -, hroot⟩ := h
    rw [show layout.root = f.entry.slot from hroot]
    exact List.mem_cons_self
  | cons g path ih =>
    exact List.mem_cons_of_mem _ (List.mem_append_right _ (ih h.2.2))

namespace Consists
variable {bounds : Bounds} {front parts : List Part} {part : Part}

/-- A part may be seen as other parts that say the same of every table. -/
theorem split (more : List Part) (hpart : ∀ layout, HasPart layout part ↔ ∀ p ∈ more, HasPart layout p)
    (hslots : part.slots.Perm (more.flatMap Part.slots)) (front : List Part) :
    layout.Consists bounds child path (front ++ part :: parts) ↔
      layout.Consists bounds child path (front ++ (more ++ parts)) := by
  have hhas : (∀ p ∈ front ++ part :: parts, layout.HasPart p) ↔
      ∀ p ∈ front ++ (more ++ parts), layout.HasPart p := by
    simp only [List.forall_mem_append, List.forall_mem_cons, hpart layout]
  have hperm : (pathSlots path ++ (front ++ part :: parts).flatMap Part.slots).Perm
      (pathSlots path ++ (front ++ (more ++ parts)).flatMap Part.slots) := by
    simp only [List.flatMap_append, List.flatMap_cons]
    exact ((hslots.append_right _).append_left _).append_left _
  exact ⟨fun h => ⟨h.size_pos, h.size_eq, h.count_eq, h.sentinel, h.above, hhas.mp h.has,
      hperm.nodup_iff.mp h.nodup⟩,
    fun h => ⟨h.size_pos, h.size_eq, h.count_eq, h.sentinel, h.above, hhas.mpr h.has,
      hperm.nodup_iff.mpr h.nodup⟩⟩

/-- A node with its subtrees. -/
theorem split_plug (front : List Part) :
    layout.Consists bounds child path (front ++ .tree parent (f.plug t) :: parts) ↔
      layout.Consists bounds child path (front ++ (.node f.entry.slot (f.cell parent t.rootSlot) ::
        .tree f.entry.slot t :: .tree f.entry.slot f.sibling :: parts)) := by
  refine split [.node f.entry.slot (f.cell parent t.rootSlot), .tree f.entry.slot t,
    .tree f.entry.slot f.sibling] (fun layout => ?_) ?_ front
  · simp only [List.forall_mem_cons, List.not_mem_nil, false_implies, implies_true, and_true]
    exact holds_plug
  · simp only [List.flatMap_cons, List.flatMap_nil, List.append_nil, Part.slots,
      List.singleton_append]
    exact f.slots_plug_perm t

theorem leaf_iff (front : List Part) :
    layout.Consists bounds child path (front ++ .tree parent .leaf :: parts) ↔
      layout.Consists bounds child path (front ++ parts) := by
  refine split [] (fun layout => ?_) (.refl _) front
  exact ⟨fun _ _ hpart => absurd hpart List.not_mem_nil, fun _ => trivial⟩

theorem perm {others : List Part} (h : layout.Consists bounds child path parts)
    (hperm : parts.Perm others) : layout.Consists bounds child path others where
  size_pos := h.size_pos
  size_eq := h.size_eq
  count_eq := h.count_eq
  sentinel := h.sentinel
  above := h.above
  has part hpart := h.has part (hperm.mem_iff.mpr hpart)
  nodup := ((hperm.flatMap_right _).append_left _).nodup_iff.mp h.nodup

theorem tail (h : layout.Consists bounds child path (part :: parts)) :
    layout.Consists bounds child path parts where
  size_pos := h.size_pos
  size_eq := h.size_eq
  count_eq := h.count_eq
  sentinel := h.sentinel
  above := h.above
  has part hpart := h.has part (List.mem_cons_of_mem _ hpart)
  nodup := by
    have hnodup := h.nodup
    rw [List.flatMap_cons] at hnodup
    exact hnodup.sublist ((List.sublist_append_right _ _).append_left _)

/-- The last node of a path may be taken off it. -/
theorem cons_path_iff : layout.Consists bounds child (f :: path) parts ↔
    layout.Consists bounds f.entry.slot path
      (.node f.entry.slot (f.cell (slotAbove path) child) :: .tree f.entry.slot f.sibling :: parts) := by
  have hperm : (pathSlots (f :: path) ++ parts.flatMap Part.slots).Perm
      (pathSlots path ++ (.node f.entry.slot (f.cell (slotAbove path) child) ::
        .tree f.entry.slot f.sibling :: parts).flatMap Part.slots) := by
    simp only [pathSlots, List.flatMap_cons, Part.slots, List.cons_append, List.append_assoc,
      List.nil_append]
    refine List.Perm.trans ?_ List.perm_middle.symm
    refine List.Perm.cons _ ?_
    rw [← List.append_assoc, ← List.append_assoc]
    exact List.perm_append_comm.append_right _
  constructor
  · intro h
    obtain ⟨hnode, hsibling, hpath⟩ := h.above
    exact ⟨h.size_pos, h.size_eq, h.count_eq, h.sentinel, hpath,
      List.forall_mem_cons.mpr ⟨hnode, List.forall_mem_cons.mpr ⟨hsibling, h.has⟩⟩,
      hperm.nodup_iff.mp h.nodup⟩
  · intro h
    obtain ⟨hnode, hparts⟩ := List.forall_mem_cons.mp h.has
    obtain ⟨hsibling, hparts⟩ := List.forall_mem_cons.mp hparts
    exact ⟨h.size_pos, h.size_eq, h.count_eq, h.sentinel, ⟨hnode, hsibling, h.above⟩, hparts,
      hperm.nodup_iff.mpr h.nodup⟩

theorem plug_iff : layout.Consists bounds (f.plug t).rootSlot path
      (.tree (slotAbove path) (f.plug t) :: parts) ↔
    layout.Consists bounds t.rootSlot (f :: path) (.tree (slotAbove (f :: path)) t :: parts) := by
  rw [cons_path_iff, Frame.rootSlot_plug]
  refine (split_plug []).trans ⟨fun h => ?_, fun h => ?_⟩
  · exact h.perm ((List.Perm.swap _ _ _).cons _)
  · exact h.perm ((List.Perm.swap _ _ _).cons _)

theorem rebuild_iff {above : List Frame} :
    layout.Consists bounds (Cursor.rebuild t path).rootSlot above
        (.tree (slotAbove above) (Cursor.rebuild t path) :: parts) ↔
      layout.Consists bounds t.rootSlot (path ++ above) (.tree (slotAbove (path ++ above)) t :: parts) := by
  induction path generalizing t with
  | nil => exact Iff.rfl
  | cons f path ih => exact (ih (t := f.plug t)).trans plug_iff

theorem setCount (h : layout.Consists bounds child path parts) (count : Nat) :
    Consists { layout with count } { bounds with count } child path parts where
  size_pos := h.size_pos
  size_eq := h.size_eq
  count_eq := rfl
  sentinel := h.sentinel
  above := h.above.congr rfl (Nat.le_refl _) fun _ _ => rfl
  has part hpart := (h.has part hpart).congr (Nat.le_refl _) fun _ _ => rfl
  nodup := h.nodup

section Change
variable {cell : Cell}

theorem hasNode (front : List Part)
    (h : layout.Consists bounds child path (front ++ .node slot cell :: parts)) :
    layout.HasNode slot cell :=
  h.has (.node slot cell) (List.mem_append_right _ List.mem_cons_self)

/-- The slot of a node belongs to no other part. -/
theorem not_mem (front : List Part)
    (h : layout.Consists bounds child path (front ++ .node slot cell :: parts)) :
    slot ∉ pathSlots path ∧ ∀ part ∈ front ++ parts, slot ∉ part.slots := by
  have hnodup := h.nodup
  simp only [List.flatMap_append, List.flatMap_cons, Part.slots, ← List.append_assoc] at hnodup
  have hmiddle : (slot :: (pathSlots path ++ front.flatMap Part.slots ++
      parts.flatMap Part.slots)).Nodup :=
    List.perm_middle.nodup_iff.mp (by simpa using hnodup)
  have hnot := (List.nodup_cons.mp hmiddle).1
  simp only [List.mem_append, List.mem_flatMap, not_or, not_exists, not_and] at hnot
  refine ⟨hnot.1.1, fun part hpart => ?_⟩
  rcases List.mem_append.mp hpart with hpart | hpart
  · exact hnot.1.2 part hpart
  · exact hnot.2 part hpart

theorem kept (h : layout.Consists bounds child path parts) (hpath : slot ∉ pathSlots path)
    (hparts : ∀ part ∈ parts, slot ∉ part.slots) (g : Cell → Cell) :
    (layout.change slot g).HasPath child path ∧
      ∀ part ∈ parts, (layout.change slot g).HasPart part := by
  have hsize : layout.cells.size ≤ (layout.change slot g).cells.size := Nat.le_of_eq size_change.symm
  have hother {slots : List Nat} (hslots : slot ∉ slots) :
      ∀ other ∈ slots, (layout.change slot g).cell other = layout.cell other := fun other hmem =>
    cell_change_of_ne fun heq => hslots (heq ▸ hmem)
  exact ⟨h.above.congr rfl hsize (hother hpath), fun part hpart =>
    (h.has part hpart).congr hsize (hother (hparts part hpart))⟩

/-- A change to a cell of which no part knows. -/
theorem change_fresh (h : layout.Consists bounds child path parts) (hzero : slot ≠ 0)
    (hpath : slot ∉ pathSlots path) (hparts : ∀ part ∈ parts, slot ∉ part.slots) (g : Cell → Cell) :
    (layout.change slot g).Consists bounds child path parts := by
  obtain ⟨habove, hhas⟩ := h.kept hpath hparts g
  refine ⟨h.size_pos, size_change.trans h.size_eq, h.count_eq, ?_, habove, hhas, h.nodup⟩
  rw [cell_change_of_ne hzero.symm]
  exact h.sentinel

/-- A change to the cell of a node leaves the other parts alone. -/
theorem change (front : List Part)
    (h : layout.Consists bounds child path (front ++ .node slot cell :: parts)) (g : Cell → Cell) :
    (layout.change slot g).Consists bounds child path (front ++ .node slot (g cell) :: parts) := by
  obtain ⟨hzero, hlt, hcell⟩ := h.hasNode front
  obtain ⟨hpath, hparts⟩ := h.not_mem front
  have hrest := (tail (h.perm List.perm_middle)).change_fresh hzero hpath hparts g
  have hnode : (layout.change slot g).HasNode slot (g cell) := by
    refine ⟨hzero, ?_, ?_⟩
    · rw [size_change]
      exact hlt
    · rw [cell_change_self hlt, hcell]
  refine Consists.perm ?_ List.perm_middle.symm
  refine ⟨hrest.size_pos, hrest.size_eq, hrest.count_eq, hrest.sentinel, hrest.above,
    List.forall_mem_cons.mpr ⟨hnode, hrest.has⟩, ?_⟩
  exact (h.perm List.perm_middle).nodup

theorem setChild (front : List Part)
    (h : layout.Consists bounds child path (front ++ .node slot cell :: parts)) (side : Side)
    (other : Nat) : Yields (layout.setChild side slot other)
      (·.Consists bounds child path (front ++ .node slot (cell.setChild side other) :: parts)) := by
  rw [Layout.setChild, if_neg (h.hasNode front).1]
  exact .ok (h.change front _)

theorem setParent (front : List Part)
    (h : layout.Consists bounds child path (front ++ .node slot cell :: parts)) (other : Nat) :
    Yields (layout.setParent slot other)
      (·.Consists bounds child path (front ++ .node slot (cell.setParent other) :: parts)) := by
  rw [Layout.setParent, if_neg (h.hasNode front).1]
  exact .ok (h.change front _)

theorem paint (front : List Part)
    (h : layout.Consists bounds child path (front ++ .node slot cell :: parts)) (c : Color) :
    Yields (layout.paint slot c)
      (·.Consists bounds child path (front ++ .node slot (cell.setColor c) :: parts)) := by
  rw [Layout.paint, if_neg fun hred => (h.hasNode front).1 hred.1]
  exact .ok (h.change front _)

end Change

theorem change_sentinel (h : layout.Consists bounds child path parts) {g : Cell → Cell} {lent : Nat}
    (hg : g (Cell.sentinel.setParent bounds.lent) = Cell.sentinel.setParent lent) :
    (layout.change 0 g).Consists { bounds with lent } child path parts := by
  have hparts : ∀ part ∈ parts, 0 ∉ part.slots := fun part hpart hzero =>
    (h.has part hpart).ne_zero 0 hzero rfl
  obtain ⟨habove, hhas⟩ := h.kept (fun hzero => h.above.ne_zero 0 hzero rfl) hparts g
  refine ⟨h.size_pos, size_change.trans h.size_eq, h.count_eq, ?_, habove, hhas, h.nodup⟩
  rw [cell_change_self (by rw [h.size_eq]; exact h.size_pos), h.sentinel, hg]

/-- A tree gets another parent; if it is a leaf it borrows the link of the sentinel. -/
theorem lendParent (front : List Part)
    (h : layout.Consists bounds child path (front ++ .tree parent t :: parts)) (other : Nat) :
    ∃ lent, (t = .leaf → lent = other) ∧ (t ≠ .leaf → lent = bounds.lent) ∧
      (layout.lendParent t.rootSlot other).Consists { bounds with lent } child path
        (front ++ .tree other t :: parts) := by
  by_cases ht : t = .leaf
  · subst ht
    refine ⟨other, fun _ => rfl, fun hne => absurd rfl hne, (leaf_iff front).mpr ?_⟩
    exact ((leaf_iff front).mp h).change_sentinel rfl
  · obtain ⟨f, a, -, rfl⟩ := Tree.exists_plug ht .left
    refine ⟨bounds.lent, fun hleaf => absurd hleaf ht, fun _ => rfl, (split_plug front).mpr ?_⟩
    have hchange := ((split_plug front).mp h).change front (·.setParent other)
    rw [Frame.setParent_cell] at hchange
    rwa [Frame.rootSlot_plug]

theorem rootSlot_ne_zero (front : List Part)
    (h : layout.Consists bounds child path (front ++ .tree parent t :: parts)) (ht : t ≠ .leaf) :
    t.rootSlot ≠ 0 := by
  have hholds : layout.Holds parent t :=
    h.has (.tree parent t) (List.mem_append_right _ List.mem_cons_self)
  exact mt (rootSlot_eq_zero_iff hholds).mp ht

theorem lendParent_of_ne_leaf (front : List Part)
    (h : layout.Consists bounds child path (front ++ .tree parent t :: parts)) (ht : t ≠ .leaf)
    (other : Nat) : (layout.lendParent t.rootSlot other).Consists bounds child path
      (front ++ .tree other t :: parts) := by
  obtain ⟨lent, -, hlent, h'⟩ := h.lendParent front other
  obtain rfl := hlent ht
  exact h'

theorem adopt (front : List Part)
    (h : layout.Consists bounds child path (front ++ .tree parent t :: parts)) (other : Nat) :
    (layout.adopt t.rootSlot other).Consists bounds child path (front ++ .tree other t :: parts) := by
  by_cases ht : t = .leaf
  · subst ht
    exact (leaf_iff front).mpr ((leaf_iff front).mp h)
  · rw [Layout.adopt, if_neg (h.rootSlot_ne_zero front ht)]
    exact h.lendParent_of_ne_leaf front ht other

theorem setParent_tree (front : List Part)
    (h : layout.Consists bounds child path (front ++ .tree parent t :: parts)) (ht : t ≠ .leaf)
    (other : Nat) : Yields (layout.setParent t.rootSlot other)
      (·.Consists bounds child path (front ++ .tree other t :: parts)) := by
  rw [Layout.setParent, if_neg (h.rootSlot_ne_zero front ht)]
  exact .ok (h.lendParent_of_ne_leaf front ht other)

theorem attach (h : layout.Consists bounds child path parts) (new : Nat) :
    Yields (layout.attach (sideAbove path) (slotAbove path) new)
      (·.Consists bounds new path parts) := by
  cases path with
  | nil =>
    have hroot : slotAbove [] = 0 := rfl
    rw [Layout.attach, if_pos hroot]
    refine .ok ⟨h.size_pos, h.size_eq, h.count_eq, h.sentinel, rfl, fun part hpart => ?_, h.nodup⟩
    exact (h.has part hpart).congr (Nat.le_refl _) fun _ _ => rfl
  | cons f path =>
    have habove : slotAbove (f :: path) ≠ 0 := h.above.1.1
    rw [Layout.attach, if_neg habove]
    refine ((cons_path_iff.mp h).setChild [] f.side new).mono fun layout h => ?_
    rw [Frame.setChild_cell] at h
    exact cons_path_iff.mpr h

theorem relink (h : layout.Consists bounds slot path parts) (hzero : slot ≠ 0)
    (hslot : slot ∉ pathSlots path) (side : Side) (new : Nat) :
    Yields (layout.relink side (slotAbove path) slot new) (·.Consists bounds new path parts) := by
  have hattach := h.attach new
  cases path with
  | nil =>
    rw [Layout.relink]
    split <;> exact hattach
  | cons f path =>
    have hcell : layout.cell (slotAbove (f :: path)) = f.cell (slotAbove path) slot := h.above.1.2.2
    rw [Layout.relink, hcell]
    by_cases hside : f.side = side
    · rw [← hside, Frame.child_cell, if_pos rfl]
      exact hattach
    · have hsibling : slot ≠ f.sibling.rootSlot := by
        rintro rfl
        apply hslot
        simp only [pathSlots, List.mem_cons, List.mem_append]
        exact Or.inr (Or.inl (Tree.rootSlot_mem_slots hzero))
      rw [← Side.flip_flip side, ← Side.eq_flip hside, Frame.child_flip_cell, if_neg hsibling,
        Side.flip_flip]
      exact hattach

/-- A turn at a node whose child on the other side is a node too: that child rises. -/
theorem rotate {side : Side} {c d : Color} {x y : Entry} {a b e : Tree}
    (h : layout.Consists bounds x.slot path
      (.tree (slotAbove path) (Frame.plug ⟨side, c, x, Frame.plug ⟨side, d, y, e⟩ b⟩ a) :: parts)) :
    Yields (layout.rotate side x.slot) (·.Consists bounds y.slot path
      (.tree (slotAbove path) (Frame.plug ⟨side, d, y, e⟩ (Frame.plug ⟨side, c, x, b⟩ a)) :: parts)) := by
  let f : Frame := ⟨side, c, x, Frame.plug ⟨side, d, y, e⟩ b⟩
  let f' : Frame := ⟨side, c, x, b⟩
  let g : Frame := ⟨side, d, y, e⟩
  have hopen : layout.Consists bounds x.slot path (.node x.slot (f.cell (slotAbove path) a.rootSlot) ::
      .tree x.slot a :: .node y.slot (g.cell x.slot b.rootSlot) :: .tree y.slot b ::
      .tree y.slot e :: parts) := (split_plug [_, _]).mp ((split_plug []).mp h)
  obtain ⟨hx, -, hcellx⟩ := hasNode [] hopen
  obtain ⟨hy, -, hcelly⟩ := hasNode [_, _] hopen
  have hrising : (layout.cell x.slot).child side.flip = y.slot := by
    rw [hcellx, f.child_flip_cell, Frame.rootSlot_plug]
  have hinner : (layout.cell y.slot).child side = b.rootSlot := by
    rw [hcelly, g.child_cell]
  have habove : (layout.cell x.slot).parent = slotAbove path := by
    rw [hcellx, f.parent_cell]
  simp only [Layout.rotate, hrising, hinner, habove, if_neg hy]
  refine (hopen.setChild [] side.flip b.rootSlot).bind fun layout₁ h₁ => ?_
  rw [f.setChild_flip_cell] at h₁
  refine ((adopt [_, _, _] h₁ x.slot).setParent [_, _] (slotAbove path)).bind fun layout₂ h₂ => ?_
  rw [g.setParent_cell] at h₂
  refine (h₂.relink hx (not_mem [] h₂).1 side y.slot).bind fun layout₃ h₃ => ?_
  refine (h₃.setChild [_, _] side x.slot).bind fun layout₄ h₄ => ?_
  rw [g.setChild_cell] at h₄
  refine (h₄.setParent [] y.slot).mono fun layout₅ h₅ => ?_
  rw [f'.setParent_cell] at h₅
  -- the node that rose comes first now, with the other one below it
  have hrisen := h₅.perm (@List.perm_middle _ _ [_, _] _)
  have hbelow := (split_plug (f := f') (t := a) [_]).mpr hrisen
  refine (split_plug (f := g) []).mpr ?_
  rw [Frame.rootSlot_plug]
  exact hbelow

end Consists

/-- The cells from the root down are the nodes of a tree, linked to their children and back to their
parents, each in a slot of its own. The tree may have any shape, keys and colours. -/
structure Carries (layout : Layout) (t : Tree) : Prop where
  root_eq : layout.root = t.rootSlot
  holds : layout.Holds 0 t
  slots_nodup : t.slots.Nodup

def At (layout : Layout) (bounds : Bounds) (c : Cursor) : Prop :=
  layout.Consists bounds c.focus.rootSlot c.path [.tree (slotAbove c.path) c.focus]

/-- The slot of a place, and a table that holds the tree around it. -/
def Reaches (bounds : Bounds) (c : Cursor) (found : Nat × Layout) : Prop :=
  found.1 = c.focus.rootSlot ∧ found.2.At bounds c

namespace At
variable {bounds : Bounds}

theorem plug_iff : layout.At bounds ⟨f.plug t, path⟩ ↔ layout.At bounds ⟨t, f :: path⟩ :=
  Consists.plug_iff

theorem rebuild_iff {above : List Frame} :
    layout.At bounds ⟨Cursor.rebuild t path, above⟩ ↔ layout.At bounds ⟨t, path ++ above⟩ :=
  Consists.rebuild_iff

theorem tree_iff {c : Cursor} : layout.At bounds ⟨c.tree, []⟩ ↔ layout.At bounds c := by
  have hpath : c.path ++ [] = c.path := List.append_nil _
  rw [Cursor.tree, rebuild_iff, hpath]

theorem turn_iff : layout.At bounds ⟨t, f :: path⟩ ↔
    layout.At bounds ⟨f.sibling, f.turn t :: path⟩ := by
  rw [← plug_iff, ← plug_iff, Frame.plug_turn]

theorem holds (h : layout.At bounds ⟨t, path⟩) : layout.Holds (slotAbove path) t :=
  h.has _ List.mem_cons_self

theorem rootSlot_ne_zero (h : layout.At bounds ⟨t, path⟩) (ht : t ≠ .leaf) : t.rootSlot ≠ 0 :=
  Consists.rootSlot_ne_zero [] h ht

theorem parent_focus (h : layout.At bounds ⟨t, path⟩) (ht : t ≠ .leaf) :
    (layout.cell t.rootSlot).parent = slotAbove path := by
  cases t with
  | leaf => exact absurd rfl ht
  | node c e l r =>
    obtain ⟨-, -, hcell, -⟩ := h.holds
    exact congrArg Cell.parent hcell

theorem color (h : layout.At bounds ⟨t, path⟩) : (layout.cell t.rootSlot).color = t.color :=
  color_rootSlot (congrArg Cell.color h.sentinel) h.holds

theorem above (h : layout.At bounds ⟨t, f :: path⟩) :
    layout.HasNode f.entry.slot (f.cell (slotAbove path) t.rootSlot) :=
  And.left (Consists.above h)

theorem sibling (h : layout.At bounds ⟨t, f :: path⟩) :
    (layout.cell f.entry.slot).child f.side.flip = f.sibling.rootSlot := by
  rw [h.above.2.2, Frame.child_flip_cell]

theorem root (h : layout.At bounds ⟨t, []⟩) : layout.root = t.rootSlot := Consists.above h

theorem top_iff : layout.At bounds ⟨t, []⟩ ↔ layout.Carries t ∧ 0 < bounds.size ∧
    layout.cells.size = bounds.size ∧ layout.count = bounds.count ∧
      layout.cell 0 = Cell.sentinel.setParent bounds.lent := by
  have hslots : pathSlots [] ++ [Part.tree 0 t].flatMap Part.slots = t.slots := List.append_nil _
  constructor
  · intro h
    exact ⟨⟨h.root, h.holds, hslots ▸ h.nodup⟩, h.size_pos, h.size_eq, h.count_eq, h.sentinel⟩
  · rintro ⟨h, hpos, hsize, hcount, hsentinel⟩
    exact ⟨hpos, hsize, hcount, hsentinel, h.root_eq, List.forall_mem_singleton.mpr h.holds,
      hslots ▸ h.slots_nodup⟩

theorem rootSlot_not_mem (h : layout.At bounds ⟨t, path⟩) : t.rootSlot ∉ pathSlots path := by
  intro hmem
  have hzero : t.rootSlot ≠ 0 := (Consists.above h).ne_zero _ hmem
  have hright : t.rootSlot ∈ [Part.tree (slotAbove path) t].flatMap Part.slots :=
    List.mem_flatMap.mpr ⟨_, List.mem_cons_self, Tree.rootSlot_mem_slots hzero⟩
  exact (List.nodup_append.mp h.nodup).2.2 _ hmem _ hright rfl

theorem rootSlot_eq_root_iff (h : layout.At bounds ⟨t, path⟩) :
    t.rootSlot = layout.root ↔ path = [] := by
  cases path with
  | nil => exact ⟨fun _ => rfl, fun _ => h.root.symm⟩
  | cons f path =>
    refine ⟨fun heq => absurd ?_ h.rootSlot_not_mem, nofun⟩
    rw [heq]
    exact (Consists.above h).root_mem

/-- Of two subtrees of a node one has a slot of its own, unless both are leaves. -/
theorem rootSlot_ne_sibling (h : layout.At bounds ⟨t, f :: path⟩)
    (hnode : t ≠ .leaf ∨ f.sibling ≠ .leaf) : t.rootSlot ≠ f.sibling.rootSlot := by
  intro heq
  have hslot : t.rootSlot ≠ 0 := by
    rcases hnode with ht | hs
    · exact h.rootSlot_ne_zero ht
    · rw [heq]
      exact (turn_iff.mp h).rootSlot_ne_zero hs
  apply h.rootSlot_not_mem
  rw [heq] at hslot ⊢
  exact List.mem_cons_of_mem _ (List.mem_append_left _ (Tree.rootSlot_mem_slots hslot))

theorem sideOf (h : layout.At bounds ⟨t, f :: path⟩) (hnode : t ≠ .leaf ∨ f.sibling ≠ .leaf) :
    layout.sideOf t.rootSlot f.entry.slot = f.side := by
  have hne := h.rootSlot_ne_sibling hnode
  have hcell := h.above.2.2
  obtain ⟨side, c, e, s⟩ := f
  rw [Layout.sideOf, hcell]
  cases side with
  | left => exact if_pos rfl
  | right => exact if_neg hne

theorem paint (h : layout.At bounds ⟨t, path⟩) (ht : t ≠ .leaf) (c : Color) :
    Yields (layout.paint t.rootSlot c) (·.At bounds ⟨t.paint c, path⟩) := by
  obtain ⟨f, a, -, rfl⟩ := Tree.exists_plug ht .left
  rw [At, Frame.rootSlot_plug] at h
  rw [Frame.rootSlot_plug, Frame.paint_plug]
  refine (((Consists.split_plug []).mp h).paint [] c).mono fun layout' h' => ?_
  rw [Frame.setColor_cell] at h'
  rw [At, Frame.rootSlot_plug]
  exact (Consists.split_plug []).mpr h'

/-- Black may be painted anywhere; the sentinel is black. -/
theorem paint_black (h : layout.At bounds ⟨t, path⟩) :
    Yields (layout.paint t.rootSlot .black) (·.At bounds ⟨t.paint .black, path⟩) := by
  cases t with
  | leaf => exact .ok (Consists.change_sentinel h rfl)
  | node c e l r => exact h.paint nofun .black

theorem paint_above (h : layout.At bounds ⟨t, f :: path⟩) (c : Color) :
    Yields (layout.paint f.entry.slot c) (·.At bounds ⟨t, { f with color := c } :: path⟩) := by
  have hpaint := (plug_iff.mpr h).paint (f.plug_ne_leaf t) c
  rw [Frame.rootSlot_plug, Frame.paint_plug] at hpaint
  exact hpaint.mono fun _ => plug_iff.mp

theorem paint_sibling (h : layout.At bounds ⟨t, f :: path⟩) (hs : f.sibling ≠ .leaf) (c : Color) :
    Yields (layout.paint f.sibling.rootSlot c)
      (·.At bounds ⟨t, { f with sibling := f.sibling.paint c } :: path⟩) := by
  refine ((turn_iff.mp h).paint hs c).mono fun layout' h' => turn_iff.mpr ?_
  exact h'

theorem setValue {c : Color} {e : Entry} {l r : Tree} (h : layout.At bounds ⟨.node c e l r, path⟩)
    (value : String) : (layout.change e.slot (·.setValue value)).At bounds
      ⟨.node c ⟨e.slot, e.key, value⟩ l r, path⟩ := by
  let f : Frame := ⟨.left, c, e, r⟩
  let f' : Frame := ⟨.left, c, ⟨e.slot, e.key, value⟩, r⟩
  have hopen := (Consists.split_plug (f := f) (t := l) []).mp h
  exact (Consists.split_plug (f := f') (t := l) []).mpr (hopen.change [] (·.setValue value))

theorem rotate {side : Side} {t' : Tree} (h : layout.At bounds ⟨t, path⟩)
    (hturn : t.rotate? side = some t') :
    Yields (layout.rotate side t.rootSlot) (·.At bounds ⟨t', path⟩) := by
  obtain ⟨c, d, x, y, a, b, e, rfl, rfl⟩ := Tree.rotate?_eq_some hturn
  rw [At, Frame.rootSlot_plug] at h
  rw [Frame.rootSlot_plug]
  refine (Consists.rotate h).mono fun layout' h' => ?_
  rwa [At, Frame.rootSlot_plug]

end At

end Layout

end TriStore.RedBlack
