import TriStore.Proofs.RedBlack.Relink
import TriStore.Proofs.RedBlack.Rounds

/-!
# Insertion by relinking

What a round of repair does to a tree, the round in the table does to the cells of the tree. A round
that is done on the tree is possible, so in the table it finds a grandparent, and nodes that can rise.
-/

namespace TriStore.RedBlack.Layout
variable {layout : Layout} {bounds : Bounds} {c c' : Cursor} {focus : Tree} {parent grand : Frame}
  {path : List Frame} {rounds : Nat}

namespace At

theorem straighten (h : layout.At bounds ⟨focus, parent :: grand :: path⟩) (hfocus : focus ≠ .leaf)
    (hstep : Insertion.straighten? ⟨focus, parent :: grand :: path⟩ = some c') :
    Yields (layout.straighten grand.side focus.rootSlot) (Reaches bounds c') ∧
      c'.focus ≠ .leaf ∧ ∃ parent', parent'.side = grand.side ∧ c'.path = parent' :: grand :: path := by
  have hp : (layout.cell focus.rootSlot).parent = parent.entry.slot := h.parent_focus hfocus
  rw [Insertion.straighten?] at hstep
  rw [Layout.straighten, hp]
  by_cases hside : parent.side = grand.side
  · rw [if_pos hside] at hstep
    cases hstep
    have hline : focus.rootSlot ≠ (layout.cell parent.entry.slot).child grand.side.flip := by
      rw [← hside, h.sibling]
      exact h.rootSlot_ne_sibling (Or.inl hfocus)
    rw [if_neg hline]
    exact ⟨.ok ⟨rfl, h⟩, hfocus, parent, hside, rfl⟩
  · rw [if_neg hside] at hstep
    obtain ⟨_, hcursor, hdown⟩ := Option.bind_eq_some_iff.mp hstep
    obtain ⟨t', hturn, rfl⟩ := Option.map_eq_some_iff.mp hcursor
    have hinner : focus.rootSlot = (layout.cell parent.entry.slot).child grand.side.flip := by
      rw [h.above.2.2, ← Side.eq_flip hside, Frame.child_cell]
    rw [if_pos hinner]
    have hrotate := (plug_iff.mpr h).rotate hturn
    obtain ⟨d, e, x, y, a, b, s, hplug, rfl⟩ := Tree.rotate?_eq_some hturn
    have hx : parent.entry.slot = x.slot := by
      have hroot := congrArg Tree.rootSlot hplug
      rwa [Frame.rootSlot_plug, Frame.rootSlot_plug] at hroot
    rw [Frame.rootSlot_plug] at hrotate
    rw [Cursor.down?_plug ⟨grand.side, e, y, s⟩] at hdown
    cases hdown
    refine ⟨hrotate.bind fun layout' h' => .ok ⟨?_, plug_iff.mp h'⟩, Frame.plug_ne_leaf _ _,
      ⟨grand.side, e, y, s⟩, rfl, rfl⟩
    rw [Frame.rootSlot_plug]
    exact hx

theorem focus_raiseParent (hside : parent.side = grand.side)
    (hstep : Insertion.raiseParent? ⟨focus, parent :: grand :: path⟩ = some c') :
    c'.focus = focus := by
  rw [Insertion.raiseParent_eq hside] at hstep
  cases hstep
  rfl

theorem raiseParent (h : layout.At bounds ⟨focus, parent :: grand :: path⟩) (hfocus : focus ≠ .leaf)
    (hside : parent.side = grand.side)
    (hstep : Insertion.raiseParent? ⟨focus, parent :: grand :: path⟩ = some c') :
    Yields (layout.raiseParent grand.side focus.rootSlot) (·.At bounds c') := by
  rw [Insertion.raiseParent_eq hside] at hstep
  cases hstep
  have hp : (layout.cell focus.rootSlot).parent = parent.entry.slot := h.parent_focus hfocus
  have hg : (layout.cell parent.entry.slot).parent = grand.entry.slot := by
    rw [h.above.2.2, Frame.parent_cell]
    rfl
  have hturn : Tree.rotate? grand.side.flip ({ grand with color := .red }.plug
      ({ parent with color := .black }.plug focus)) =
      some ({ parent with
        color := .black
        sibling := { grand with color := .red }.plug parent.sibling }.plug focus) := by
    obtain ⟨side, c, e, s⟩ := parent
    obtain ⟨side', c', e', s'⟩ := grand
    obtain rfl : side = side' := hside
    cases side <;> rfl
  rw [Layout.raiseParent, hp, hg]
  refine (h.paint_above .black).bind fun layout₁ h₁ => ?_
  refine ((plug_iff.mpr h₁).paint_above .red).bind fun layout₂ h₂ => ?_
  have hrotate := (plug_iff.mpr h₂).rotate hturn
  rw [Frame.rootSlot_plug] at hrotate
  exact hrotate.mono fun _ => plug_iff.mp

/-- The round in the table does what the round on the tree does. -/
theorem insertionRound (h : layout.At bounds c) (hfocus : c.focus ≠ .leaf)
    (hround : Insertion.round? c = some c') :
    Yields (layout.insertionRound c.focus.rootSlot) (Reaches bounds c') ∧ c'.focus ≠ .leaf := by
  obtain ⟨focus, path⟩ := c
  match path, hround with
  | parent :: grand :: path, hround =>
    have hp : (layout.cell focus.rootSlot).parent = parent.entry.slot := h.parent_focus hfocus
    have hg : (layout.cell parent.entry.slot).parent = grand.entry.slot := by
      rw [h.above.2.2, Frame.parent_cell]
      rfl
    have hgrand := plug_iff.mpr h
    have hside : layout.sideOf parent.entry.slot grand.entry.slot = grand.side := by
      rw [← Frame.rootSlot_plug parent focus]
      exact hgrand.sideOf (Or.inl (parent.plug_ne_leaf focus))
    have hcolor : (layout.cell grand.sibling.rootSlot).color = grand.sibling.color :=
      (turn_iff.mp hgrand).color
    simp only [Layout.insertionRound, hp, hg, hside, hgrand.sibling, if_neg hgrand.above.1, hcolor]
    rw [Insertion.round?] at hround
    by_cases huncle : grand.sibling.color = .red
    · rw [if_pos huncle] at hround
      cases hround
      have hleaf : grand.sibling ≠ .leaf := by
        rintro hleaf
        rw [hleaf] at huncle
        cases huncle
      rw [if_pos huncle]
      refine ⟨?_, Frame.plug_ne_leaf _ _⟩
      refine (h.paint_above .black).bind fun layout₁ h₁ => ?_
      refine ((plug_iff.mpr h₁).paint_sibling hleaf .black).bind fun layout₂ h₂ => ?_
      refine (h₂.paint_above .red).bind fun layout₃ h₃ => .ok ⟨?_, plug_iff.mpr h₃⟩
      rw [Frame.rootSlot_plug]
    · rw [if_neg huncle] at hround
      rw [if_neg huncle]
      obtain ⟨⟨focus₁, _⟩, hline, hraise⟩ := Option.bind_eq_some_iff.mp hround
      obtain ⟨hstraighten, hfocus₁, parent₁, hside₁, rfl⟩ := h.straighten hfocus hline
      have hsame := focus_raiseParent hside₁ hraise
      rw [hsame]
      refine ⟨hstraighten.bind ?_, hfocus₁⟩
      rintro ⟨z, layout₁⟩ ⟨rfl, h₁⟩
      refine (h₁.raiseParent hfocus₁ hside₁ hraise).bind fun layout₂ h₂ => .ok ⟨?_, h₂⟩
      exact congrArg Tree.rootSlot hsame.symm

/-- The test of the loop: the sentinel, above the root, is black. -/
theorem parent_red_iff (h : layout.At bounds c) (hfocus : c.focus ≠ .leaf) :
    (layout.cell (layout.cell c.focus.rootSlot).parent).color = .red ↔
      Insertion.redParent c = true := by
  rw [h.parent_focus hfocus]
  obtain ⟨focus, path⟩ := c
  cases path with
  | nil =>
    have hblack : (layout.cell (slotAbove [])).color = .black := congrArg Cell.color h.sentinel
    simp [hblack, Insertion.redParent]
  | cons f path =>
    have hcell : layout.cell (slotAbove (f :: path)) = f.cell (slotAbove path) focus.rootSlot :=
      h.above.2.2
    rw [hcell, Frame.color_cell, Insertion.redParent, beq_iff_eq]

theorem paint_root (h : layout.At bounds c) (hfocus : c.focus ≠ .leaf) :
    Yields (layout.paint layout.root .black) (·.At bounds ⟨c.tree.paint .black, []⟩) := by
  have htree := tree_iff.mpr h
  rw [htree.root]
  exact htree.paint (fun hleaf => hfocus (Cursor.rebuild_eq_leaf hleaf).2) .black

/-- The repair in the table does the rounds of the repair on the tree. -/
theorem repairInsertion {n : Nat} {last : Cursor} (h : layout.At bounds c) (hfocus : c.focus ≠ .leaf)
    (hrounds : Rounds Insertion.redParent Insertion.round? n c last) (hn : n ≤ rounds) :
    Yields (layout.repairInsertion rounds c.focus.rootSlot)
      (·.At bounds ⟨last.tree.paint .black, []⟩) := by
  induction hrounds generalizing layout rounds with
  | stop hend =>
    rw [Layout.repairInsertion.eq_def, if_neg (mt (h.parent_red_iff hfocus).mp (by simp [hend]))]
    exact h.paint_root hfocus
  | next hparent hround _ ih =>
    obtain ⟨rounds, rfl⟩ := Nat.exists_eq_add_of_lt hn
    obtain ⟨hyields, hfocus'⟩ := h.insertionRound hfocus hround
    rw [Layout.repairInsertion.eq_def, if_pos ((h.parent_red_iff hfocus).mpr hparent)]
    refine hyields.bind ?_
    rintro ⟨z, layout'⟩ ⟨rfl, h'⟩
    exact ih h' hfocus' (Nat.le_add_right _ _)

end At

/-- The walk in the table comes to the place at which the descent in the tree ends. -/
theorem locate_eq {above steps : Nat} {t : Tree} {key : String} {path place : List Frame}
    (h : layout.Holds above t) (hsteps : t.height ≤ steps)
    (hdescend : Cursor.descend key t path = ⟨focus, place⟩) :
    layout.locate key steps (slotAbove path) (sideAbove path) t.rootSlot =
      some (focus.rootSlot, slotAbove place, sideAbove place) := by
  induction t generalizing above steps path with
  | leaf =>
    cases hdescend
    rw [locate.eq_def]
    exact if_pos rfl
  | node c e l r ihl ihr =>
    obtain ⟨hzero, -, hcell, hl, hr⟩ := h
    rw [Tree.height] at hsteps
    obtain ⟨steps, rfl⟩ : ∃ n, steps = n + 1 := ⟨steps - 1, by omega⟩
    rw [Cursor.descend] at hdescend
    rw [Tree.rootSlot, locate.eq_def, if_neg hzero, hcell]
    dsimp only
    split
    · next hless =>
      rw [if_pos hless] at hdescend
      exact ihl hl (by omega) hdescend
    · next hless =>
      rw [if_neg hless] at hdescend
      split
      · next hgreater =>
        rw [if_pos hgreater] at hdescend
        exact ihr hr (by omega) hdescend
      · next hgreater =>
        rw [if_neg hgreater] at hdescend
        cases hdescend
        rfl

section Write
variable {cell : Cell} {slot : Nat}

theorem cell_write_of_ne {other : Nat} (h : other ≠ slot) (hslot : slot ≤ layout.cells.size) :
    (layout.write slot cell).cell other = layout.cell other := by
  rw [Layout.cell, Layout.cell, write, Array.getD_eq_getD_getElem?, Array.getD_eq_getD_getElem?]
  split
  · rw [Array.getElem?_setIfInBounds_ne h.symm]
  · next hlt =>
    have hlast : other ≠ layout.cells.size := by omega
    rw [Array.getElem?_push, if_neg hlast]

theorem cell_write_self (hslot : slot ≤ layout.cells.size) :
    (layout.write slot cell).cell slot = cell := by
  apply cell_eq_of_getElem?
  rw [write]
  split
  · next hlt => exact Array.getElem?_setIfInBounds_self_of_lt hlt
  · next hlt =>
    have hlast : slot = layout.cells.size := by omega
    subst hlast
    exact Array.getElem?_push_size

theorem size_write (hslot : slot ≤ layout.cells.size) :
    (layout.write slot cell).cells.size = max layout.cells.size (slot + 1) := by
  rw [write]
  split
  · rw [Array.size_setIfInBounds]
    omega
  · rw [Array.size_push]
    omega

/-- A cell written into a slot that no part has is one more part. -/
theorem Consists.write {child : Nat} {parts : List Part}
    (h : layout.Consists bounds child path parts) (hzero : slot ≠ 0) (hslot : slot ≤ bounds.size)
    (hfresh : slot ∉ pathSlots path ++ parts.flatMap Part.slots) (cell : Cell) :
    (layout.write slot cell).Consists { bounds with size := max bounds.size (slot + 1) } child path
      (.node slot cell :: parts) := by
  rw [← h.size_eq] at hslot
  have hsize : (layout.write slot cell).cells.size = max layout.cells.size (slot + 1) :=
    size_write hslot
  have hle : layout.cells.size ≤ (layout.write slot cell).cells.size := by omega
  simp only [List.mem_append, not_or] at hfresh
  have hother {slots : List Nat} (hslots : slot ∉ slots) :
      ∀ other ∈ slots, (layout.write slot cell).cell other = layout.cell other := fun other hmem =>
    cell_write_of_ne (fun heq => hslots (heq ▸ hmem)) hslot
  refine ⟨Nat.lt_of_lt_of_le h.size_pos (Nat.le_max_left _ _), ?_, h.count_eq, ?_, ?_, ?_, ?_⟩
  · rw [hsize, h.size_eq]
  · rw [cell_write_of_ne hzero.symm hslot]
    exact h.sentinel
  · exact h.above.congr rfl hle (hother hfresh.1)
  · refine List.forall_mem_cons.mpr ⟨⟨hzero, by omega, cell_write_self hslot⟩, fun part hpart => ?_⟩
    refine (h.has part hpart).congr hle (hother fun hmem => hfresh.2 ?_)
    exact List.mem_flatMap.mpr ⟨part, hpart, hmem⟩
  · rw [List.flatMap_cons]
    refine List.perm_middle.nodup_iff.mpr (List.nodup_cons.mpr ⟨?_, h.nodup⟩)
    simpa using hfresh

end Write

theorem At.insert {slot n : Nat} {record : Record} {t : Tree}
    (h : layout.At bounds ⟨t, []⟩) (hsize : t.size ≤ bounds.size)
    (hplace : t.seek record.key = ⟨.leaf, path⟩) (hfits : Fits n .leaf path) (hzero : slot ≠ 0)
    (hslot : slot ≤ bounds.size) (hfresh : slot ∉ t.slots) (hrounds : path.length ≤ rounds) :
    Yields (layout.insert rounds slot record) (·.At
      { bounds with size := max bounds.size (slot + 1), count := bounds.count + 1 }
      ⟨Insertion.insertAt ⟨slot, record⟩ path, []⟩) := by
  have htree : Cursor.rebuild .leaf path = t := Tree.rebuild_of_seek hplace
  have hlocate : layout.locate record.key layout.cells.size 0 .left layout.root =
      some (0, slotAbove path, sideAbove path) := by
    have hheight : t.height ≤ layout.cells.size := by
      rw [h.size_eq]
      exact Nat.le_trans (Tree.height_le_size t) hsize
    rw [h.root]
    exact locate_eq h.holds hheight hplace
  have hleaf : layout.At bounds ⟨.leaf, path⟩ := by
    rw [← htree] at h
    exact At.tree_iff.mp h
  have hpath : slot ∉ pathSlots path ++ [Part.tree (slotAbove path) .leaf].flatMap Part.slots := by
    rw [← htree, (slots_rebuild_perm .leaf path).mem_iff] at hfresh
    exact hfresh
  let f : Frame := ⟨.left, .red, ⟨slot, record⟩, .leaf⟩
  have hred : Insertion.RedFocus n ⟨f.plug .leaf, path⟩ :=
    ⟨rfl, .red rfl rfl hfits.balanced hfits.balanced, hfits.supports⟩
  have hwritten := hleaf.write hzero hslot hpath (f.cell (slotAbove path) 0)
  rw [Layout.insert, hlocate]
  simp only [if_true]
  refine (hwritten.attach slot).bind fun layout₁ h₁ => ?_
  have hnode : layout₁.At { bounds with size := max bounds.size (slot + 1) } ⟨f.plug .leaf, path⟩ := by
    refine (Consists.split_plug (f := f) (t := .leaf) []).mpr ?_
    exact (Consists.leaf_iff [_]).mpr ((Consists.leaf_iff [_]).mpr ((Consists.leaf_iff [_]).mp h₁))
  obtain ⟨k, hk, hrepair⟩ := Insertion.rounds_repair hred (Or.inl (Nat.le_refl _))
  have hgranted : k ≤ rounds := Nat.le_trans hk hrounds
  refine (hnode.repairInsertion nofun hrepair hgranted).bind fun layout₂ h₂ => .ok ?_
  rw [h₂.count_eq]
  exact Consists.setCount h₂ (bounds.count + 1)

end TriStore.RedBlack.Layout
