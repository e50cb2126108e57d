import TriStore.Proofs.RedBlack.Relink
import TriStore.Proofs.RedBlack.Rounds

/-!
# Deletion by relinking

The place that a deletion leaves behind may be a leaf. It has borrowed the sentinel's link then, so
that the node above it can be found, and no step of a repair gives that link to anyone else. What a
round of repair does to a tree, the round in the table does to the cells of the tree; since the round
on the tree is possible, the table has a node beside the place at each step.
-/

namespace TriStore.RedBlack

namespace Tree
variable {f : Frame} {t : Tree}

theorem child_flip_plug : (f.plug t).child f.side.flip = f.sibling := by
  obtain ⟨side, c, e, s⟩ := f
  cases side <;> rfl

theorem paintChild_plug (c : Color) : (f.plug t).paintChild f.side c = f.plug (t.paint c) := by
  obtain ⟨side, d, e, s⟩ := f
  cases side <;> rfl

theorem paintChild_flip_plug (c : Color) :
    (f.plug t).paintChild f.side.flip c = { f with sibling := f.sibling.paint c }.plug t := by
  obtain ⟨side, d, e, s⟩ := f
  cases side <;> rfl

end Tree

namespace Layout
variable {layout : Layout} {bounds : Bounds} {c c' : Cursor} {focus : Tree} {parent : Frame}
  {path : List Frame} {rounds : Nat}

/-- A table that holds the tree around a place, where a leaf refers to the node above it as well. -/
structure Lent (layout : Layout) (bounds : Bounds) (c : Cursor) : Prop where
  at_place : layout.At bounds c
  lent_eq : c.focus = .leaf → bounds.lent = slotAbove c.path

namespace Lent

theorem parent_eq (h : layout.Lent bounds ⟨focus, path⟩) :
    (layout.cell focus.rootSlot).parent = slotAbove path := by
  by_cases hfocus : focus = .leaf
  · rw [← h.lent_eq hfocus]
    subst hfocus
    exact congrArg Cell.parent h.at_place.sentinel
  · exact h.at_place.parent_focus hfocus

theorem siblingOf_eq (h : layout.Lent bounds ⟨focus, parent :: path⟩) :
    layout.siblingOf parent.side focus.rootSlot = parent.sibling.rootSlot := by
  have hparent : (layout.cell focus.rootSlot).parent = parent.entry.slot := h.parent_eq
  rw [Layout.siblingOf, hparent, h.at_place.sibling]

/-- The place may be looked at with other nodes above it, as long as the one right above is the same. -/
theorem of_at {layout' : Layout} {parent' : Frame} {path' : List Frame}
    (h : layout.Lent bounds ⟨focus, parent :: path⟩)
    (hat : layout'.At bounds ⟨focus, parent' :: path'⟩)
    (hentry : parent'.entry = parent.entry) : layout'.Lent bounds ⟨focus, parent' :: path'⟩ := by
  refine ⟨hat, fun hfocus => (h.lent_eq hfocus).trans ?_⟩
  change parent.entry.slot = parent'.entry.slot
  rw [hentry]

/-- A red sibling rises above the parent. The place stays below the parent, with another sibling. -/
theorem blackenSibling (h : layout.Lent bounds ⟨focus, parent :: path⟩)
    (hstep : Deletion.blackenSibling? ⟨focus, parent :: path⟩ = some c') :
    ∃ parent' path', c' = ⟨focus, parent' :: path'⟩ ∧ parent'.side = parent.side ∧
      Yields (layout.blackenSibling parent.side focus.rootSlot)
        (·.Lent bounds ⟨focus, parent' :: path'⟩) := by
  have hparent : (layout.cell focus.rootSlot).parent = parent.entry.slot := h.parent_eq
  have hcolor := (At.turn_iff.mp h.at_place).color
  rw [Layout.blackenSibling, hparent, h.siblingOf_eq, hcolor]
  by_cases hred : parent.sibling.color = .red
  · rw [if_pos hred]
    obtain ⟨e, l, r, hsibling⟩ : ∃ e l r, parent.sibling = .node .red e l r := by
      cases hsibling : parent.sibling with
      | leaf =>
        rw [hsibling] at hred
        cases hred
      | node d e l r =>
        obtain rfl : d = .red := by rwa [hsibling] at hred
        exact ⟨e, l, r, rfl⟩
    rw [Deletion.blackenSibling_eq hsibling] at hstep
    cases hstep
    refine ⟨_, _, rfl, rfl, ?_⟩
    have hturn : Tree.rotate? parent.side
        ({ parent with color := .red, sibling := parent.sibling.paint .black }.plug focus) =
        some (Frame.plug ⟨parent.side, .black, e, parent.sibling.child parent.side.flip⟩
          ({ parent with color := .red, sibling := parent.sibling.child parent.side }.plug focus)) := by
      obtain ⟨side, d, pe, s⟩ := parent
      obtain rfl : s = .node .red e l r := hsibling
      cases side <;> rfl
    have hleaf : parent.sibling ≠ .leaf := by
      rw [hsibling]
      exact nofun
    refine (h.at_place.paint_sibling hleaf .black).bind fun layout₁ h₁ => ?_
    refine (h₁.paint_above .red).bind fun layout₂ h₂ => ?_
    have hrotate := (At.plug_iff.mpr h₂).rotate hturn
    rw [Frame.rootSlot_plug] at hrotate
    exact hrotate.mono fun layout₃ h₃ => h.of_at (At.plug_iff.mp (At.plug_iff.mp h₃)) rfl
  · rw [Deletion.blackenSibling?, if_neg hred] at hstep
    cases hstep
    rw [if_neg hred]
    exact ⟨parent, path, rfl, rfl, .ok h⟩

section Sibling
variable {g : Frame} {near : Tree} {d : Color} {e : Entry}

theorem near_iff : layout.At bounds ⟨focus, ⟨g.side, d, e, g.plug near⟩ :: path⟩ ↔
    layout.At bounds ⟨near, g :: ⟨g.side.flip, d, e, focus⟩ :: path⟩ :=
  At.turn_iff.trans At.plug_iff

/-- What is known of a place whose sibling is a node, which is seen from its near child. -/
theorem sibling_eq (h : layout.Lent bounds ⟨focus, ⟨g.side, d, e, g.plug near⟩ :: path⟩) :
    layout.siblingOf g.side focus.rootSlot = g.entry.slot ∧ g.entry.slot ≠ 0 ∧
      (layout.cell g.entry.slot).child g.side = near.rootSlot ∧
      (layout.cell g.entry.slot).child g.side.flip = g.sibling.rootSlot := by
  have hsibling := h.siblingOf_eq
  have hcell := (near_iff.mp h.at_place).above
  rw [Frame.rootSlot_plug] at hsibling
  rw [hcell.2.2, Frame.child_cell, Frame.child_flip_cell]
  exact ⟨hsibling, hcell.1, rfl, rfl⟩

theorem reddenFar {sibling : Tree}
    (h : layout.Lent bounds ⟨focus, ⟨g.side, d, e, g.plug near⟩ :: path⟩)
    (hstep : Deletion.reddenFar? g.side (g.plug near) = some sibling) :
    Yields (layout.reddenFar g.side focus.rootSlot)
      (·.Lent bounds ⟨focus, ⟨g.side, d, e, sibling⟩ :: path⟩) := by
  obtain ⟨hw, -, hnear, hfar⟩ := h.sibling_eq
  have hbeside := near_iff.mp h.at_place
  have hcolor := (At.turn_iff.mp hbeside).color
  rw [Deletion.reddenFar?, Tree.child_flip_plug, Tree.paintChild_plug, Frame.paint_plug] at hstep
  simp only [Layout.reddenFar, hw, hnear, hfar, hcolor]
  by_cases hblack : g.sibling.color = .black
  · rw [if_pos hblack] at hstep ⊢
    refine hbeside.paint_black.bind fun layout₁ h₁ => ?_
    refine (h₁.paint_above .red).bind fun layout₂ h₂ => ?_
    have hrotate := (At.plug_iff.mpr h₂).rotate hstep
    rw [Frame.rootSlot_plug] at hrotate
    refine hrotate.mono fun layout₃ h₃ => h.of_at (At.turn_iff.mpr ?_) rfl
    exact h₃
  · rw [if_neg hblack] at hstep ⊢
    cases hstep
    exact .ok h

theorem raiseSibling (h : layout.Lent bounds ⟨focus, ⟨g.side, d, e, g.plug near⟩ :: path⟩)
    (hstep : Deletion.raiseSibling? ⟨focus, ⟨g.side, d, e, g.plug near⟩ :: path⟩ = some c') :
    Yields (layout.raiseSibling g.side focus.rootSlot) (·.At bounds c') := by
  obtain ⟨_, hcursor, rfl⟩ := Option.map_eq_some_iff.mp hstep
  obtain ⟨t, hturn, rfl⟩ := Option.map_eq_some_iff.mp hcursor
  obtain ⟨hw, hzero, -, hfar⟩ := h.sibling_eq
  have hparent : (layout.cell focus.rootSlot).parent = e.slot := h.parent_eq
  have hcolor : (layout.cell e.slot).color = d := by
    rw [h.at_place.above.2.2, Frame.color_cell]
  have hpainted := Tree.paintChild_flip_plug (f := { g with color := d }) (t := near) .black
  dsimp only at hturn
  rw [Frame.paint_plug, hpainted] at hturn
  rw [Layout.raiseSibling, hparent, hw, if_neg hzero, hcolor]
  refine ((near_iff.mp h.at_place).paint_above d).bind fun layout₁ h₁ => ?_
  refine ((near_iff (g := { g with color := d }).mpr h₁).paint_above .black).bind fun layout₂ h₂ => ?_
  have hnear₂ := (near_iff (g := { g with color := d })).mp h₂
  have hfar₂ := hnear₂.sibling
  dsimp only at hfar₂
  rw [hfar₂]
  refine (At.turn_iff.mp hnear₂).paint_black.bind fun layout₃ h₃ => ?_
  let raised : Frame := { g with color := d, sibling := g.sibling.paint .black }
  have hplace₃ : layout₃.At bounds ⟨focus, ⟨g.side, .black, e, raised.plug near⟩ :: path⟩ :=
    (near_iff (g := raised)).mpr ((At.turn_iff (f := raised)).mpr h₃)
  have hrotate := (At.plug_iff.mpr hplace₃).rotate hturn
  rw [Frame.rootSlot_plug] at hrotate
  exact hrotate.mono fun layout₄ h₄ => At.tree_iff.mpr h₄

end Sibling

theorem ne_leaf_of_reddenFar {near : Side} {t t' : Tree} (ht : t ≠ .leaf)
    (h : Deletion.reddenFar? near t = some t') : t' ≠ .leaf := by
  unfold Deletion.reddenFar? at h
  split at h
  · obtain ⟨_, _, _, _, _, _, _, -, rfl⟩ := Tree.rotate?_eq_some h
    exact Frame.plug_ne_leaf _ _
  · cases h
    exact ht

theorem top_of_raiseSibling (h : Deletion.raiseSibling? c = some c') :
    c'.path = [] ∧ c'.focus ≠ .leaf := by
  obtain ⟨focus, path⟩ := c
  match path, h with
  | parent :: path, h =>
    obtain ⟨_, hcursor, rfl⟩ := Option.map_eq_some_iff.mp h
    obtain ⟨t, hturn, rfl⟩ := Option.map_eq_some_iff.mp hcursor
    obtain ⟨_, _, _, _, _, _, _, -, rfl⟩ := Tree.rotate?_eq_some hturn
    exact ⟨rfl, fun hleaf => Frame.plug_ne_leaf _ _ (Cursor.rebuild_eq_leaf hleaf).2⟩

theorem ne_leaf_of_fill (h : Deletion.fill? ⟨focus, parent :: path⟩ = some c') : c'.focus ≠ .leaf := by
  obtain ⟨side, d, e, sibling⟩ := parent
  cases sibling with
  | leaf => cases h
  | node k w l r =>
    simp only [Deletion.fill?] at h
    split at h
    · cases h
      exact Frame.plug_ne_leaf _ _
    · obtain ⟨_, -, hraise⟩ := Option.bind_eq_some_iff.mp h
      exact (top_of_raiseSibling hraise).2

theorem fill (h : layout.Lent bounds ⟨focus, parent :: path⟩)
    (hstep : Deletion.fill? ⟨focus, parent :: path⟩ = some c') :
    Yields (layout.fill parent.side focus.rootSlot) (Reaches bounds c') := by
  obtain ⟨side, d, e, sibling⟩ := parent
  cases sibling with
  | leaf => cases hstep
  | node k w l r =>
    have hsibling : layout.siblingOf side focus.rootSlot = w.slot := h.siblingOf_eq
    obtain ⟨hzero, -, hcell, hl, hr⟩ := (At.turn_iff.mp h.at_place).holds
    have hblack : (layout.cell 0).color = .black := congrArg Cell.color h.at_place.sentinel
    simp only [Layout.fill, hsibling, if_neg hzero, hcell, color_rootSlot hblack hl,
      color_rootSlot hblack hr]
    simp only [Deletion.fill?] at hstep
    have hnode : Tree.node k w l r ≠ .leaf := Frame.plug_ne_leaf ⟨.left, k, w, r⟩ l
    by_cases hchildren : l.color = .black ∧ r.color = .black
    · rw [if_pos hchildren] at hstep ⊢
      cases hstep
      refine (h.at_place.paint_sibling hnode .red).bind fun layout₁ h₁ => ?_
      refine .ok ⟨?_, At.plug_iff.mpr h₁⟩
      rw [Frame.rootSlot_plug]
      exact (h.of_at h₁ rfl).parent_eq
    · rw [if_neg hchildren] at hstep ⊢
      obtain ⟨sibling, hredden, hraise⟩ := Option.bind_eq_some_iff.mp hstep
      obtain ⟨g', near', rfl, rfl⟩ := Tree.exists_plug (ne_leaf_of_reddenFar hnode hredden) side
      have hredden' : Yields (layout.reddenFar g'.side focus.rootSlot)
          (·.Lent bounds ⟨focus, ⟨g'.side, d, e, g'.plug near'⟩ :: path⟩) := by
        obtain ⟨g, near, hside, hplug⟩ := Tree.exists_plug hnode g'.side
        rw [hplug, ← hside] at h hredden
        rw [← hside]
        exact h.reddenFar hredden
      refine hredden'.bind fun layout₁ h₁ => ?_
      refine (h₁.raiseSibling hraise).bind fun layout₂ h₂ => .ok ⟨?_, h₂⟩
      obtain ⟨t, _⟩ := c'
      obtain rfl : _ = [] := (top_of_raiseSibling hraise).1
      exact h₂.root

theorem deletionRound (h : layout.Lent bounds c) (hround : Deletion.round? c = some c') :
    Yields (layout.deletionRound c.focus.rootSlot) (Reaches bounds c') ∧ c'.focus ≠ .leaf := by
  obtain ⟨c₁, hblacken, hfill⟩ := Option.bind_eq_some_iff.mp hround
  obtain ⟨focus, path⟩ := c
  match path, hblacken with
  | parent :: path, hblacken =>
    have hsibling : parent.sibling ≠ .leaf := by
      intro hleaf
      have hred : parent.sibling.color ≠ .red := by
        rw [hleaf]
        exact nofun
      rw [Deletion.blackenSibling?, if_neg hred] at hblacken
      cases hblacken
      rw [Deletion.fill?, hleaf] at hfill
      cases hfill
    have hparent : (layout.cell focus.rootSlot).parent = parent.entry.slot := h.parent_eq
    have hside := h.at_place.sideOf (Or.inr hsibling)
    have hzero := (At.turn_iff.mp h.at_place).rootSlot_ne_zero hsibling
    obtain ⟨parent₁, path₁, rfl, hside₁, hyields⟩ := h.blackenSibling hblacken
    simp only [Layout.deletionRound, hparent, hside, h.siblingOf_eq, if_neg hzero]
    refine ⟨hyields.bind fun layout₁ h₁ => ?_, ne_leaf_of_fill hfill⟩
    rw [← hside₁]
    exact h₁.fill hfill

theorem lacks_iff (h : layout.Lent bounds c) : (c.focus.rootSlot ≠ layout.root ∧
      (layout.cell c.focus.rootSlot).color = .black) ↔ Deletion.lacksBlack c = true := by
  obtain ⟨focus, path⟩ := c
  rw [h.at_place.color, ne_eq, h.at_place.rootSlot_eq_root_iff, Deletion.lacksBlack]
  simp

theorem repairDeletion {n : Nat} {last : Cursor} (h : layout.Lent bounds c)
    (hrounds : Rounds Deletion.lacksBlack Deletion.round? n c last) (hn : n ≤ rounds) :
    Yields (layout.repairDeletion rounds c.focus.rootSlot)
      (·.At bounds ⟨last.focus.paint .black, last.path⟩) := by
  induction hrounds generalizing layout rounds with
  | stop hend =>
    rw [Layout.repairDeletion.eq_def, if_neg (mt h.lacks_iff.mp (by simp [hend]))]
    exact h.at_place.paint_black
  | next hlacks hround _ ih =>
    obtain ⟨rounds, rfl⟩ := Nat.exists_eq_add_of_lt hn
    obtain ⟨hyields, hfocus⟩ := h.deletionRound hround
    rw [Layout.repairDeletion.eq_def, if_pos (h.lacks_iff.mpr hlacks)]
    refine hyields.bind ?_
    rintro ⟨x, layout'⟩ ⟨rfl, h'⟩
    exact ih ⟨h', fun hleaf => absurd hleaf hfocus⟩ (Nat.le_add_right _ _)

end Lent

end Layout

end TriStore.RedBlack
