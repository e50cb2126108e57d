import TriStore.Proofs.RedBlack.RelinkDeletion

/-!
# Taking a node off

A node with a leaf below it gives its place to its other subtree. A node with two subtrees gives it to
the next node in order, which is first taken from its own place and put above the right subtree.
Either way a place is left that lost a node, and the repair goes on from there.
-/

namespace TriStore.RedBlack.Layout
variable {layout : Layout} {bounds : Bounds} {path : List Frame} {parts : List Part} {slot new : Nat}

/-- Another slot takes the place of a node and is about to get its parent. -/
theorem Consists.transplant {cell : Cell} {post : Layout → Prop}
    (h : layout.Consists bounds slot path (.node slot cell :: parts))
    (hparent : cell.parent = slotAbove path)
    (hpost : ∀ layout' : Layout, layout'.Consists bounds new path (.node slot cell :: parts) →
      post (layout'.lendParent new (slotAbove path))) : Yields (layout.transplant slot new) post := by
  have habove : (layout.cell slot).parent = slotAbove path := by
    rw [(hasNode [] h).2.2, hparent]
  rw [Layout.transplant, habove]
  refine (h.relink (hasNode [] h).1 (not_mem [] h).1 .left new).bind fun layout' h' => ?_
  exact .ok (hpost layout' h')

/-- A subtree takes the place of a node, and a leaf borrows the link of the sentinel. -/
theorem Consists.transplant_tree {cell : Cell} {parent : Nat} {t : Tree}
    (h : layout.Consists bounds slot path (.node slot cell :: .tree parent t :: parts))
    (hparent : cell.parent = slotAbove path) :
    Yields (layout.transplant slot t.rootSlot) fun layout' =>
      ∃ lent, (t = .leaf → lent = slotAbove path) ∧ layout'.Consists { bounds with lent } t.rootSlot path
        (.node slot cell :: .tree (slotAbove path) t :: parts) := by
  refine transplant h hparent fun layout₁ h₁ => ?_
  obtain ⟨lent, hlent, -, h₂⟩ := lendParent [_] h₁ (slotAbove path)
  exact ⟨lent, hlent, h₂⟩

theorem Consists.transplant_node {cell other : Cell} (front : List Part)
    (h : layout.Consists bounds slot path (.node slot cell :: (front ++ .node new other :: parts)))
    (hparent : cell.parent = slotAbove path) :
    Yields (layout.transplant slot new) (·.Consists bounds new path
      (.node slot cell :: (front ++ .node new (other.setParent (slotAbove path)) :: parts))) := by
  refine transplant h hparent fun layout₁ h₁ => ?_
  exact change (.node slot cell :: front) h₁ _

theorem At.transplant {f : Frame} (h : layout.At bounds ⟨f.plug .leaf, path⟩) :
    Yields (layout.transplant f.entry.slot f.sibling.rootSlot)
      fun layout' => ∃ lent, layout'.Lent { bounds with lent } ⟨f.sibling, path⟩ := by
  rw [At, Frame.rootSlot_plug] at h
  have hopen := (Consists.leaf_iff [_]).mp ((Consists.split_plug []).mp h)
  refine (Consists.transplant_tree hopen f.parent_cell).mono ?_
  rintro layout' ⟨lent, hlent, h'⟩
  exact ⟨lent, h'.tail, hlent⟩

section Inner
variable {c c' : Color} {e next : Entry} {l r' : Tree} {between : List Frame}

/-- The next node leaves its place and stands above the right subtree, outside of the tree. -/
theorem At.detachNext (h : layout.At bounds
      ⟨.node c' next .leaf r', between ++ ⟨.right, c, e, l⟩ :: path⟩) :
    Yields (layout.detachNext e.slot next.slot) fun layout' => ∃ lent above below,
      (r' = .leaf → lent = slotAbove (between ++ ⟨.right, c, next, l⟩ :: path)) ∧
      layout'.Consists { bounds with lent } e.slot path
        [.node e.slot (Frame.cell ⟨.right, c, e, l⟩ (slotAbove path) below), .tree e.slot l,
          .node next.slot (Frame.cell ⟨.right, c', next, .leaf⟩ above
            (Cursor.rebuild r' between).rootSlot),
          .tree next.slot (Cursor.rebuild r' between)] := by
  let z : Frame := ⟨.right, c, e, l⟩
  let y : Frame := ⟨.right, c', next, .leaf⟩
  have hnode : layout.HasNode next.slot (y.cell (slotAbove (between ++ z :: path)) r'.rootSlot) :=
    (At.plug_iff.mp (show layout.At bounds ⟨y.plug r', between ++ z :: path⟩ from h)).above
  have hright : (layout.cell next.slot).right = r'.rootSlot := congrArg Cell.right hnode.2.2
  have hparent : (layout.cell next.slot).parent = slotAbove (between ++ z :: path) :=
    congrArg Cell.parent hnode.2.2
  have hopen : layout.Consists bounds next.slot (between ++ z :: path)
      [.node next.slot (y.cell (slotAbove (between ++ z :: path)) r'.rootSlot), .tree next.slot r'] := by
    have hparts := (Consists.split_plug (f := y) []).mp h
    exact (Consists.leaf_iff [_, _]).mp hparts
  rw [Layout.detachNext, hright, hparent]
  cases between with
  | nil =>
    rw [if_pos (show slotAbove ([] ++ z :: path) = e.slot from rfl)]
    obtain ⟨lent, hlent, -, h₁⟩ := Consists.lendParent [_] hopen next.slot
    have h₂ := Consists.cons_path_iff.mp h₁
    exact .ok ⟨lent, e.slot, next.slot, hlent, h₂⟩
  | cons g between =>
    have hne : slotAbove (g :: between ++ z :: path) ≠ e.slot := by
      have hfresh := (List.nodup_cons.mp (List.nodup_append.mp hopen.nodup).1).1
      rw [List.append_eq, pathSlots_append] at hfresh
      intro heq
      apply hfresh
      rw [show g.entry.slot = e.slot from heq]
      exact List.mem_append_right _ (List.mem_append_right _ List.mem_cons_self)
    rw [if_neg hne]
    refine (Consists.transplant_tree hopen y.parent_cell).bind ?_
    rintro layout₁ ⟨lent, hlent, h₁⟩
    have h₂ := Consists.cons_path_iff.mp (Consists.rebuild_iff.mpr (h₁.perm (.swap _ _ _)))
    have hz : (layout₁.cell e.slot).right = (Cursor.rebuild r' (g :: between)).rootSlot :=
      congrArg Cell.right (Consists.hasNode [] h₂).2.2
    rw [hz]
    refine (h₂.setChild [_, _, _] .right _).bind fun layout₂ h₃ => ?_
    rw [y.setChild_cell] at h₃
    have hnode : Cursor.rebuild r' (g :: between) ≠ .leaf := fun hleaf =>
      absurd (Cursor.rebuild_eq_leaf hleaf).1 nofun
    refine (Consists.setParent_tree [_, _] h₃ hnode next.slot).mono fun layout₃ h₄ => ?_
    exact ⟨lent, _, _, hlent, h₄.perm (((List.Perm.swap _ _ _).cons _).cons _)⟩

/-- The next node takes the place and the colour of the node that is taken off. -/
theorem At.unlinkInner (hl : l ≠ .leaf) (h : layout.At bounds
      ⟨.node c' next .leaf r', between ++ ⟨.right, c, e, l⟩ :: path⟩) :
    Yields (layout.unlinkInner e.slot next.slot) fun layout' => ∃ lent,
      layout'.Lent { bounds with lent } ⟨r', between ++ ⟨.right, c, next, l⟩ :: path⟩ := by
  let z : Frame := ⟨.right, c, e, l⟩
  let y : Frame := ⟨.right, c', next, .leaf⟩
  rw [Layout.unlinkInner]
  refine h.detachNext.bind ?_
  rintro layout₁ ⟨lent, above, below, hlent, h₁⟩
  refine (Consists.transplant_node [_] h₁ z.parent_cell).bind fun layout₂ h₂ => ?_
  rw [y.setParent_cell] at h₂
  have hz := (Consists.hasNode [] h₂).2.2
  have hleft : (layout₂.cell e.slot).left = l.rootSlot := congrArg Cell.left hz
  rw [hleft]
  refine (Consists.setChild [_, _] h₂ .left l.rootSlot).bind fun layout₃ h₃ => ?_
  rw [show Side.left = y.side.flip from rfl, y.setChild_flip_cell] at h₃
  refine (Consists.setParent_tree [_] h₃ hl next.slot).bind fun layout₄ h₄ => ?_
  have hcolor : (layout₄.cell e.slot).color = c :=
    congrArg Cell.color (Consists.hasNode [] h₄).2.2
  rw [hcolor]
  refine (Consists.paint [_, _] h₄ c).mono fun layout₅ h₅ => ⟨lent, ⟨?_, hlent⟩⟩
  rw [Frame.setColor_cell] at h₅
  have hparts := (Consists.tail h₅).perm (@List.perm_append_comm _ [_] _)
  have htree := (Consists.split_plug (f := ⟨.right, c, next, l⟩) []).mpr hparts
  exact At.rebuild_iff.mp (Consists.plug_iff.mp htree)

end Inner

/-- Taking a node off leaves the place that the tree loses a node at. -/
theorem At.unlink {c : Color} {e : Entry} {l r : Tree} (h : layout.At bounds ⟨.node c e l r, path⟩)
    (hsize : r.height ≤ bounds.size) :
    Yields (layout.unlink e.slot) fun found =>
      found.1 = (Deletion.detach c l r path).1.focus.rootSlot ∧
      found.2.1 = (Deletion.detach c l r path).2 ∧
      ∃ lent, found.2.2.Lent { bounds with lent } (Deletion.detach c l r path).1 := by
  obtain ⟨-, -, hcell, hl, hr⟩ := h.holds
  have hleaf : Tree.leaf.rootSlot = 0 := rfl
  rw [Layout.unlink, hcell]
  dsimp only
  cases l with
  | leaf =>
    rw [if_pos hleaf]
    refine (At.transplant (f := ⟨.left, c, e, r⟩) h).bind ?_
    rintro layout' ⟨lent, h'⟩
    exact .ok ⟨rfl, rfl, lent, h'⟩
  | node lc le ll lr =>
    have hleft : (Tree.node lc le ll lr).rootSlot ≠ 0 := hl.1
    rw [if_neg hleft]
    cases r with
    | leaf =>
      rw [if_pos hleaf]
      refine (At.transplant (f := ⟨.right, c, e, .node lc le ll lr⟩) h).bind ?_
      rintro layout' ⟨lent, h'⟩
      exact .ok ⟨rfl, rfl, lent, h'⟩
    | node c₀ e₀ l₀ r₀ =>
      have hright : (Tree.node c₀ e₀ l₀ r₀).rootSlot ≠ 0 := hr.1
      have hrebuild := Deletion.rebuild_leftmost c₀ e₀ r₀ [] l₀
      have hentries := Deletion.entries_leftmost c₀ e₀ l₀ r₀
      have hminimum : layout.minimum layout.cells.size (Tree.node c₀ e₀ l₀ r₀).rootSlot =
          some (firstSlot (Tree.node c₀ e₀ l₀ r₀).entries) := minimum_eq hr (h.size_eq ▸ hsize)
      rw [if_neg hright, hminimum, hentries]
      simp only [Deletion.detach]
      generalize Deletion.leftmost c₀ e₀ r₀ [] l₀ = found at hrebuild
      obtain ⟨c', next, r', between⟩ := found
      dsimp only at hrebuild
      have hnext : layout.At bounds ⟨.node c' next .leaf r',
          between ++ ⟨.right, c, e, .node lc le ll lr⟩ :: path⟩ := by
        rw [← At.rebuild_iff, hrebuild]
        exact At.plug_iff.mp h
      obtain ⟨-, -, hnextCell, -, -⟩ := hnext.holds
      have hnode : Tree.node lc le ll lr ≠ .leaf := Frame.plug_ne_leaf ⟨.left, lc, le, lr⟩ ll
      refine (hnext.unlinkInner hnode).bind ?_
      rintro layout' ⟨lent, h'⟩
      refine .ok ⟨?_, ?_, lent, h'⟩
      · exact congrArg Cell.right hnextCell
      · exact congrArg Cell.color hnextCell

/-- The sentinel's link, whoever borrowed it, leads back to the sentinel. -/
theorem At.restore {place : Cursor} (h : layout.At bounds place) :
    (layout.lendParent 0 0).At { bounds with lent := 0 } ⟨place.tree, []⟩ :=
  At.tree_iff.mpr (Consists.change_sentinel h rfl)

theorem At.deleteNode {n rounds : Nat} {c : Color} {e : Entry} {l r : Tree}
    (h : layout.At bounds ⟨.node c e l r, path⟩) (hsize : r.height ≤ bounds.size)
    (hfits : Fits n (.node c e l r) path)
    (hrounds : (Deletion.detach c l r path).1.path.length ≤ rounds) :
    Yields (layout.deleteNode rounds e.slot)
      (·.At { bounds with lent := 0 } ⟨Deletion.eraseAt c l r path, []⟩) := by
  have hspec := (Deletion.detach_spec hfits).1
  rw [Layout.deleteNode, Deletion.eraseAt]
  refine (h.unlink hsize).bind ?_
  generalize Deletion.detach c l r path = detached at hspec hrounds
  obtain ⟨place, removed⟩ := detached
  rintro ⟨x, color, layout₁⟩ ⟨hx, hcolor, lent, h₁⟩
  obtain rfl : x = place.focus.rootSlot := hx
  obtain rfl : color = removed := hcolor
  cases color with
  | red => exact .ok h₁.at_place.restore
  | black =>
    obtain ⟨m, hdeficient⟩ := hspec
    obtain ⟨k, hk, hrepair⟩ := Deletion.rounds_repair hdeficient (Or.inl (Nat.le_refl _))
    have hgranted : k ≤ rounds := Nat.le_trans hk hrounds
    exact (h₁.repairDeletion hrepair hgranted).bind fun layout₂ h₂ => .ok h₂.restore

theorem At.remove {n rounds : Nat} {key : String} {t : Tree} {c : Color} {e : Entry} {l r : Tree}
    (h : layout.At bounds ⟨t, []⟩) (hsize : t.size ≤ bounds.size)
    (hplace : t.seek key = ⟨.node c e l r, path⟩) (hfits : Fits n (.node c e l r) path)
    (hfresh : e.slot ∉ (Deletion.eraseAt c l r path).slots)
    (hrounds : (Deletion.detach c l r path).1.path.length ≤ rounds) :
    Yields (layout.remove rounds key)
      (·.At { bounds with count := bounds.count - 1, lent := 0 }
        ⟨Deletion.eraseAt c l r path, []⟩) := by
  have htree : Cursor.rebuild (.node c e l r) path = t := Tree.rebuild_of_seek hplace
  have hheight := Tree.length_add_height_le (.node c e l r) path
  have hle := Tree.height_le_size t
  rw [htree, Tree.height] at hheight
  have hnode : layout.At bounds ⟨.node c e l r, path⟩ := by
    rw [← htree] at h
    exact At.tree_iff.mp h
  have hfind : layout.find key layout.cells.size layout.root = some e.slot := by
    rw [h.root, h.size_eq, find_eq key h.holds (Nat.le_trans hle hsize),
      Tree.find?_of_seek_node hplace]
    rfl
  have hzero : e.slot ≠ 0 := hnode.holds.1
  rw [Layout.remove, hfind]
  simp only [if_neg hzero]
  refine (hnode.deleteNode (by omega) hfits hrounds).bind fun layout₁ h₁ => .ok ?_
  have h₂ := Consists.change_fresh h₁ hzero List.not_mem_nil (List.forall_mem_singleton.mpr hfresh)
    fun cell => Cell.sentinel.setColor cell.color
  have hcount : (layout₁.change e.slot fun cell => Cell.sentinel.setColor cell.color).count =
      bounds.count := h₂.count_eq
  rw [hcount]
  exact Consists.setCount h₂ (bounds.count - 1)

end TriStore.RedBlack.Layout
