import TriStore.RedBlack.Layout
import TriStore.Proofs.RedBlack.Balance
import TriStore.Proofs.RedBlack.Entries

/-!
# Tables of cells that hold a tree

`Layout.Holds` says that the cells below a slot are the nodes of a tree, each with the links to its
children and back to its parent. The layout of a tree whose slots are its own holds that tree, and
the check of a table that holds a red-black tree finds no defect.
-/

namespace TriStore.RedBlack

namespace Tree

@[simp] theorem size_node (c : Color) (e : Entry) (l r : Tree) :
    (node c e l r).size = l.size + 1 + r.size := by
  simp [size, entries]
  omega

theorem slots_node (c : Color) (e : Entry) (l r : Tree) :
    (node c e l r).slots = l.slots ++ e.slot :: r.slots := by
  simp [slots, entries]

theorem rootSlot_mem_slots {t : Tree} (h : t.rootSlot ≠ 0) : t.rootSlot ∈ t.slots := by
  cases t with
  | leaf => exact absurd rfl h
  | node c e l r =>
    rw [slots_node]
    exact List.mem_append_right _ List.mem_cons_self

theorem size_writeCells (t : Tree) (parent : Nat) (cells : Array Cell) :
    (t.writeCells parent cells).size = cells.size := by
  induction t generalizing parent cells with
  | leaf => rfl
  | node c e l r ihl ihr => simp [writeCells, ihl, ihr]

theorem getElem?_writeCells {t : Tree} {slot : Nat} (h : slot ∉ t.slots) (parent : Nat)
    (cells : Array Cell) : (t.writeCells parent cells)[slot]? = cells[slot]? := by
  induction t generalizing parent cells with
  | leaf => rfl
  | node c e l r ihl ihr =>
    simp only [slots_node, List.mem_append, List.mem_cons, not_or] at h
    obtain ⟨hl, he, hr⟩ := h
    rw [writeCells, ihr hr, ihl hl, Array.getElem?_setIfInBounds_ne (Ne.symm he)]

end Tree

namespace Layout

/-- The cells from the root of a tree down are its nodes, linked to their children and back to
their parents, in slots of the table other than the sentinel's. -/
def Holds (layout : Layout) (parent : Nat) : Tree → Prop
  | .leaf => True
  | .node c e l r =>
    e.slot ≠ 0 ∧ e.slot < layout.cells.size ∧
      layout.cell e.slot = ⟨e.record, c, parent, l.rootSlot, r.rootSlot⟩ ∧
      layout.Holds e.slot l ∧ layout.Holds e.slot r

/-- The slots that the links to children lead to, starting at the root. -/
inductive Linked (layout : Layout) : Nat → Prop where
  | root : layout.root ≠ 0 → Linked layout layout.root
  | left {slot : Nat} : Linked layout slot → (layout.cell slot).left ≠ 0 →
      Linked layout (layout.cell slot).left
  | right {slot : Nat} : Linked layout slot → (layout.cell slot).right ≠ 0 →
      Linked layout (layout.cell slot).right

theorem cell_eq_of_getElem? {layout : Layout} {slot : Nat} {cell : Cell}
    (h : layout.cells[slot]? = some cell) : layout.cell slot = cell := by
  rw [Layout.cell, Array.getD_eq_getD_getElem?, h]
  rfl

/-- A table that agrees with a written tree on its slots holds the tree. -/
theorem holds_of_agree {layout : Layout} {t : Tree} {parent : Nat} {cells : Array Cell}
    (hnodup : t.slots.Nodup) (hslots : ∀ slot ∈ t.slots, slot ≠ 0 ∧ slot < cells.size)
    (hagree : ∀ slot ∈ t.slots, layout.cells[slot]? = (t.writeCells parent cells)[slot]?) :
    layout.Holds parent t := by
  induction t generalizing parent cells with
  | leaf => trivial
  | node c e l r ihl ihr =>
    rw [Tree.slots_node] at hnodup hslots hagree
    obtain ⟨hnl, hner, hdisjoint⟩ := List.nodup_append.mp hnodup
    obtain ⟨her, hnr⟩ := List.nodup_cons.mp hner
    have hel : e.slot ∉ l.slots := fun hmem => hdisjoint _ hmem _ List.mem_cons_self rfl
    have hlr : ∀ slot ∈ l.slots, slot ∉ r.slots := fun slot hl hr =>
      hdisjoint _ hl _ (List.mem_cons_of_mem _ hr) rfl
    have hmem : e.slot ∈ l.slots ++ e.slot :: r.slots := by simp
    obtain ⟨hzero, hlt⟩ := hslots _ hmem
    have hcell := hagree _ hmem
    rw [Tree.writeCells, Tree.getElem?_writeCells her, Tree.getElem?_writeCells hel,
      Array.getElem?_setIfInBounds_self_of_lt hlt] at hcell
    refine ⟨hzero, ?_, cell_eq_of_getElem? hcell, ?_, ?_⟩
    · exact (Array.getElem?_eq_some_iff.mp hcell).1
    · have hagreel : ∀ slot ∈ l.slots, layout.cells[slot]? = (l.writeCells e.slot
          (cells.setIfInBounds e.slot ⟨e.record, c, parent, l.rootSlot, r.rootSlot⟩))[slot]? := by
        intro slot hs
        rw [hagree slot (List.mem_append_left _ hs), Tree.writeCells,
          Tree.getElem?_writeCells (hlr slot hs)]
      refine ihl hnl (fun slot hs => ?_) hagreel
      simpa using hslots slot (List.mem_append_left _ hs)
    · have hagreer : ∀ slot ∈ r.slots, layout.cells[slot]? = (r.writeCells e.slot (l.writeCells e.slot
          (cells.setIfInBounds e.slot ⟨e.record, c, parent, l.rootSlot, r.rootSlot⟩)))[slot]? :=
        fun slot hs => hagree slot (List.mem_append_right _ (List.mem_cons_of_mem _ hs))
      refine ihr hnr (fun slot hs => ?_) hagreer
      rw [Tree.size_writeCells]
      simpa using hslots slot (List.mem_append_right _ (List.mem_cons_of_mem _ hs))

theorem holds_ofTree {t : Tree} {slots : Nat} (hnodup : t.slots.Nodup)
    (hslots : ∀ slot ∈ t.slots, slot ≠ 0 ∧ slot < slots) (count : Nat) :
    (ofTree t slots count).Holds 0 t :=
  holds_of_agree hnodup (by simpa using hslots) fun _ _ => rfl

theorem cell_ofTree_zero {t : Tree} {slots : Nat} (hslots : ∀ slot ∈ t.slots, slot ≠ 0 ∧ slot < slots)
    (count : Nat) : (ofTree t slots count).cell 0 = Cell.sentinel := by
  have hzero : 0 ∉ t.slots := fun h => (hslots 0 h).1 rfl
  rw [cell, ofTree, Array.getD_eq_getD_getElem?, Tree.getElem?_writeCells hzero]
  cases slots <;> simp

theorem cell_of_mem {layout : Layout} {t : Tree} {parent : Nat} {e : Entry}
    (h : layout.Holds parent t) (he : e ∈ t.entries) :
    e.slot ≠ 0 ∧ e.slot < layout.cells.size ∧ (layout.cell e.slot).record = e.record := by
  induction t generalizing parent with
  | leaf => cases he
  | node c e₀ l r ihl ihr =>
    obtain ⟨hzero, hlt, hcell, hl, hr⟩ := h
    rcases List.mem_append.mp he with he | he
    · exact ihl hl he
    · rcases List.mem_cons.mp he with rfl | he
      · exact ⟨hzero, hlt, by rw [hcell]⟩
      · exact ihr hr he

/-- In a table that holds a tree no link leads out of the tree. -/
theorem children_mem_slots {layout : Layout} {t : Tree} {parent slot : Nat}
    (h : layout.Holds parent t) (hslot : slot ∈ t.slots) :
    ((layout.cell slot).left ≠ 0 → (layout.cell slot).left ∈ t.slots) ∧
      ((layout.cell slot).right ≠ 0 → (layout.cell slot).right ∈ t.slots) := by
  induction t generalizing parent with
  | leaf => cases hslot
  | node c e l r ihl ihr =>
    obtain ⟨-, -, hcell, hl, hr⟩ := h
    rw [Tree.slots_node] at hslot ⊢
    have hleft : ∀ s ∈ l.slots, s ∈ l.slots ++ e.slot :: r.slots := fun s hs =>
      List.mem_append_left _ hs
    have hright : ∀ s ∈ r.slots, s ∈ l.slots ++ e.slot :: r.slots := fun s hs =>
      List.mem_append_right _ (List.mem_cons_of_mem _ hs)
    rcases List.mem_append.mp hslot with hslot | hslot
    · obtain ⟨hll, hlr⟩ := ihl hl hslot
      exact ⟨fun h => hleft _ (hll h), fun h => hleft _ (hlr h)⟩
    · rcases List.mem_cons.mp hslot with rfl | hslot
      · rw [hcell]
        exact ⟨fun h => hleft _ (Tree.rootSlot_mem_slots h), fun h => hright _ (Tree.rootSlot_mem_slots h)⟩
      · obtain ⟨hrl, hrr⟩ := ihr hr hslot
        exact ⟨fun h => hright _ (hrl h), fun h => hright _ (hrr h)⟩

/-- Links lead to every node of a tree to whose root they lead. -/
theorem linked_of_mem_slots {layout : Layout} {t : Tree} {parent slot : Nat}
    (h : layout.Holds parent t) (hroot : t.rootSlot ≠ 0 → layout.Linked t.rootSlot)
    (hslot : slot ∈ t.slots) : layout.Linked slot := by
  induction t generalizing parent with
  | leaf => cases hslot
  | node c e l r ihl ihr =>
    obtain ⟨hzero, -, hcell, hl, hr⟩ := h
    have he : layout.Linked e.slot := hroot hzero
    have hleft := he.left
    have hright := he.right
    rw [hcell] at hleft hright
    rw [Tree.slots_node] at hslot
    rcases List.mem_append.mp hslot with hslot | hslot
    · exact ihl hl hleft hslot
    · rcases List.mem_cons.mp hslot with rfl | hslot
      · exact he
      · exact ihr hr hright hslot

theorem linked_iff {layout : Layout} {t : Tree} {slot : Nat} (h : layout.Holds 0 t)
    (hroot : layout.root = t.rootSlot) : layout.Linked slot ↔ slot ∈ t.slots := by
  constructor
  · intro hlinked
    induction hlinked with
    | root hzero =>
      rw [hroot] at hzero ⊢
      exact Tree.rootSlot_mem_slots hzero
    | left _ hzero ih => exact (children_mem_slots h ih).1 hzero
    | right _ hzero ih => exact (children_mem_slots h ih).2 hzero
  · refine linked_of_mem_slots h fun hzero => ?_
    rw [← hroot] at hzero ⊢
    exact .root hzero

theorem color_rootSlot {layout : Layout} {t : Tree} {parent : Nat}
    (hsentinel : (layout.cell 0).color = .black) (h : layout.Holds parent t) :
    (layout.cell t.rootSlot).color = t.color := by
  cases t with
  | leaf => exact hsentinel
  | node c e l r =>
    obtain ⟨_, _, hcell, _⟩ := h
    rw [Tree.rootSlot, hcell]
    rfl

theorem check_eq_ok {layout : Layout} {t : Tree} {n depth parent : Nat} {lower upper : Option String}
    (hsentinel : (layout.cell 0).color = .black) (hdepth : t.size ≤ depth)
    (hholds : layout.Holds parent t) (hbalanced : t.Balanced n) (hordered : t.Ordered)
    (hlower : ∀ e ∈ t.entries, lower.all (· < e.key) = true)
    (hupper : ∀ e ∈ t.entries, upper.all (e.key < ·) = true) :
    layout.check depth t.rootSlot parent lower upper = .ok (t.size, n + 1) := by
  induction t generalizing n depth parent lower upper with
  | leaf =>
    cases hbalanced
    rw [check]
    rfl
  | node c e l r ihl ihr =>
    obtain ⟨hzero, _, hcell, hl, hr⟩ := hholds
    rw [Tree.size_node] at hdepth
    obtain ⟨depth, rfl⟩ : ∃ d, depth = d + 1 := ⟨depth - 1, by omega⟩
    obtain ⟨ol, or, hle, her⟩ := Tree.ordered_node.mp hordered
    have hmem : e ∈ (Tree.node c e l r).entries := by simp [Tree.entries]
    have hleft : ∀ x ∈ l.entries, x ∈ (Tree.node c e l r).entries := fun x hx =>
      List.mem_append_left _ hx
    have hright : ∀ x ∈ r.entries, x ∈ (Tree.node c e l r).entries := fun x hx =>
      List.mem_append_right _ (List.mem_cons_of_mem _ hx)
    have hbounds : (lower.all (· < e.key) && upper.all (e.key < ·)) = true := by
      rw [hlower e hmem, hupper e hmem]
      rfl
    have checkl {m : Nat} (bl : l.Balanced m) :
        layout.check depth l.rootSlot e.slot lower (some e.key) = .ok (l.size, m + 1) :=
      ihl (by omega) hl bl ol (fun x hx => hlower x (hleft x hx)) fun x hx =>
        decide_eq_true (hle x hx)
    have checkr {m : Nat} (br : r.Balanced m) :
        layout.check depth r.rootSlot e.slot (some e.key) upper = .ok (r.size, m + 1) :=
      ihr (by omega) hr br or (fun x hx => decide_eq_true (her x hx)) fun x hx =>
        hupper x (hright x hx)
    rw [check, Tree.rootSlot, if_neg hzero, hcell, Tree.size_node, Nat.add_right_comm]
    simp only [hbounds, color_rootSlot hsentinel hl, color_rootSlot hsentinel hr]
    cases hbalanced with
    | red hcl hcr bl br => simp [checkl bl, checkr br, hcl, hcr, bind, Except.bind]
    | black bl br => simp [checkl bl, checkr br, bind, Except.bind]

/-- A table that holds a red-black tree and counts its nodes has no defect. -/
theorem validate_eq_ok {layout : Layout} {t : Tree} {n : Nat} (hroot : layout.root = t.rootSlot)
    (hcount : layout.count = t.size) (hsize : t.size ≤ layout.cells.size)
    (hsentinel : (layout.cell 0).color = .black) (hholds : layout.Holds 0 t)
    (hblack : t.color = .black) (hbalanced : t.Balanced n) (hordered : t.Ordered) :
    layout.validate = .ok (n + 1) := by
  have hcheck : layout.check layout.cells.size t.rootSlot 0 none none = .ok (t.size, n + 1) :=
    check_eq_ok hsentinel hsize hholds hbalanced hordered (fun _ _ => rfl) (fun _ _ => rfl)
  have hrootColor : (layout.cell layout.root).color = .black := by
    rw [hroot, color_rootSlot hsentinel hholds, hblack]
  rw [hroot] at hrootColor
  simp [validate, hroot, hrootColor, hsentinel, hcheck, hcount, bind, Except.bind]

end Layout

end TriStore.RedBlack
