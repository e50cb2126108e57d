import TriStore.Proofs.RedBlack.Links

/-!
# Turning there and back

A turn sets at most six links, each in the cell of a node: those between the node that sinks, the one
that rises and the subtree that goes over from one to the other, and the link that leads to them from
above. It can be done at any node with a child to rise, whatever the shape, the keys and the colours of
the tree. The nodes keep their order, and the turn to the other side sets the same links to what they
were.
-/

namespace TriStore.RedBlack

namespace Tree

def nodes : Tree → List (Color × Entry)
  | leaf => []
  | node c e l r => l.nodes ++ (c, e) :: r.nodes

theorem nodes_rotate {side : Side} {t t' : Tree} (h : t.rotate? side = some t') :
    t'.nodes = t.nodes := by
  obtain ⟨c, d, x, y, a, b, e, rfl, rfl⟩ := rotate?_eq_some h
  cases side <;> simp [Frame.plug, nodes]

theorem nodes_rebuild_congr {t t' : Tree} (h : t'.nodes = t.nodes) (path : List Frame) :
    (Cursor.rebuild t' path).nodes = (Cursor.rebuild t path).nodes := by
  induction path generalizing t t' with
  | nil => exact h
  | cons f path ih =>
    apply ih
    obtain ⟨side, c, e, s⟩ := f
    cases side <;> simp [Frame.plug, nodes, h]

/-- A turn to the other side undoes a turn. -/
theorem rotate?_flip {side : Side} {t t' : Tree} (h : t.rotate? side = some t') :
    t'.rotate? side.flip = some t := by
  obtain ⟨c, d, x, y, a, b, e, rfl, rfl⟩ := rotate?_eq_some h
  cases side <;> rfl

end Tree

theorem Frame.rotate?_plug {f g : Frame} {b : Tree} (hf : f.sibling = g.plug b)
    (hside : g.side = f.side) (a : Tree) : (f.plug a).rotate? f.side =
      some (g.plug (Frame.plug { f with sibling := b } a)) := by
  obtain ⟨side, c, x, s⟩ := f
  obtain ⟨side', d, y, e⟩ := g
  obtain rfl : s = _ := hf
  obtain rfl : side' = side := hside
  cases side' <;> rfl

theorem Frame.child_cell_eq_iff {f : Frame} {parent child : Nat} (h : child ≠ f.sibling.rootSlot)
    (side : Side) : (f.cell parent child).child side = child ↔ side = f.side := by
  by_cases hside : side = f.side
  · rw [hside, f.child_cell]
    exact iff_of_true rfl rfl
  · rw [Side.eq_flip hside, f.child_flip_cell]
    exact iff_of_false h.symm f.side.flip_ne

def Link.OfNode : Link → Prop
  | .root => True
  | .parent slot | .child _ slot => slot ≠ 0

def linkAbove : List Frame → Link
  | [] => .root
  | f :: _ => .child f.side f.entry.slot

namespace Layout
variable {layout layout' : Layout} {side : Side} {x y inner above : Nat} {link : Link}
variable {t : Tree} {path : List Frame}

/-- The link that leads to a slot from above: one of its parent, or that to the root. -/
def linkTo (slot : Nat) (layout : Layout) : Link :=
  let above := layout.follow (.parent slot)
  if above = 0 then .root else .child (layout.sideOf slot above) above

/-- The link of a node to its parent; a leaf has none. -/
def upLink (slot parent : Nat) : List (Link × Nat) :=
  if slot = 0 then [] else [(.parent slot, parent)]

/-- The links that are set where `y` rises above `x`, which gets `inner` from it, and where they lead
then. -/
def turnLinks (side : Side) (x y inner above : Nat) (link : Link) : List (Link × Nat) :=
  (.child side.flip x, inner) :: (upLink inner x ++
    [(.parent y, above), (link, y), (.child side y, x), (.parent x, y)])

theorem forall_mem_turnLinks {P : Link × Nat → Prop} :
    (∀ l ∈ turnLinks side x y inner above link, P l) ↔
      P (.child side.flip x, inner) ∧ (inner ≠ 0 → P (.parent inner, x)) ∧ P (.parent y, above) ∧
        P (link, y) ∧ P (.child side y, x) ∧ P (.parent x, y) := by
  by_cases h : inner = 0 <;> simp [turnLinks, upLink, h]

theorem mem_turned_iff {other : Link} :
    other ∈ (turnLinks side x y inner above link).map (·.1) ↔
      other = .child side.flip x ∨ (inner ≠ 0 ∧ other = .parent inner) ∨ other = .parent y ∨
        other = link ∨ other = .child side y ∨ other = .parent x := by
  by_cases h : inner = 0 <;> simp [turnLinks, upLink, h]

def turn (side : Side) (x : Nat) (layout : Layout) : List (Link × Nat) :=
  let y := layout.follow (.child side.flip x)
  turnLinks side x y (layout.follow (.child side y)) (layout.follow (.parent x)) (layout.linkTo x)

/-- A link leads to a slot from above, and no other one of the same cell does. -/
inductive LeadsTo (layout : Layout) (slot : Nat) : Nat → Link → Prop where
  | root : layout.root = slot → LeadsTo layout slot 0 .root
  | child {above : Nat} {side : Side} : above ≠ 0 →
      (∀ other, layout.follow (.child other above) = slot ↔ other = side) →
      LeadsTo layout slot above (.child side above)

namespace LeadsTo

theorem follow_eq (h : layout.LeadsTo x above link) : layout.follow link = x := by
  cases h with
  | root hroot => exact hroot
  | child _ hside => exact (hside _).mpr rfl

theorem linkTo_eq (h : layout.LeadsTo x above link) (habove : layout.follow (.parent x) = above) :
    layout.linkTo x = link := by
  rw [linkTo, habove]
  cases h with
  | root => rfl
  | @child _ own hzero hside =>
    have hof : layout.sideOf x above = own := by
      rw [sideOf]
      split
      · next hleft => exact (hside .left).mp hleft.symm
      · next hleft =>
        have hne : own ≠ .left := fun heq => hleft ((hside .left).mpr heq.symm).symm
        exact (Side.eq_flip hne).symm
    rw [hof]
    exact if_neg hzero

theorem relink_eq (h : layout.LeadsTo x above link)
    (hsame : layout'.follow (.child side above) = layout.follow (.child side above)) (y : Nat) :
    layout'.relink side above x y = .ok (layout'.redirect link y) := by
  have hchild : (layout'.cell above).child side = layout.follow (.child side above) := hsame
  rw [relink, hchild]
  cases h with
  | root => split <;> rfl
  | @child _ own hzero hside =>
    by_cases hown : side = own
    · rw [if_pos ((hside side).mpr hown).symm, attach, if_neg hzero, hown]
      exact if_neg hzero
    · have hne : x ≠ layout.follow (.child side above) := fun heq => hown ((hside side).mp heq.symm)
      have hflip : own = side.flip := Side.eq_flip fun heq => hown heq.symm
      rw [if_neg hne, attach, if_neg hzero, ← hflip]
      exact if_neg hzero

end LeadsTo

/-- What a turn finds: `y` is to rise above `x`, which gets `inner` from it, and one link leads to `x`
from above. -/
structure Pivot (layout : Layout) (side : Side) (x y inner above : Nat) (link : Link) : Prop where
  ne_zero : x ≠ 0
  rising_ne_zero : y ≠ 0
  rising : layout.follow (.child side.flip x) = y
  goes_over : layout.follow (.child side y) = inner
  parent : layout.follow (.parent x) = above
  rising_parent : layout.follow (.parent y) = x
  inner_parent : inner ≠ 0 → layout.follow (.parent inner) = y
  leads : layout.LeadsTo x above link

theorem setChild_eq (h : x ≠ 0) (y : Nat) :
    layout.setChild side x y = .ok (layout.redirect (.child side x) y) :=
  if_neg h

theorem setParent_eq (h : x ≠ 0) (y : Nat) :
    layout.setParent x y = .ok (layout.redirect (.parent x) y) :=
  if_neg h

theorem adopt_eq (x y : Nat) : layout.adopt x y = layout.redirectAll (upLink x y) := by
  rw [adopt, upLink]
  split <;> rfl

theorem follow_child_upLink (slot parent other : Nat) :
    (layout.redirectAll (upLink slot parent)).follow (.child side other) =
      layout.follow (.child side other) := by
  rw [upLink]
  split
  · rfl
  · have hne : Link.child side other ≠ .parent slot := nofun
    exact follow_redirect_of_ne hne parent

namespace Pivot

theorem turn_eq (h : layout.Pivot side x y inner above link) :
    layout.turn side x = turnLinks side x y inner above link := by
  simp only [turn, h.rising, h.goes_over, h.parent, h.leads.linkTo_eq h.parent]

/-- A turn redirects its links one after another. -/
theorem rotate_eq (h : layout.Pivot side x y inner above link) :
    layout.rotate side x = .ok (layout.redirectAll (layout.turn side x)) := by
  have hrising : (layout.cell x).child side.flip = y := h.rising
  have hinner : (layout.cell y).child side = inner := h.goes_over
  have habove : (layout.cell x).parent = above := h.parent
  -- the link from above is looked for when three others have been set already
  have hsame : (((layout.redirect (.child side.flip x) inner).redirectAll (upLink inner x)).redirect
      (.parent y) above).follow (.child side above) = layout.follow (.child side above) := by
    have hparent : Link.child side above ≠ .parent y := nofun
    have hchild : Link.child side above ≠ .child side.flip x := fun heq =>
      side.flip_ne (Link.child.inj heq).1.symm
    rw [follow_redirect_of_ne hparent, follow_child_upLink, follow_redirect_of_ne hchild]
  simp only [rotate, hrising, hinner, habove, if_neg h.rising_ne_zero, adopt_eq,
    setChild_eq h.ne_zero, setChild_eq h.rising_ne_zero, setParent_eq h.ne_zero,
    setParent_eq h.rising_ne_zero, bind, Except.bind]
  rw [h.leads.relink_eq hsame, h.turn_eq, turnLinks, redirectAll_cons, redirectAll_append]
  rfl

theorem ofNode_turn (h : layout.Pivot side x y inner above link) :
    ∀ l ∈ layout.turn side x, l.1.OfNode := by
  have hlink : link.OfNode := by
    cases h.leads with
    | root => trivial
    | child hzero _ => exact hzero
  rw [h.turn_eq, forall_mem_turnLinks]
  exact ⟨h.ne_zero, fun hinner => hinner, h.rising_ne_zero, hlink, h.rising_ne_zero, h.ne_zero⟩

/-- The turn to the other side, at the node that rose, sets the same links to what they were. -/
theorem redirect_back (h : layout.Pivot side x y inner above link)
    (h' : layout'.Pivot side.flip y x inner above link)
    (hturned : layout' = layout.redirectAll (layout.turn side x)) :
    layout'.redirectAll (layout'.turn side.flip y) = layout := by
  rw [h'.turn_eq, hturned, h.turn_eq]
  apply redirectAll_redirectAll
  · intro other hother
    rw [mem_turned_iff] at hother ⊢
    rw [Side.flip_flip]
    grind
  · rw [forall_mem_turnLinks, Side.flip_flip]
    exact ⟨h.goes_over, h.inner_parent, h.parent, h.leads.follow_eq, h.rising, h.rising_parent⟩

end Pivot

theorem hasPath_iff : layout.root = (Cursor.rebuild t path).rootSlot ∧
      layout.Holds 0 (Cursor.rebuild t path) ↔
    layout.HasPath t.rootSlot path ∧ layout.Holds (slotAbove path) t := by
  induction path generalizing t with
  | nil => exact Iff.rfl
  | cons f path ih =>
    rw [Cursor.rebuild, ih, holds_plug, Frame.rootSlot_plug]
    constructor
    · rintro ⟨hpath, hnode, ht, hs⟩
      exact ⟨⟨hnode, hs, hpath⟩, ht⟩
    · rintro ⟨⟨hnode, hs, hpath⟩, ht⟩
      exact ⟨hpath, hnode, ht, hs⟩

theorem HasPath.leadsTo (h : layout.HasPath x path) (hx : x ≠ 0) (hnot : x ∉ pathSlots path) :
    layout.LeadsTo x (slotAbove path) (linkAbove path) := by
  cases path with
  | nil => exact .root h
  | cons f path =>
    obtain ⟨⟨hzero, -, hcell⟩, -, -⟩ := h
    have hne : x ≠ f.sibling.rootSlot := by
      rintro rfl
      exact hnot (List.mem_cons_of_mem _ (List.mem_append_left _ (Tree.rootSlot_mem_slots hx)))
    refine .child hzero fun other => ?_
    change (layout.cell f.entry.slot).child other = x ↔ other = f.side
    rw [hcell]
    exact Frame.child_cell_eq_iff hne other

namespace Carries
variable {f g : Frame} {a b : Tree}

/-- A turn at a node with a child to rise finds what it needs. -/
theorem pivot (h : layout.Carries (Cursor.rebuild (f.plug a) path)) (hf : f.sibling = g.plug b)
    (hside : g.side = f.side) :
    layout.Pivot f.side f.entry.slot g.entry.slot b.rootSlot (slotAbove path) (linkAbove path) := by
  obtain ⟨hpath, hholds⟩ := hasPath_iff.mp ⟨h.root_eq, h.holds⟩
  obtain ⟨⟨hx, -, hcellx⟩, -, hsibling⟩ := holds_plug.mp hholds
  rw [hf] at hsibling
  obtain ⟨⟨hy, -, hcelly⟩, hb, -⟩ := holds_plug.mp hsibling
  rw [Frame.rootSlot_plug] at hpath
  have hnot : f.entry.slot ∉ pathSlots path := by
    intro hmem
    have hnodup := (slots_rebuild_perm (f.plug a) path).nodup_iff.mp h.slots_nodup
    have hroot : f.entry.slot ∈ (f.plug a).slots :=
      (f.slots_plug_perm a).mem_iff.mpr List.mem_cons_self
    exact (List.nodup_append.mp hnodup).2.2 _ hmem _ hroot rfl
  refine ⟨hx, hy, ?_, ?_, ?_, ?_, fun hb' => ?_, hpath.leadsTo hx hnot⟩
  · rw [follow, hcellx, f.child_flip_cell, hf, Frame.rootSlot_plug]
  · rw [follow, hcelly, ← hside, g.child_cell]
  · rw [follow, hcellx, f.parent_cell]
  · rw [follow, hcelly, g.parent_cell]
  · cases b with
    | leaf => exact absurd rfl hb'
    | node c e l r => exact congrArg Cell.parent hb.2.2.1

/-- So does the turn back at the node that rose, above which the one that sank is to rise. -/
theorem pivot_flip (h : layout.Carries (Cursor.rebuild (g.plug (f.plug a)) path))
    (hside : g.side = f.side) : layout.Pivot f.side.flip g.entry.slot f.entry.slot
      f.sibling.rootSlot (slotAbove path) (linkAbove path) := by
  rw [← Frame.plug_turn] at h
  have hpivot := h.pivot (g := f.turn a) (f.plug_turn a).symm (congrArg Side.flip hside.symm)
  rwa [Frame.turn, hside] at hpivot

theorem linked_iff_mem (h : layout.Carries t) : layout.Linked x ↔ x ∈ t.slots :=
  linked_iff h.holds h.root_eq

theorem exists_place (h : layout.Carries t) (hx : layout.Linked x)
    (hy : layout.follow (.child side.flip x) ≠ 0) :
    ∃ (f g : Frame) (a b : Tree) (path : List Frame), t = Cursor.rebuild (f.plug a) path ∧
      f.entry.slot = x ∧ f.side = side ∧ g.side = side ∧ f.sibling = g.plug b := by
  obtain ⟨entry, hentry, rfl⟩ := List.mem_map.mp (h.linked_iff_mem.mp hx)
  obtain ⟨before, after, hsplit⟩ := List.append_of_mem hentry
  obtain ⟨c, l, r, path, hrebuild, -⟩ := Tree.exists_place [] hsplit
  have hnode : Tree.node c entry l r ≠ .leaf := nofun
  obtain ⟨f, a, hside, hplug⟩ := Tree.exists_plug hnode side
  have htree : t = Cursor.rebuild (f.plug a) path := by
    rw [← hplug, hrebuild, Cursor.rebuild]
  have hslot : f.entry.slot = entry.slot := by
    rw [← f.rootSlot_plug a, ← hplug, Tree.rootSlot]
  rw [htree] at h
  obtain ⟨-, hholds⟩ := hasPath_iff.mp ⟨h.root_eq, h.holds⟩
  obtain ⟨⟨-, -, hcell⟩, -, -⟩ := holds_plug.mp hholds
  have hsibling : f.sibling ≠ .leaf := by
    intro hleaf
    apply hy
    rw [follow, ← hslot, hcell, ← hside, f.child_flip_cell, hleaf, Tree.rootSlot]
  obtain ⟨g, b, hg, hplug'⟩ := Tree.exists_plug hsibling side
  exact ⟨f, g, a, b, path, htree, hslot, hside, hg, hplug'⟩

end Carries

/-- The table with the sentinel as it was made. No tree depends on it. -/
def withSentinel (layout : Layout) : Layout := layout.change 0 fun _ => Cell.sentinel

theorem holds_withSentinel {parent : Nat} :
    layout.withSentinel.Holds parent t ↔ layout.Holds parent t := by
  have hsize : layout.withSentinel.cells.size = layout.cells.size := size_change
  constructor
  · intro h
    exact h.congr (Nat.le_of_eq hsize) fun slot hslot => (cell_change_of_ne (h.ne_zero slot hslot)).symm
  · intro h
    exact h.congr (Nat.le_of_eq hsize.symm) fun slot hslot => cell_change_of_ne (h.ne_zero slot hslot)

theorem carries_withSentinel : layout.withSentinel.Carries t ↔ layout.Carries t :=
  ⟨fun h => ⟨h.root_eq, holds_withSentinel.mp h.holds, h.slots_nodup⟩,
    fun h => ⟨h.root_eq, holds_withSentinel.mpr h.holds, h.slots_nodup⟩⟩

theorem carries_iff (hpos : 0 < layout.cells.size) : layout.Carries t ↔
    layout.withSentinel.At ⟨layout.cells.size, layout.count, 0⟩ ⟨t, []⟩ := by
  rw [At.top_iff, carries_withSentinel]
  exact ⟨fun h => ⟨h, hpos, size_change, rfl, cell_change_self hpos⟩, And.left⟩

theorem withSentinel_redirect (h : link.OfNode) (target : Nat) :
    (layout.redirect link target).withSentinel = layout.withSentinel.redirect link target := by
  cases link with
  | root => rfl
  | parent slot | child side slot => exact change_comm h

theorem withSentinel_redirectAll {links : List (Link × Nat)} (h : ∀ l ∈ links, l.1.OfNode) :
    (layout.redirectAll links).withSentinel = layout.withSentinel.redirectAll links := by
  induction links generalizing layout with
  | nil => rfl
  | cons first links ih =>
    obtain ⟨hfirst, hrest⟩ := List.forall_mem_cons.mp h
    rw [redirectAll_cons, ih hrest, withSentinel_redirect hfirst, redirectAll_cons]

/-- A turn in the table is the turn in the tree. -/
theorem Carries.turned {f g : Frame} {a b : Tree}
    (h : layout.Carries (Cursor.rebuild (f.plug a) path)) (hf : f.sibling = g.plug b)
    (hside : g.side = f.side) :
    (layout.redirectAll (layout.turn f.side f.entry.slot)).Carries
      (Cursor.rebuild (g.plug (Frame.plug { f with sibling := b } a)) path) := by
  have hpivot := h.pivot hf hside
  have hpivot₀ := (carries_withSentinel.mpr h).pivot hf hside
  have hsame : layout.SameNodes (layout.redirectAll (layout.turn f.side f.entry.slot)) :=
    sameNodes_redirectAll _
  have hpos : 0 < layout.cells.size := by
    obtain ⟨-, hholds⟩ := hasPath_iff.mp ⟨h.root_eq, h.holds⟩
    obtain ⟨⟨-, hlt, -⟩, -, -⟩ := holds_plug.mp hholds
    exact Nat.zero_lt_of_lt hlt
  have hat : layout.withSentinel.At ⟨layout.cells.size, layout.count, 0⟩ ⟨f.plug a, path⟩ :=
    At.tree_iff.mp ((carries_iff hpos).mp h)
  obtain ⟨last, hlast, hat'⟩ := hat.rotate (Frame.rotate?_plug hf hside a)
  rw [Frame.rootSlot_plug, hpivot₀.rotate_eq] at hlast
  obtain rfl := Except.ok.inj hlast
  rw [hpivot₀.turn_eq, ← hpivot.turn_eq, ← withSentinel_redirectAll hpivot.ofNode_turn,
    ← hsame.size_eq, ← hsame.count_eq] at hat'
  refine (carries_iff ?_).mpr (At.tree_iff.mpr hat')
  rw [hsame.size_eq]
  exact hpos

/-- A turn at a slot takes one table to another, a tree with it, and can be taken back. The nodes stay as
they are and in order, the same ones are reached, and all links but those of the turn lead where they
led. -/
structure TurnsBack (layout : Layout) (t : Tree) (side : Side) (x : Nat) (layout' : Layout)
    (t' : Tree) : Prop where
  turned : layout.rotate side x = .ok layout'
  turned_back : layout'.rotate side.flip (layout.follow (.child side.flip x)) = .ok layout
  carries : layout'.Carries t'
  nodes_eq : t'.nodes = t.nodes
  linked_iff : ∀ slot, layout'.Linked slot ↔ layout.Linked slot
  same_nodes : layout.SameNodes layout'
  same_links : ∀ link ∉ (layout.turn side x).map (·.1), layout'.follow link = layout.follow link
  /-- The turn in the table is the one in the tree, which can be taken back there too. -/
  cursors : ∃ c c' : Cursor, c.tree = t ∧ c'.tree = t' ∧ c.focus.rootSlot = x ∧
    c.rotate? side = some c' ∧ c'.rotate? side.flip = some c

/-- In a table that carries a tree of any kind, a node with a child on one side can be turned towards the
other side, and the turn back at the node that rose gives the same table again. -/
theorem rotate_turnsBack (h : layout.Carries t) (hx : layout.Linked x) (side : Side)
    (hy : layout.follow (.child side.flip x) ≠ 0) :
    ∃ layout' t', layout.TurnsBack t side x layout' t' := by
  obtain ⟨f, g, a, b, path, rfl, rfl, rfl, hside, hf⟩ := h.exists_place hx hy
  let lowered : Frame := { f with sibling := b }
  have hturn : (f.plug a).rotate? f.side = some (g.plug (lowered.plug a)) :=
    Frame.rotate?_plug hf hside a
  have hback := Tree.rotate?_flip hturn
  have hcarries := h.turned hf hside
  have hpivot := h.pivot hf hside
  have hpivot' := hcarries.pivot_flip (f := lowered) hside
  have hslots : (Cursor.rebuild (g.plug (lowered.plug a)) path).slots =
      (Cursor.rebuild (f.plug a) path).slots := by
    rw [Tree.slots, Tree.slots, Cursor.entries_rebuild_congr (Tree.entries_rotate hturn)]
  refine ⟨_, _, hpivot.rotate_eq, ?_, hcarries, Tree.nodes_rebuild_congr (Tree.nodes_rotate hturn) path,
    fun slot => ?_, sameNodes_redirectAll _, fun link hlink => ?_, ⟨f.plug a, path⟩,
    ⟨g.plug (lowered.plug a), path⟩, rfl, rfl, f.rootSlot_plug a, ?_, ?_⟩
  · rw [hpivot.rising, hpivot'.rotate_eq, hpivot.redirect_back hpivot' rfl]
  · rw [hcarries.linked_iff_mem, h.linked_iff_mem, hslots]
  · exact (follow_redirectAll link _).resolve_right fun h => hlink h.1
  · rw [Cursor.rotate?, hturn, Option.map_some]
  · rw [Cursor.rotate?, hback, Option.map_some]

/-- A tree out of balance and out of order, with red nodes below red ones. -/
def uneven : Tree :=
  .node .red ⟨1, "b", "1"⟩
    (.node .red ⟨2, "d", "2"⟩ .leaf
      (.node .black ⟨3, "a", "3"⟩ (.node .red ⟨4, "c", "4"⟩ .leaf .leaf) .leaf))
    .leaf

/-- Below the root a node rises that has a subtree to give. -/
theorem rotate_turnsBack_of_uneven :
    let layout := ofTree uneven 5 4
    layout.Carries uneven ∧ layout.Linked 2 ∧ layout.follow (.child .right 2) ≠ 0 ∧
      ∃ layout' t', layout.TurnsBack uneven .left 2 layout' t' := by
  intro layout
  have hnodup : uneven.slots.Nodup := by decide
  have hcarries : layout.Carries uneven := ⟨rfl, holds_ofTree hnodup (by decide) 4, hnodup⟩
  have hlinked : layout.Linked 2 := hcarries.linked_iff_mem.mpr (by decide)
  have hrising : layout.follow (.child .right 2) ≠ 0 := by decide
  exact ⟨hcarries, hlinked, hrising, rotate_turnsBack hcarries hlinked .left hrising⟩

end Layout

end TriStore.RedBlack
