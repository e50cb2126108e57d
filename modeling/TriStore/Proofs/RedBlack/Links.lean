import TriStore.Proofs.RedBlack.Relink

/-!
# The links of a table

A table consists of its links and of what its cells hold beside them, so two tables are one if they
agree in both. To redirect a link changes that link alone. After any number of links have been
redirected, redirecting each of them to where it led in the beginning gives the first table again.
-/

namespace TriStore.RedBlack

/-- The link to the root, or one of the links that a cell has. -/
inductive Link where
  | root
  | parent (slot : Nat)
  | child (side : Side) (slot : Nat)
  deriving DecidableEq

namespace Cell
variable {side other : Side} {slot : Nat} {c d : Cell}

@[simp] theorem child_setChild :
    (c.setChild side slot).child other = if other = side then slot else c.child other := by
  cases side <;> cases other <;> rfl

@[simp] theorem parent_setChild : (c.setChild side slot).parent = c.parent := by
  cases side <;> rfl

@[simp] theorem record_setChild : (c.setChild side slot).record = c.record := by
  cases side <;> rfl

@[simp] theorem color_setChild : (c.setChild side slot).color = c.color := by
  cases side <;> rfl

@[simp] theorem child_setParent : (c.setParent slot).child other = c.child other := by
  cases other <;> rfl

theorem ext_links (hrecord : c.record = d.record) (hcolor : c.color = d.color)
    (hparent : c.parent = d.parent) (hchild : ∀ side, c.child side = d.child side) : c = d := by
  obtain ⟨record, color, parent, left, right⟩ := c
  obtain rfl : record = _ := hrecord
  obtain rfl : color = _ := hcolor
  obtain rfl : parent = _ := hparent
  obtain rfl : left = _ := hchild .left
  obtain rfl : right = _ := hchild .right
  rfl

end Cell

namespace Layout
variable {layout layout' : Layout} {link other : Link} {links : List (Link × Nat)}

def follow (layout : Layout) : Link → Nat
  | .root => layout.root
  | .parent slot => (layout.cell slot).parent
  | .child side slot => (layout.cell slot).child side

def HasLink (layout : Layout) : Link → Prop
  | .root => True
  | .parent slot | .child _ slot => slot < layout.cells.size

instance : DecidablePred layout.HasLink
  | .root => isTrue trivial
  | .parent slot | .child _ slot => inferInstanceAs (Decidable (slot < layout.cells.size))

def redirect (layout : Layout) (link : Link) (target : Nat) : Layout :=
  match link with
  | .root => { layout with root := target }
  | .parent slot => layout.change slot (·.setParent target)
  | .child side slot => layout.change slot (·.setChild side target)

def redirectAll (layout : Layout) (links : List (Link × Nat)) : Layout :=
  links.foldl (fun layout (link, target) => layout.redirect link target) layout

/-- Two tables with the same records and colours in the same slots, whatever the links are. -/
structure SameNodes (layout layout' : Layout) : Prop where
  size_eq : layout'.cells.size = layout.cells.size
  count_eq : layout'.count = layout.count
  record_eq : ∀ slot, (layout'.cell slot).record = (layout.cell slot).record
  color_eq : ∀ slot, (layout'.cell slot).color = (layout.cell slot).color

theorem SameNodes.trans {last : Layout} (h : layout.SameNodes layout') (h' : layout'.SameNodes last) :
    layout.SameNodes last where
  size_eq := h'.size_eq.trans h.size_eq
  count_eq := h'.count_eq.trans h.count_eq
  record_eq slot := (h'.record_eq slot).trans (h.record_eq slot)
  color_eq slot := (h'.color_eq slot).trans (h.color_eq slot)

theorem SameNodes.eq_of_follow (h : layout.SameNodes layout')
    (hlinks : ∀ link, layout'.follow link = layout.follow link) : layout' = layout := by
  have hcell (slot : Nat) : layout'.cell slot = layout.cell slot :=
    Cell.ext_links (h.record_eq slot) (h.color_eq slot) (hlinks (.parent slot)) fun side =>
      hlinks (.child side slot)
  have hcells : layout'.cells = layout.cells := by
    refine Array.ext h.size_eq fun slot hslot' hslot => ?_
    have hboth := hcell slot
    rwa [cell, cell, Array.getD_eq_getD_getElem?, Array.getD_eq_getD_getElem?,
      Array.getElem?_eq_getElem hslot', Array.getElem?_eq_getElem hslot] at hboth
  have hroot : layout'.root = layout.root := hlinks .root
  have hcount := h.count_eq
  obtain ⟨cells, root, count⟩ := layout
  obtain rfl : layout'.cells = cells := hcells
  obtain rfl : layout'.root = root := hroot
  obtain rfl : layout'.count = count := hcount
  rfl

section Redirect
variable {slot : Nat} {g : Cell → Cell}

theorem change_of_size_le (h : layout.cells.size ≤ slot) : layout.change slot g = layout := by
  rw [change, Array.setIfInBounds_eq_of_size_le h]

/-- What a change leaves alone in a cell it leaves alone in all. -/
theorem read_change {α : Type} {read : Cell → α} (h : ∀ cell, read (g cell) = read cell)
    (other : Nat) : read ((layout.change slot g).cell other) = read (layout.cell other) := by
  by_cases heq : other = slot
  · obtain rfl := heq
    rcases Nat.lt_or_ge other layout.cells.size with hlt | hle
    · rw [cell_change_self hlt, h]
    · rw [change_of_size_le hle]
  · rw [cell_change_of_ne heq]

theorem change_comm {other : Nat} {k : Cell → Cell} (h : slot ≠ other) :
    (layout.change slot g).change other k = (layout.change other k).change slot g := by
  have hslot : (layout.change other k).cell slot = layout.cell slot := cell_change_of_ne h
  have hother : (layout.change slot g).cell other = layout.cell other := cell_change_of_ne h.symm
  rw [change.eq_def other k (layout.change slot g), hother,
    change.eq_def slot g (layout.change other k), hslot]
  exact congrArg (fun cells => Layout.mk cells layout.root layout.count)
    (Array.setIfInBounds_comm _ _ h)

theorem sameNodes_redirect (link : Link) (target : Nat) :
    layout.SameNodes (layout.redirect link target) := by
  cases link with
  | root => exact ⟨rfl, rfl, fun _ => rfl, fun _ => rfl⟩
  | parent slot => exact ⟨size_change, rfl, read_change fun _ => rfl, read_change fun _ => rfl⟩
  | child side slot =>
    exact ⟨size_change, rfl, read_change fun _ => Cell.record_setChild,
      read_change fun _ => Cell.color_setChild⟩

theorem follow_redirect_self (h : layout.HasLink link) (target : Nat) :
    (layout.redirect link target).follow link = target := by
  cases link with
  | root => rfl
  | parent slot =>
    rw [follow, redirect, cell_change_self h]
    rfl
  | child side slot =>
    rw [follow, redirect, cell_change_self h, Cell.child_setChild, if_pos rfl]

theorem follow_redirect_of_ne (h : other ≠ link) (target : Nat) :
    (layout.redirect link target).follow other = layout.follow other := by
  cases link with
  | root =>
    cases other with
    | root => exact absurd rfl h
    | parent | child => rfl
  | parent slot =>
    cases other with
    | root => rfl
    | parent slot' =>
      have hne : slot' ≠ slot := fun heq => h (congrArg _ heq)
      exact congrArg Cell.parent (cell_change_of_ne hne)
    | child side slot' => exact read_change (fun _ => Cell.child_setParent) slot'
  | child side slot =>
    cases other with
    | root => rfl
    | parent slot' => exact read_change (fun _ => Cell.parent_setChild) slot'
    | child side' slot' =>
      by_cases hside : side' = side
      · have hne : slot' ≠ slot := by
          rintro rfl
          exact h (by rw [hside])
        exact congrArg (Cell.child side') (cell_change_of_ne hne)
      · have hread (cell : Cell) : (cell.setChild side target).child side' = cell.child side' := by
          rw [Cell.child_setChild, if_neg hside]
        exact read_change hread slot'

theorem redirect_of_not_hasLink (h : ¬ layout.HasLink link) (target : Nat) :
    layout.redirect link target = layout := by
  cases link with
  | root => exact absurd trivial h
  | parent slot | child side slot => exact change_of_size_le (Nat.le_of_not_lt h)

theorem follow_redirect (link other : Link) (target : Nat) :
    (layout.redirect other target).follow link =
      if link = other ∧ layout.HasLink link then target else layout.follow link := by
  by_cases heq : link = other
  · obtain rfl := heq
    by_cases hlink : layout.HasLink link
    · rw [follow_redirect_self hlink, if_pos ⟨rfl, hlink⟩]
    · rw [redirect_of_not_hasLink hlink, if_neg fun h => hlink h.2]
  · rw [follow_redirect_of_ne heq, if_neg fun h => heq h.1]

theorem SameNodes.hasLink_iff (h : layout.SameNodes layout') :
    layout'.HasLink link ↔ layout.HasLink link := by
  cases link with
  | root => exact Iff.rfl
  | parent slot | child side slot => rw [HasLink, HasLink, h.size_eq]

end Redirect

theorem redirectAll_cons (target : Nat) :
    layout.redirectAll ((link, target) :: links) = (layout.redirect link target).redirectAll links :=
  rfl

theorem redirectAll_append (more : List (Link × Nat)) :
    layout.redirectAll (links ++ more) = (layout.redirectAll links).redirectAll more :=
  List.foldl_append

theorem sameNodes_redirectAll (links : List (Link × Nat)) :
    layout.SameNodes (layout.redirectAll links) := by
  induction links generalizing layout with
  | nil => exact ⟨rfl, rfl, fun _ => rfl, fun _ => rfl⟩
  | cons first links ih => exact (sameNodes_redirect first.1 first.2).trans ih

theorem follow_redirectAll (link : Link) (links : List (Link × Nat)) :
    (layout.redirectAll links).follow link = layout.follow link ∨
      link ∈ links.map (·.1) ∧ layout.HasLink link := by
  induction links generalizing layout with
  | nil => exact Or.inl rfl
  | cons first links ih =>
    obtain ⟨first, target⟩ := first
    have hsame : layout.SameNodes (layout.redirect first target) := sameNodes_redirect first target
    have hrest : ((layout.redirect first target).redirectAll links).follow link =
        (layout.redirect first target).follow link ∨
          link ∈ links.map (·.1) ∧ (layout.redirect first target).HasLink link := ih
    rw [redirectAll_cons, List.map_cons]
    rcases hrest with heq | ⟨hmem, hlink⟩
    · rw [heq, follow_redirect]
      split
      · next h => exact Or.inr ⟨h.1 ▸ List.mem_cons_self, h.2⟩
      · exact Or.inl rfl
    · exact Or.inr ⟨List.mem_cons_of_mem _ hmem, hsame.hasLink_iff.mp hlink⟩

/-- A link leads where all of its redirections let it lead, if it has one or led there before. -/
theorem follow_redirectAll_eq {target : Nat} (hall : ∀ l ∈ links, l.1 = link → l.2 = target)
    (hlink : layout.follow link = target ∨ link ∈ links.map (·.1) ∧ layout.HasLink link) :
    (layout.redirectAll links).follow link = target := by
  induction links generalizing layout with
  | nil =>
    rcases hlink with heq | ⟨hmem, -⟩
    · exact heq
    · exact absurd hmem List.not_mem_nil
  | cons first links ih =>
    obtain ⟨first, slot⟩ := first
    obtain ⟨hfirst, hrest⟩ := List.forall_mem_cons.mp hall
    have hsame : layout.SameNodes (layout.redirect first slot) := sameNodes_redirect first slot
    rw [redirectAll_cons]
    apply ih hrest
    rw [follow_redirect, hsame.hasLink_iff]
    split
    · next h => exact Or.inl (hfirst h.1.symm)
    · next h =>
      rcases hlink with heq | ⟨hmem, hhas⟩
      · exact Or.inl heq
      · have hne : link ≠ first := fun heq => h ⟨heq, hhas⟩
        exact Or.inr ⟨(List.mem_cons.mp hmem).resolve_left hne, hhas⟩

/-- Links that were redirected are redirected again, each to where it led at first. -/
theorem redirectAll_redirectAll {back : List (Link × Nat)}
    (hsub : ∀ link ∈ links.map (·.1), link ∈ back.map (·.1))
    (hback : ∀ l ∈ back, layout.follow l.1 = l.2) :
    (layout.redirectAll links).redirectAll back = layout := by
  have hsame : layout.SameNodes (layout.redirectAll links) := sameNodes_redirectAll links
  refine (hsame.trans (sameNodes_redirectAll back)).eq_of_follow fun link => ?_
  apply follow_redirectAll_eq
  · rintro l hl rfl
    exact (hback l hl).symm
  · rcases follow_redirectAll link links with heq | ⟨hmem, hlink⟩
    · exact Or.inl heq
    · exact Or.inr ⟨hsub link hmem, hsame.hasLink_iff.mpr hlink⟩

end Layout

end TriStore.RedBlack
