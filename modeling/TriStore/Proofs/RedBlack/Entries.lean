import TriStore.RedBlack.Cursor

/-!
# The entries of a tree, in order

A path splits the entries of the whole tree: those before the focus, those of the focus, those
after it. Painting and turning change neither the entries nor their order, whatever the colours
are, so what a round of repair does to the order is read off its moves.
-/

namespace TriStore.RedBlack

namespace Tree

@[simp] theorem entries_paint (c : Color) (t : Tree) : (t.paint c).entries = t.entries := by
  cases t <;> rfl

@[simp] theorem entries_paintChild (side : Side) (c : Color) (t : Tree) :
    (t.paintChild side c).entries = t.entries := by
  cases t with
  | leaf => rfl
  | node d e l r => cases side <;> simp [paintChild, entries]

theorem entries_rotate {side : Side} {t t' : Tree} (h : t.rotate? side = some t') :
    t'.entries = t.entries := by
  cases t with
  | leaf => cases side <;> simp [rotate?] at h
  | node c e l r =>
    cases side with
    | left =>
      cases r with
      | leaf => simp [rotate?] at h
      | node d y b f =>
        obtain rfl : _ = t' := Option.some.inj h
        simp [entries]
    | right =>
      cases l with
      | leaf => simp [rotate?] at h
      | node d y a b =>
        obtain rfl : _ = t' := Option.some.inj h
        simp [entries]

def size (t : Tree) : Nat := t.entries.length

def slots (t : Tree) : List Nat := t.entries.map (·.slot)

def Ordered (t : Tree) : Prop := t.entries.Pairwise fun a b => a.key < b.key

theorem ordered_node {c : Color} {e : Entry} {l r : Tree} :
    (node c e l r).Ordered ↔ l.Ordered ∧ r.Ordered ∧ (∀ x ∈ l.entries, x.key < e.key) ∧
      ∀ y ∈ r.entries, e.key < y.key := by
  rw [Ordered, entries, List.pairwise_append, List.pairwise_cons]
  constructor
  · rintro ⟨hl, ⟨her, hr⟩, hlr⟩
    exact ⟨hl, hr, fun x hx => hlr x hx e List.mem_cons_self, her⟩
  · rintro ⟨hl, hr, hle, her⟩
    refine ⟨hl, ⟨her, hr⟩, fun x hx y hy => ?_⟩
    rcases List.mem_cons.mp hy with rfl | hy
    · exact hle x hx
    · exact String.lt_trans (hle x hx) (her y hy)

end Tree

namespace Frame

def before (f : Frame) : List Entry :=
  match f.side with
  | .left => []
  | .right => f.sibling.entries ++ [f.entry]

def after (f : Frame) : List Entry :=
  match f.side with
  | .left => f.entry :: f.sibling.entries
  | .right => []

theorem entries_plug (f : Frame) (t : Tree) :
    (f.plug t).entries = f.before ++ t.entries ++ f.after := by
  obtain ⟨side, c, e, s⟩ := f
  cases side <;> simp [plug, before, after, Tree.entries]

theorem entries_plug_congr {f g : Frame} {t u : Tree} (hside : g.side = f.side)
    (hentry : g.entry = f.entry) (hs : g.sibling.entries = f.sibling.entries)
    (ht : u.entries = t.entries) : (g.plug u).entries = (f.plug t).entries := by
  simp only [entries_plug, before, after, hside, hentry, hs, ht]

end Frame

namespace Cursor

def before : List Frame → List Entry
  | [] => []
  | f :: path => before path ++ f.before

def after : List Frame → List Entry
  | [] => []
  | f :: path => f.after ++ after path

theorem entries_rebuild (t : Tree) (path : List Frame) :
    (rebuild t path).entries = before path ++ t.entries ++ after path := by
  induction path generalizing t with
  | nil => simp [rebuild, before, after]
  | cons f path ih => simp [rebuild, before, after, ih, Frame.entries_plug]

theorem entries_rebuild_congr {t t' : Tree} (h : t'.entries = t.entries) (path : List Frame) :
    (rebuild t' path).entries = (rebuild t path).entries := by
  rw [entries_rebuild, entries_rebuild, h]

theorem before_append (p q : List Frame) : before (p ++ q) = before q ++ before p := by
  induction p with
  | nil => simp [before]
  | cons f p ih => simp [before, ih]

theorem after_append (p q : List Frame) : after (p ++ q) = after p ++ after q := by
  induction p with
  | nil => simp [after]
  | cons f p ih => simp [after, ih]

theorem rebuild_append (t : Tree) (p q : List Frame) :
    rebuild t (p ++ q) = rebuild (rebuild t p) q := by
  induction p generalizing t with
  | nil => rfl
  | cons f p ih => exact ih (f.plug t)

@[simp] theorem tree_top (c : Cursor) : c.top.tree = c.tree := rfl

theorem tree_down {side : Side} {c c' : Cursor} (h : c.down? side = some c') :
    c'.tree = c.tree := by
  obtain ⟨t, path⟩ := c
  cases t with
  | leaf => simp [down?] at h
  | node d e l r => cases side <;> (obtain rfl := Option.some.inj h; rfl)

theorem entries_rotate {side : Side} {c c' : Cursor} (h : c.rotate? side = some c') :
    c'.tree.entries = c.tree.entries := by
  obtain ⟨t, ht, rfl⟩ := Option.map_eq_some_iff.mp h
  exact entries_rebuild_congr (Tree.entries_rotate ht) c.path

theorem entries_rotate_down {side down : Side} {c c' : Cursor}
    (h : (c.rotate? side).bind (Cursor.down? down) = some c') :
    c'.tree.entries = c.tree.entries := by
  obtain ⟨c₁, h₁, h₂⟩ := Option.bind_eq_some_iff.mp h
  rw [tree_down h₂, entries_rotate h₁]

end Cursor

end TriStore.RedBlack
