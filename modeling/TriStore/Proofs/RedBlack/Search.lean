import TriStore.Proofs.RedBlack.Entries

/-!
# Search

The descent for a key in an ordered tree ends at the key's node, or at the leaf that separates the
smaller keys from the greater ones. A look-up goes the same way.
-/

namespace TriStore.RedBlack

/-- A path between the entries with smaller keys and those with greater ones. -/
def Separates (key : String) (path : List Frame) : Prop :=
  (∀ x ∈ Cursor.before path, x.key < key) ∧ ∀ y ∈ Cursor.after path, key < y.key

namespace Cursor

theorem tree_descend (key : String) (t : Tree) (path : List Frame) :
    (descend key t path).tree = rebuild t path := by
  induction t generalizing path with
  | leaf => rfl
  | node c e l r ihl ihr =>
    rw [descend]
    split
    · exact ihl _
    · split
      · exact ihr _
      · rfl

theorem key_descend {key : String} {t : Tree} {path path' : List Frame} {c : Color} {e : Entry}
    {l r : Tree} (h : descend key t path = ⟨.node c e l r, path'⟩) : e.key = key := by
  induction t generalizing path with
  | leaf => simp [descend] at h
  | node c₁ e₁ l₁ r₁ ihl ihr =>
    rw [descend] at h
    split at h
    · exact ihl h
    · split at h
      · exact ihr h
      · next hlt hgt =>
        simp only [mk.injEq, Tree.node.injEq] at h
        obtain ⟨⟨rfl, rfl, rfl, rfl⟩, rfl⟩ := h
        exact String.le_antisymm hlt hgt

theorem separates_descend {key : String} {t : Tree} {path path' : List Frame}
    (ht : t.Ordered) (hpath : Separates key path) (h : descend key t path = ⟨.leaf, path'⟩) :
    Separates key path' := by
  induction t generalizing path with
  | leaf =>
    simp only [descend, mk.injEq, true_and] at h
    exact h ▸ hpath
  | node c e l r ihl ihr =>
    obtain ⟨hl, hr, hle, her⟩ := Tree.ordered_node.mp ht
    rw [descend] at h
    split at h
    · next hlt =>
      refine ihl hl ⟨?_, fun y hy => ?_⟩ h
      · simpa [before, Frame.before] using hpath.1
      · rcases List.mem_append.mp hy with hy | hy
        · rcases List.mem_cons.mp hy with rfl | hy
          · exact hlt
          · exact String.lt_trans hlt (her y hy)
        · exact hpath.2 y hy
    · split at h
      · next hgt =>
        refine ihr hr ⟨fun x hx => ?_, ?_⟩ h
        · rcases List.mem_append.mp hx with hx | hx
          · exact hpath.1 x hx
          · rcases List.mem_append.mp hx with hx | hx
            · exact String.lt_trans (hle x hx) hgt
            · obtain rfl := List.mem_singleton.mp hx
              exact hgt
        · simpa [after, Frame.after] using hpath.2
      · simp at h

end Cursor

namespace Tree

theorem find?_eq_descend (key : String) (t : Tree) (path : List Frame) :
    t.find? key = match (Cursor.descend key t path).focus with
      | .leaf => none
      | .node _ e _ _ => some e := by
  induction t generalizing path with
  | leaf => rfl
  | node c e l r ihl ihr =>
    rw [find?, Cursor.descend]
    split
    · exact ihl _
    · split
      · exact ihr _
      · rfl

section Seek
variable {t : Tree} {key : String} {path : List Frame}

theorem separates_of_seek_leaf (ht : t.Ordered) (h : t.seek key = ⟨.leaf, path⟩) :
    Separates key path :=
  Cursor.separates_descend ht ⟨by simp [Cursor.before], by simp [Cursor.after]⟩ h

theorem rebuild_of_seek {focus : Tree} (h : t.seek key = ⟨focus, path⟩) :
    Cursor.rebuild focus path = t := by
  have htree := Cursor.tree_descend key t []
  rwa [show Cursor.descend key t [] = _ from h] at htree

theorem entries_of_seek_leaf (h : t.seek key = ⟨.leaf, path⟩) :
    t.entries = Cursor.before path ++ Cursor.after path := by
  rw [← rebuild_of_seek h, Cursor.entries_rebuild, entries, List.append_nil]

theorem entries_of_seek_node {c : Color} {e : Entry} {l r : Tree}
    (h : t.seek key = ⟨.node c e l r, path⟩) :
    t.entries = (Cursor.before path ++ l.entries) ++ e :: (r.entries ++ Cursor.after path) := by
  rw [← rebuild_of_seek h, Cursor.entries_rebuild, entries]
  simp only [List.append_assoc, List.cons_append]

theorem key_of_seek_node {c : Color} {e : Entry} {l r : Tree}
    (h : t.seek key = ⟨.node c e l r, path⟩) : e.key = key :=
  Cursor.key_descend h

theorem find?_of_seek_leaf (h : t.seek key = ⟨.leaf, path⟩) : t.find? key = none := by
  rw [find?_eq_descend key t [], show Cursor.descend key t [] = _ from h]

theorem find?_of_seek_node {c : Color} {e : Entry} {l r : Tree}
    (h : t.seek key = ⟨.node c e l r, path⟩) : t.find? key = some e := by
  rw [find?_eq_descend key t [], show Cursor.descend key t [] = _ from h]

end Seek

end Tree

theorem Bound.admits_of_lt {bound : Bound} {key other : String} (h : bound.admits key = true)
    (hlt : key < other) : bound.admits other = true := by
  cases bound with
  | unbounded => rfl
  | included start =>
    rw [admits, Bool.not_eq_true', decide_eq_false_iff_not] at h ⊢
    exact fun hother => h (String.lt_trans hlt hother)
  | excluded start =>
    rw [admits, decide_eq_true_iff] at h ⊢
    exact String.lt_trans h hlt

/-- The descent to a bound finds just the records that the bound admits. -/
theorem Tree.toListFrom_eq_filter {t : Tree} (h : t.Ordered) (bound : Bound) :
    t.toListFrom bound = t.toList.filter (bound.admits ·.key) := by
  induction t with
  | leaf => rfl
  | node c e l r ihl ihr =>
    obtain ⟨hl, hr, hle, her⟩ := ordered_node.mp h
    have hnode : (node c e l r).toList = l.toList ++ e.record :: r.toList := by
      simp only [toList, entries, List.map_append, List.map_cons]
    rw [toListFrom, hnode, List.filter_append, List.filter_cons, ihl hl, ihr hr]
    split
    · next hadmits =>
      have hright : r.toList.filter (bound.admits ·.key) = r.toList := by
        apply List.filter_eq_self.mpr
        intro x hx
        obtain ⟨y, hy, rfl⟩ := List.mem_map.mp hx
        exact Bound.admits_of_lt hadmits (her y hy)
      rw [hright]
    · next hadmits =>
      have hleft : l.toList.filter (bound.admits ·.key) = [] := by
        apply List.filter_eq_nil_iff.mpr
        intro x hx hadmitted
        obtain ⟨y, hy, rfl⟩ := List.mem_map.mp hx
        exact hadmits (Bound.admits_of_lt hadmitted (hle y hy))
      rw [hleft, List.nil_append]

end TriStore.RedBlack
