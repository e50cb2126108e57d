import TriStore.Proofs.KeyOrder
import TriStore.Proofs.Laws
import TriStore.Proofs.RedBlack.Deletion
import TriStore.Proofs.RedBlack.Insertion
import TriStore.Proofs.RedBlack.Layout
import TriStore.Proofs.RedBlack.Search
import TriStore.TreeTable

/-!
# Tree tables stay red-black trees

`TreeTable.WellFormed` is the invariant of a tree table: the tree is ordered and balanced, the slots
of the arena are divided between sentinel, nodes and free slots, and the count is the number of
nodes. Every call keeps it.
-/

namespace TriStore

open RedBlack

namespace TreeTable

structure WellFormed (t : TreeTable) : Prop where
  ordered : t.tree.Ordered
  blackRooted : t.tree.BlackRooted
  /-- Each slot of the arena is the sentinel's, a node's or free, and only one of these. -/
  slots_perm : (0 :: (t.tree.slots ++ t.free)).Perm (List.range t.slots)
  count_eq : t.count = t.tree.size
  count_le : t.count ≤ t.capacity

theorem empty_wellFormed (capacity : Nat) : (empty capacity).WellFormed where
  ordered := List.Pairwise.nil
  blackRooted := ⟨rfl, 0, .leaf⟩
  slots_perm := .refl _
  count_eq := rfl
  count_le := Nat.zero_le _

theorem bounded_empty (capacity : Nat) : Table.bounded (empty capacity) = .empty capacity := rfl

variable {t : TreeTable}

theorem takeSlot_perm {slots : List Nat}
    (h : (0 :: (slots ++ t.free)).Perm (List.range t.slots)) :
    (0 :: ((t.takeSlot.1 :: slots) ++ t.takeSlot.2.2)).Perm (List.range t.takeSlot.2.1) := by
  unfold takeSlot
  split
  · next slot free hfree =>
    rw [hfree] at h
    exact (List.Perm.cons 0 List.perm_middle.symm).trans h
  · next hfree =>
    rw [hfree] at h
    rw [List.range_succ]
    refine List.Perm.trans ?_ (h.append_right [t.slots])
    simpa using (List.perm_append_singleton t.slots slots).symm

theorem insert_spec {key : String} (value : String) {path : List Frame}
    (h : t.WellFormed) (hseek : t.tree.seek key = ⟨.leaf, path⟩) :
    let tree := Insertion.insertAt ⟨t.takeSlot.1, key, value⟩ path
    tree.Ordered ∧ tree.BlackRooted ∧
      tree.entries.Perm (⟨t.takeSlot.1, key, value⟩ :: t.tree.entries) := by
  obtain ⟨hbefore, hafter⟩ := Tree.separates_of_seek_leaf h.ordered hseek
  have hentries := Tree.entries_of_seek_leaf hseek
  have hordered : (Cursor.before path ++ Cursor.after path).Pairwise fun a b => a.key < b.key :=
    hentries ▸ h.ordered
  obtain ⟨hob, hoa, _⟩ := List.pairwise_append.mp hordered
  refine ⟨?_, ?_, ?_⟩
  · rw [Tree.Ordered, Insertion.entries_insertAt, List.pairwise_append, List.pairwise_cons]
    refine ⟨hob, ⟨hafter, hoa⟩, fun x hx y hy => ?_⟩
    rcases List.mem_cons.mp hy with rfl | hy
    · exact hbefore x hx
    · exact String.lt_trans (hbefore x hx) (hafter y hy)
  · have hroot : (Cursor.rebuild .leaf path).BlackRooted := by
      rw [Tree.rebuild_of_seek hseek]
      exact h.blackRooted
    obtain ⟨n, hfits⟩ := (blackRooted_rebuild_iff _ _).mp hroot
    exact Insertion.insertAt_blackRooted hfits _
  · rw [Insertion.entries_insertAt, hentries]
    exact List.perm_middle

theorem erase_spec {key : String} {c : Color} {e : Entry} {l r : Tree}
    {path : List Frame} (h : t.WellFormed) (hseek : t.tree.seek key = ⟨.node c e l r, path⟩) :
    let tree := Deletion.eraseAt c l r path
    tree.Ordered ∧ tree.BlackRooted ∧ t.tree.entries.Perm (e :: tree.entries) := by
  have hroot : (Cursor.rebuild (.node c e l r) path).BlackRooted := by
    rw [Tree.rebuild_of_seek hseek]
    exact h.blackRooted
  obtain ⟨n, hfits⟩ := (blackRooted_rebuild_iff _ _).mp hroot
  have hentries : (Deletion.eraseAt c l r path).entries =
      (Cursor.before path ++ l.entries) ++ (r.entries ++ Cursor.after path) := by
    rw [Deletion.entries_eraseAt hfits, List.append_assoc _ r.entries]
  have hold := Tree.entries_of_seek_node hseek
  refine ⟨?_, Deletion.eraseAt_blackRooted hfits, ?_⟩
  · refine List.Pairwise.sublist ?_ h.ordered
    rw [hold, hentries]
    exact (List.Sublist.refl _).append (List.sublist_cons_self _ _)
  · rw [hold, hentries]
    exact List.perm_middle

/-- Another value for a node leaves the shape, the colours and all other entries. -/
theorem replace_spec {key : String} (value : String) {c : Color} {e : Entry}
    {l r : Tree} {path : List Frame} (h : t.WellFormed)
    (hseek : t.tree.seek key = ⟨.node c e l r, path⟩) :
    let tree := Cursor.rebuild (.node c ⟨e.slot, e.key, value⟩ l r) path
    tree.Ordered ∧ tree.BlackRooted ∧ tree.slots = t.tree.slots ∧
      ∃ rest, t.tree.entries.Perm (e :: rest) ∧
        tree.entries.Perm (⟨e.slot, e.key, value⟩ :: rest) := by
  have hroot : (Cursor.rebuild (.node c e l r) path).BlackRooted := by
    rw [Tree.rebuild_of_seek hseek]
    exact h.blackRooted
  obtain ⟨n, hfits⟩ := (blackRooted_rebuild_iff _ _).mp hroot
  have hentries (e' : Entry) : (Cursor.rebuild (.node c e' l r) path).entries =
      (Cursor.before path ++ l.entries) ++ e' :: (r.entries ++ Cursor.after path) := by
    rw [Cursor.entries_rebuild, Tree.entries]
    simp only [List.append_assoc, List.cons_append]
  have hold := Tree.entries_of_seek_node hseek
  refine ⟨?_, ?_, ?_, Cursor.before path ++ l.entries ++ (r.entries ++ Cursor.after path), ?_, ?_⟩
  · have hordered := h.ordered
    rw [Tree.Ordered, hold, List.pairwise_append, List.pairwise_cons] at hordered
    rw [Tree.Ordered, hentries, List.pairwise_append, List.pairwise_cons]
    obtain ⟨hxs, hys, hxys⟩ := hordered
    refine ⟨hxs, hys, fun x hx y hy => ?_⟩
    rcases List.mem_cons.mp hy with rfl | hy
    · exact hxys x hx e List.mem_cons_self
    · exact hxys x hx y (List.mem_cons_of_mem _ hy)
  · apply (blackRooted_rebuild_iff _ _).mpr
    exact ⟨n, hfits.balanced.replace_entry _, hfits.supports, hfits.parent_black⟩
  · rw [Tree.slots, Tree.slots, hentries, hold]
    simp
  · rw [hold]
    exact List.perm_middle
  · rw [hentries]
    exact List.perm_middle

theorem distinct (h : t.WellFormed) : DistinctKeys t.toList := by
  have hkeys : t.tree.entries.Pairwise fun a b => a.key ≠ b.key :=
    h.ordered.imp String.ne_of_lt
  rw [DistinctKeys, toList, Tree.toList, List.map_map]
  exact List.pairwise_map.mpr hkeys

theorem sorted (h : t.WellFormed) : (Table.toList t).Pairwise fun r s => r.key < s.key :=
  List.pairwise_map.mpr h.ordered

theorem has_iff (t : TreeTable) (key : String) :
    Table.Has t key ↔ ∃ e ∈ t.tree.entries, e.key = key := by
  constructor
  · rintro ⟨r, hr, hkey⟩
    obtain ⟨e, he, rfl⟩ := List.mem_map.mp hr
    exact ⟨e, he, hkey⟩
  · rintro ⟨e, he, hkey⟩
    exact ⟨e.record, List.mem_map_of_mem he, hkey⟩

theorem not_has_of_seek_leaf {key : String} {path : List Frame} (h : t.WellFormed)
    (hseek : t.tree.seek key = ⟨.leaf, path⟩) : ¬ Table.Has t key := by
  rw [has_iff, Tree.entries_of_seek_leaf hseek]
  obtain ⟨hbefore, hafter⟩ := Tree.separates_of_seek_leaf h.ordered hseek
  rintro ⟨e, he, rfl⟩
  rcases List.mem_append.mp he with he | he
  · exact String.lt_irrefl _ (hbefore e he)
  · exact String.lt_irrefl _ (hafter e he)

theorem mem_of_seek_node {key : String} {c : Color} {e : Entry} {l r : Tree} {path : List Frame}
    (hseek : t.tree.seek key = ⟨.node c e l r, path⟩) : ⟨key, e.record.value⟩ ∈ t.toList := by
  obtain rfl := Tree.key_of_seek_node hseek
  apply List.mem_map.mpr
  refine ⟨e, ?_, rfl⟩
  rw [Tree.entries_of_seek_node hseek]
  exact List.mem_append_right _ List.mem_cons_self

theorem get?_eq_some_iff (h : t.WellFormed) (key value : String) :
    t.get? key = some value ↔ ⟨key, value⟩ ∈ t.toList := by
  obtain ⟨focus, path, hseek⟩ : ∃ focus path, t.tree.seek key = ⟨focus, path⟩ := ⟨_, _, rfl⟩
  cases focus with
  | leaf =>
    rw [get?, Tree.find?_of_seek_leaf hseek]
    refine ⟨fun hnone => by simp at hnone, fun hmem => ?_⟩
    exact absurd ⟨_, hmem, rfl⟩ (not_has_of_seek_leaf h hseek)
  | node c e l r =>
    rw [get?, Tree.find?_of_seek_node hseek]
    have hmem := mem_of_seek_node hseek
    constructor
    · intro hvalue
      rwa [← Option.some.inj hvalue]
    · intro hmem'
      rw [← Contents.getElem?_ofList_eq_some_iff (distinct h)] at hmem hmem'
      exact hmem.symm.trans hmem'

theorem insert_outcome (h : t.WellFormed) (key value : String) :
    Table.Inserts WellFormed t key value (t.insert key value) := by
  obtain ⟨focus, path, hseek⟩ : ∃ focus path, t.tree.seek key = ⟨focus, path⟩ := ⟨_, _, rfl⟩
  rw [insert, hseek]
  cases focus with
  | node c e l r => exact .present ⟨_, mem_of_seek_node hseek, rfl⟩
  | leaf =>
    have hnew := not_has_of_seek_leaf h hseek
    by_cases hfull : t.capacity ≤ t.count
    · simp only [if_pos hfull]
      exact .full hnew hfull
    · simp only [if_neg hfull]
      obtain ⟨hordered, hblack, hperm⟩ := insert_spec value h hseek
      refine .done hnew (Nat.lt_of_not_le hfull) ⟨hordered, hblack, ?_, ?_, ?_⟩ rfl ?_
      · have hslots := hperm.map Entry.slot
        refine List.Perm.trans ?_ (takeSlot_perm h.slots_perm)
        exact (hslots.append_right _).cons 0
      · have hlength := hperm.length_eq
        have hcount := h.count_eq
        simp only [Tree.size, List.length_cons] at hlength hcount ⊢
        omega
      · change t.count + 1 ≤ t.capacity
        omega
      · exact hperm.map Entry.record

theorem replace_outcome (h : t.WellFormed) (key value : String) :
    Table.Replaces WellFormed t key value (t.replace key value) := by
  obtain ⟨focus, path, hseek⟩ : ∃ focus path, t.tree.seek key = ⟨focus, path⟩ := ⟨_, _, rfl⟩
  rw [replace, hseek]
  cases focus with
  | leaf => exact .absent (not_has_of_seek_leaf h hseek)
  | node c e l r =>
    obtain ⟨hordered, hblack, hslots, rest, hperm, hperm'⟩ := replace_spec value h hseek
    obtain rfl := Tree.key_of_seek_node hseek
    have hslots_perm := h.slots_perm
    rw [← hslots] at hslots_perm
    have hcount := h.count_eq.trans (hperm.length_eq.trans hperm'.length_eq.symm)
    exact .done ⟨hordered, hblack, hslots_perm, hcount, h.count_le⟩ rfl (hperm.map Entry.record)
      (hperm'.map Entry.record)

theorem erase_outcome (h : t.WellFormed) (key : String) :
    Table.Erases WellFormed t key (t.erase key) := by
  obtain ⟨focus, path, hseek⟩ : ∃ focus path, t.tree.seek key = ⟨focus, path⟩ := ⟨_, _, rfl⟩
  rw [erase, hseek]
  cases focus with
  | leaf => exact .absent (not_has_of_seek_leaf h hseek)
  | node c e l r =>
    obtain ⟨hordered, hblack, hperm⟩ := erase_spec h hseek
    have hlength := hperm.length_eq
    have hcount := h.count_eq
    have hle := h.count_le
    simp only [Tree.size, List.length_cons] at hlength hcount
    obtain rfl := Tree.key_of_seek_node hseek
    refine .done ⟨hordered, hblack, ?_, ?_, ?_⟩ rfl (hperm.map Entry.record)
    · -- the slot of the node moves to the head of the free slots
      refine List.Perm.trans ?_ h.slots_perm
      refine List.Perm.cons 0 (List.perm_middle.trans ?_)
      exact ((hperm.map Entry.slot).append_right t.free).symm
    · simp only [Tree.size]
      omega
    · change t.count - 1 ≤ t.capacity
      omega

instance : LawfulTable TreeTable where
  Sound := WellFormed
  distinct := distinct
  size_eq h := by
    change _ = (List.map _ _).length
    rw [List.length_map]
    exact h.count_eq
  size_le h := h.count_le
  get?_eq_some_iff := get?_eq_some_iff
  inserts := insert_outcome
  replaces := replace_outcome
  erases := erase_outcome
  clear_sound _ := empty_wellFormed _
  capacity_clear _ := rfl
  toList_clear _ := rfl

theorem slots_of_wellFormed (h : t.WellFormed) :
    t.tree.slots.Nodup ∧ ∀ slot ∈ t.tree.slots, slot ≠ 0 ∧ slot < t.slots := by
  have hnodup : (0 :: (t.tree.slots ++ t.free)).Nodup :=
    h.slots_perm.nodup_iff.mpr List.nodup_range
  obtain ⟨hzero, hslots⟩ := List.nodup_cons.mp hnodup
  refine ⟨(List.nodup_append.mp hslots).1, fun slot hslot => ⟨?_, ?_⟩⟩
  · rintro rfl
    exact hzero (List.mem_append_left _ hslot)
  · apply List.mem_range.mp
    exact h.slots_perm.mem_iff.mp (List.mem_cons_of_mem _ (List.mem_append_left _ hslot))

theorem size_le_slots (h : t.WellFormed) : t.tree.size ≤ t.slots := by
  have hlength := h.slots_perm.length_eq
  simp only [List.length_cons, List.length_append, List.length_range, Tree.slots,
    List.length_map] at hlength
  rw [Tree.size]
  omega

/-- The arena of a well-formed table holds its tree, each node in a slot of its own. -/
theorem layout_holds (h : t.WellFormed) : t.layout.Holds 0 t.tree ∧ t.tree.slots.Nodup ∧
    t.tree.size ≤ t.layout.cells.size := by
  obtain ⟨hnodup, hslots⟩ := slots_of_wellFormed h
  refine ⟨Layout.holds_ofTree hnodup hslots t.count, hnodup, ?_⟩
  rw [layout, Layout.ofTree, Tree.size_writeCells, Array.size_replicate]
  exact size_le_slots h

theorem validate_of_wellFormed {n : Nat} (h : t.WellFormed) (hn : t.tree.Balanced n) :
    t.layout.Holds 0 t.tree ∧ t.layout.cell 0 = Cell.sentinel ∧ t.validate = .ok (n + 1) := by
  obtain ⟨hholds, -, hsize⟩ := layout_holds h
  have hsentinel := Layout.cell_ofTree_zero (slots_of_wellFormed h).2 t.count
  refine ⟨hholds, hsentinel, ?_⟩
  exact Layout.validate_eq_ok rfl h.count_eq hsize (congrArg Cell.color hsentinel) hholds
    h.blackRooted.1 hn h.ordered

/-- After any run of calls the table is a red-black tree: the root and the sentinel are black, no
red node has a red child, all paths down to leaves meet equally many black nodes, keys ascend,
parents and children refer to one another, the count is that of the nodes and within the capacity,
and validation finds nothing wrong. -/
theorem after_redBlack (capacity : Nat) (calls : List Call) :
    let t := Table.after (empty capacity) calls
    t.tree.color = .black ∧ t.layout.cell 0 = Cell.sentinel ∧ t.tree.Ordered ∧
      t.layout.root = t.tree.rootSlot ∧ t.layout.Holds 0 t.tree ∧
      Table.size t = t.tree.size ∧ Table.size t ≤ capacity ∧
      ∃ n, t.tree.Balanced n ∧ t.validate = .ok (n + 1) := by
  intro t
  have hempty : LawfulTable.Sound (empty capacity) := empty_wellFormed capacity
  obtain ⟨h, hcapacity⟩ : t.WellFormed ∧ t.capacity = capacity :=
    LawfulTable.after_keeps hempty calls
  obtain ⟨hblack, n, hn⟩ := h.blackRooted
  obtain ⟨hholds, hsentinel, hvalidate⟩ := validate_of_wellFormed h hn
  exact ⟨hblack, hsentinel, h.ordered, rfl, hholds, h.count_eq, hcapacity ▸ h.count_le, n, hn,
    hvalidate⟩

/-- A tree refines a bounded map: both answer every run of calls alike, and after it the tree finds
and lists what the map holds, in the order of the keys, which is that of their bytes. -/
theorem refines_boundedMap (capacity : Nat) (calls : List Call) :
    let t := Table.after (empty capacity) calls
    let m := Table.after (BoundedMap.empty capacity) calls
    Table.answers (empty capacity) calls = Table.answers (BoundedMap.empty capacity) calls ∧
      m.capacity = capacity ∧ Table.capacity t = capacity ∧ Table.size t = m.contents.size ∧
      (∀ key, Table.get? t key = m.contents[key]?) ∧
      (∀ key value, ⟨key, value⟩ ∈ Table.toList t ↔ m.contents[key]? = some value) ∧
      (Table.toList t).Pairwise (fun r s => r.key < s.key) ∧
      (Table.toList t).Pairwise (fun r s => KeyOrder.bytes r.key < KeyOrder.bytes s.key) := by
  intro t m
  have hempty : LawfulTable.Sound (empty capacity) := empty_wellFormed capacity
  obtain ⟨h, hcapacity⟩ : t.WellFormed ∧ t.capacity = capacity :=
    LawfulTable.after_keeps hempty calls
  have hm : m = Table.bounded t := LawfulTable.after_bounded hempty calls
  have hget (key : String) : Table.get? t key = m.contents[key]? := by
    rw [hm]
    exact (LawfulTable.get?_bounded h key).symm
  have hsorted := sorted h
  refine ⟨(LawfulTable.answers_bounded hempty calls).symm, ?_, hcapacity, ?_, hget, ?_, hsorted,
    hsorted.imp fun hrs => (KeyOrder.bytes_lt_iff _ _).mpr hrs⟩
  · rw [hm]
    exact hcapacity
  · rw [hm]
    exact (LawfulTable.size_bounded h).symm
  · intro key value
    rw [← hget]
    exact (LawfulTable.get?_eq_some_iff h key value).symm

end TreeTable

end TriStore
