import TriStore.Proofs.Arena
import TriStore.Proofs.Descent
import TriStore.Proofs.RedBlack.RelinkInsertion
import TriStore.Proofs.RedBlack.Unlink

/-!
# The sentinel is no node

A tree table may be kept in any table of cells that holds its tree, with the sentinel in slot 0.
Insertion and deletion, done there link by link, end after a round for each level at most and find
nodes wherever they ask for some. They leave a table of cells that keeps the tree table after the call,
so nothing of the sentinel is changed for good.
-/

namespace TriStore

open RedBlack

namespace TreeTable
variable {t t' : TreeTable} {layout : Layout}

/-- A table of cells that keeps a tree table: its tree, below a sentinel that is as it was made. -/
structure KeptIn (t : TreeTable) (layout : Layout) : Prop where
  holds : layout.Holds 0 t.tree
  root_eq : layout.root = t.tree.rootSlot
  sentinel : layout.cell 0 = Cell.sentinel
  size_eq : layout.cells.size = t.slots
  count_eq : layout.count = t.count

/-- The same, said of the root as a place. -/
theorem keptIn_iff (h : t.WellFormed) :
    t.KeptIn layout ↔ layout.At ⟨t.slots, t.count, 0⟩ ⟨t.tree, []⟩ := by
  have hpos : 0 < t.slots := by
    rw [slots_eq h]
    omega
  rw [Layout.At.top_iff]
  constructor
  · intro hkept
    exact ⟨⟨hkept.root_eq, hkept.holds, (slots_of_wellFormed h).1⟩, hpos, hkept.size_eq,
      hkept.count_eq, hkept.sentinel⟩
  · rintro ⟨hcarries, -, hsize, hcount, hsentinel⟩
    exact ⟨hcarries.holds, hcarries.root_eq, hsentinel, hsize, hcount⟩

theorem keptIn_layout (h : t.WellFormed) : t.KeptIn t.layout := by
  obtain ⟨hholds, -, -⟩ := layout_holds h
  refine ⟨hholds, rfl, Layout.cell_ofTree_zero (slots_of_wellFormed h).2 t.count, ?_, rfl⟩
  rw [layout, Layout.ofTree, Tree.size_writeCells, Array.size_replicate]

theorem takeSlot_bounds (h : t.WellFormed) :
    t.takeSlot.1 ≤ t.slots ∧ max t.slots (t.takeSlot.1 + 1) = t.takeSlot.2.1 := by
  unfold takeSlot
  split
  · next slot free hfree =>
    have hmem : slot ∈ List.range t.slots := by
      apply h.slots_perm.mem_iff.mp
      rw [hfree]
      exact List.mem_cons_of_mem _ (List.mem_append_right _ List.mem_cons_self)
    have hlt := List.mem_range.mp hmem
    exact ⟨Nat.le_of_lt hlt, Nat.max_eq_left hlt⟩
  · exact ⟨Nat.le_refl _, Nat.max_eq_right (Nat.le_succ _)⟩

theorem fits_of_seek {key : String} {focus : Tree} {path : List Frame} (h : t.WellFormed)
    (hseek : t.tree.seek key = ⟨focus, path⟩) : ∃ n, Fits n focus path := by
  apply (blackRooted_rebuild_iff focus path).mp
  rw [Tree.rebuild_of_seek hseek]
  exact h.blackRooted

theorem sound_insert (h : t.WellFormed) {key value : String} (hinsert : t.insert key value = .ok t') :
    t'.WellFormed := by
  have houtcome := insert_outcome h key value
  rw [hinsert] at houtcome
  cases houtcome with
  | done _ _ hsound => exact hsound

theorem sound_replace (h : t.WellFormed) {key value old : String}
    (hreplace : t.replace key value = .ok (old, t')) : t'.WellFormed := by
  have houtcome := replace_outcome h key value
  rw [hreplace] at houtcome
  cases houtcome with
  | done hsound => exact hsound

theorem sound_erase (h : t.WellFormed) {key old : String} (herase : t.erase key = .ok (old, t')) :
    t'.WellFormed := by
  have houtcome := erase_outcome h key
  rw [herase] at houtcome
  cases houtcome with
  | done hsound => exact hsound

/-- A record goes into a table of cells link by link. Each step is possible without the sentinel, and
there are as many rounds of repair as levels above the new node, at most. -/
def InsertsIn (t : TreeTable) (layout : Layout) (record : Record) (t' : TreeTable) : Prop :=
  ∃ path layout', t.tree.seek record.key = ⟨.leaf, path⟩ ∧
    layout.insert path.length t.takeSlot.1 record = .ok layout' ∧ t'.KeptIn layout' ∧
    let place : Cursor := ⟨.node .red ⟨t.takeSlot.1, record⟩ .leaf .leaf, path⟩
    let last := Insertion.repair path.length place
    t'.tree = last.tree.paint .black ∧
      ∃ n ≤ path.length, Rounds Insertion.redParent Insertion.round? n place last

/-- A record is taken out of a table of cells link by link. Each step is possible without the sentinel,
and there are as many rounds of repair as levels above the place that lost a node, at most. -/
def ErasesIn (t : TreeTable) (layout : Layout) (key : String) (t' : TreeTable) : Prop :=
  ∃ c e l r path place removed layout', t.tree.seek key = ⟨.node c e l r, path⟩ ∧
    Deletion.detach c l r path = (place, removed) ∧
    layout.remove place.path.length key = .ok layout' ∧ t'.KeptIn layout' ∧
    match removed with
    | .red => t'.tree = place.tree
    | .black =>
      let last := Deletion.repair place.path.length place
      t'.tree = (Cursor.mk (last.focus.paint .black) last.path).tree ∧
        ∃ n ≤ place.path.length, Rounds Deletion.lacksBlack Deletion.round? n place last

namespace KeptIn
variable {key value old : String} {rounds : Nat}

/-- A record that goes into the tree table goes into the table of cells, with a round for each level. -/
theorem insert {path : List Frame} (h : t.WellFormed) (hkept : t.KeptIn layout)
    (hinsert : t.insert key value = .ok t') (hseek : t.tree.seek key = ⟨.leaf, path⟩)
    (hrounds : path.length ≤ rounds) :
    Yields (layout.insert rounds t.takeSlot.1 ⟨key, value⟩) t'.KeptIn := by
  have h' := sound_insert h hinsert
  obtain ⟨_, hfound, rfl⟩ := insert_eq_ok hinsert
  cases hseek.symm.trans hfound
  obtain ⟨n, hfits⟩ := fits_of_seek h hseek
  obtain ⟨hslot, hslots⟩ := takeSlot_bounds h
  have hfresh := takeSlot_fresh h
  simp only [List.mem_cons, not_or] at hfresh
  have hplace : t.tree.seek (Record.mk key value).key = ⟨.leaf, path⟩ := hseek
  have hyields := ((keptIn_iff h).mp hkept).insert (size_le_slots h) hplace hfits hfresh.1 hslot
    hfresh.2 hrounds
  rw [hslots] at hyields
  exact hyields.mono fun _ => (keptIn_iff h').mpr

theorem insertsIn (h : t.WellFormed) (hkept : t.KeptIn layout)
    (hinsert : t.insert key value = .ok t') : t.InsertsIn layout ⟨key, value⟩ t' := by
  obtain ⟨path, hseek, ht'⟩ := insert_eq_ok hinsert
  obtain ⟨n, hfits⟩ := fits_of_seek h hseek
  obtain ⟨layout', hok, hkept'⟩ := hkept.insert h hinsert hseek (Nat.le_refl _)
  have hred : Insertion.RedFocus n ⟨.node .red ⟨t.takeSlot.1, key, value⟩ .leaf .leaf, path⟩ :=
    ⟨rfl, .red rfl rfl hfits.balanced hfits.balanced, hfits.supports⟩
  refine ⟨path, layout', hseek, hok, hkept', ?_, Insertion.rounds_repair hred (Or.inl (Nat.le_refl _))⟩
  rw [ht']
  rfl

theorem replace {c : Color} {e : Entry} {l r : Tree} {path : List Frame} (h : t.WellFormed)
    (hkept : t.KeptIn layout) (hreplace : t.replace key value = .ok (old, t'))
    (hseek : t.tree.seek key = ⟨.node c e l r, path⟩) :
    t'.KeptIn (layout.change e.slot (·.setValue value)) := by
  have h' := sound_replace h hreplace
  obtain ⟨_, _, _, _, _, hfound, rfl⟩ := replace_eq_ok hreplace
  cases hseek.symm.trans hfound
  have hat := (keptIn_iff h).mp hkept
  rw [← Tree.rebuild_of_seek hseek] at hat
  have hset := Layout.At.setValue (Layout.At.tree_iff.mp hat) value
  exact (keptIn_iff h').mpr (Layout.At.tree_iff.mpr hset)

theorem remove {c : Color} {e : Entry} {l r : Tree} {path : List Frame} (h : t.WellFormed)
    (hkept : t.KeptIn layout) (herase : t.erase key = .ok (old, t'))
    (hseek : t.tree.seek key = ⟨.node c e l r, path⟩)
    (hrounds : (Deletion.detach c l r path).1.path.length ≤ rounds) :
    Yields (layout.remove rounds key) t'.KeptIn := by
  have h' := sound_erase h herase
  obtain ⟨_, _, _, _, _, hfound, rfl⟩ := erase_eq_ok herase
  cases hseek.symm.trans hfound
  obtain ⟨n, hfits⟩ := fits_of_seek h hseek
  have hfresh : e.slot ∉ (Deletion.eraseAt c l r path).slots := fun hmem =>
    have hnodup := (List.nodup_cons.mp (slots_nodup h')).2
    (List.nodup_append.mp hnodup).2.2 _ hmem _ List.mem_cons_self rfl
  have hyields := ((keptIn_iff h).mp hkept).remove (size_le_slots h) hseek hfits hfresh hrounds
  exact hyields.mono fun _ => (keptIn_iff h').mpr

theorem erasesIn (h : t.WellFormed) (hkept : t.KeptIn layout)
    (herase : t.erase key = .ok (old, t')) : t.ErasesIn layout key t' := by
  obtain ⟨c, e, l, r, path, hseek, ht'⟩ := erase_eq_ok herase
  obtain ⟨n, hfits⟩ := fits_of_seek h hseek
  obtain ⟨layout', hok, hkept'⟩ := hkept.remove h herase hseek (Nat.le_refl _)
  have hlost := (Deletion.detach_spec hfits).1
  obtain ⟨place, removed, hdetach⟩ : ∃ place removed, Deletion.detach c l r path = (place, removed) :=
    ⟨_, _, rfl⟩
  rw [hdetach] at hok hlost
  refine ⟨c, e, l, r, path, place, removed, layout', hseek, hdetach, hok, hkept', ?_⟩
  rw [ht', Deletion.eraseAt, hdetach]
  cases removed with
  | red => rfl
  | black =>
    obtain ⟨m, hdeficient⟩ := hlost
    exact ⟨rfl, Deletion.rounds_repair hdeficient (Or.inl (Nat.le_refl _))⟩

end KeptIn

/-- After any run of calls a table of cells keeps the tree table. In each that does, an insertion and a
deletion that succeed are done without the sentinel as a node: it gets no child, is never red and has
its own link again afterwards, each node that rises is one, each red parent below another node. The
rounds of repair end after one for each level at most. -/
theorem rebalancing_spares_sentinel (capacity : Nat) (calls : List Call) :
    let t := Table.after (empty capacity) calls
    t.KeptIn t.layout ∧ ∀ layout, t.KeptIn layout →
      (∀ key value t', t.insert key value = .ok t' → t.InsertsIn layout ⟨key, value⟩ t') ∧
      ∀ key old t', t.erase key = .ok (old, t') → t.ErasesIn layout key t' := by
  intro t
  have hempty : LawfulTable.Sound (empty capacity) := empty_wellFormed capacity
  have h : t.WellFormed := (LawfulTable.after_keeps hempty calls).1
  exact ⟨keptIn_layout h, fun layout hkept =>
    ⟨fun key value t' => hkept.insertsIn h, fun key old t' => hkept.erasesIn h⟩⟩

/-- A pair of red nodes that is moved up and then rotated away, and a deletion below a red sibling. -/
theorem rebalancing_spares_sentinel_of_seven :
    let t := Table.after (empty 8)
      (["a", "b", "c", "d", "e", "f", "g"].map fun key => Call.insert key "1")
    (∃ t', t.insert "h" "1" = .ok t' ∧ t.InsertsIn t.layout ⟨"h", "1"⟩ t') ∧
      ∃ t', t.erase "a" = .ok ("1", t') ∧ t.ErasesIn t.layout "a" t' := by
  intro t
  obtain ⟨hkept, hall⟩ := rebalancing_spares_sentinel 8
    (["a", "b", "c", "d", "e", "f", "g"].map fun key => Call.insert key "1")
  obtain ⟨hinserts, herases⟩ := hall _ hkept
  obtain ⟨t₁, hinsert⟩ : ∃ t', t.insert "h" "1" = .ok t' := ⟨_, rfl⟩
  obtain ⟨t₂, herase⟩ : ∃ t', t.erase "a" = .ok ("1", t') := ⟨_, rfl⟩
  exact ⟨⟨t₁, hinsert, hinserts _ _ _ hinsert⟩, t₂, herase, herases _ _ _ herase⟩

end TreeTable

end TriStore
